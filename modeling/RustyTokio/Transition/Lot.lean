import RustyTokio.Transition.Futures
import RustyTokio.Transition.Pool

/-!
# Parking lots

A primitive that keeps everything under one lock keeps the wakers of those who wait there too.
-/

namespace RustyTokio.Transition

open List

/-- A future of some kind, with the waker of its last poll. -/
structure Sleeper (κ : Type*) where
  kind : κ
  waker : ℕ
  phase : Phase
  deriving DecidableEq

namespace Lot

variable {κ : Type*} {w k x : ℕ} {hands : List (List ℕ)}

def wake (w : ℕ) (f : Sleeper κ) : Sleeper κ :=
  if f.waker = w then { f with phase := f.phase.wake } else f

/-- The next wake of call `k`: the futures and the batches after it. -/
def wakeNext (t : List (Sleeper κ)) (hands : List (List ℕ)) (k : ℕ) :
    Option (List (Sleeper κ) × List (List ℕ)) :=
  match hands[k]? with
  | some (w :: rest) => some (t.map (wake w), hands.set k rest)
  | _ => none

/-- A call has taken the waker, and has yet to wake it. -/
def InHand (hands : List (List ℕ)) (w : ℕ) : Prop := ∃ b ∈ hands, w ∈ b

@[simp] theorem wake_kind (w : ℕ) (f : Sleeper κ) : (wake w f).kind = f.kind := by
  rw [wake]
  split <;> rfl

@[simp] theorem wake_waker (w : ℕ) (f : Sleeper κ) : (wake w f).waker = f.waker := by
  rw [wake]
  split <;> rfl

theorem wake_isLive (w : ℕ) (f : Sleeper κ) : (wake w f).phase.isLive = f.phase.isLive := by
  rw [wake]
  split
  · cases f.phase <;> rfl
  · rfl

theorem wake_isParked (w : ℕ) (f : Sleeper κ) : (wake w f).phase.isParked = f.phase.isParked := by
  rw [wake]
  split
  · cases f.phase <;> rfl
  · rfl

theorem asleep_of_wake {f : Sleeper κ} (h : (wake w f).phase = .parked false) :
    f.phase = .parked false ∧ f.waker ≠ w := by
  rw [wake] at h
  split at h
  · have hasleep := Phase.isAsleep_wake f.phase
    rw [show f.phase.wake = .parked false from h] at hasleep
    cases hasleep
  · exact ⟨h, by assumption⟩

theorem wakeNext_eq_some {t t' : List (Sleeper κ)} {hands' : List (List ℕ)}
    (h : wakeNext t hands k = some (t', hands')) :
    ∃ w rest, hands[k]? = some (w :: rest) ∧ t' = t.map (wake w) ∧ hands' = hands.set k rest := by
  rw [wakeNext] at h
  split at h
  next w rest hk =>
    cases h
    exact ⟨w, rest, hk, rfl, rfl⟩
  · cases h

theorem InHand.of_wake {rest : List ℕ}
    (hk : hands[k]? = some (w :: rest)) (hx : InHand hands x) (hne : x ≠ w) :
    InHand (hands.set k rest) x := by
  obtain ⟨b, hb, hxb⟩ := hx
  obtain ⟨i, hi⟩ := getElem?_of_mem hb
  obtain rfl | hki := eq_or_ne k i
  · cases hk.symm.trans hi
    refine ⟨rest, mem_set (List.getElem?_eq_some_iff.mp hk).1 rest, ?_⟩
    exact (mem_cons.mp hxb).resolve_left hne
  · refine ⟨b, mem_of_getElem? (i := i) ?_, hxb⟩
    rw [getElem?_set_ne hki]
    exact hi

theorem InHand.append (h : InHand hands x) (b : List ℕ) : InHand (hands ++ [b]) x := by
  obtain ⟨c, hc, hxc⟩ := h
  exact ⟨c, mem_append_left _ hc, hxc⟩

theorem inHand_last {b : List ℕ} (h : x ∈ b) : InHand (hands ++ [b]) x :=
  ⟨b, mem_append_right _ (mem_singleton.mpr rfl), h⟩

/-- **Nobody is left behind.**  The waker of a future that is asleep is in the list, and what
it waits for has not come about; or it is about to be woken. -/
def Awaited (ready : κ → Prop) (t : List (Sleeper κ)) (wakers : List ℕ)
    (hands : List (List ℕ)) : Prop :=
  ∀ f ∈ t, f.phase = .parked false →
    (f.waker ∈ wakers ∧ ¬ ready f.kind) ∨ InHand hands f.waker

namespace Awaited

variable {ready ready' : κ → Prop} {t t' : List (Sleeper κ)} {wakers wakers' : List ℕ}
  {hands : List (List ℕ)} {f : Sleeper κ}

theorem update (h : Awaited ready t wakers hands) (hw : wakers ⊆ wakers')
    (ht : ∀ f ∈ t', f.phase = .parked false →
      (f ∈ t ∧ (ready' f.kind → ready f.kind)) ∨ (f.waker ∈ wakers' ∧ ¬ ready' f.kind)) :
    Awaited ready' t' wakers' hands := by
  intro f hf hasleep
  rcases ht f hf hasleep with ⟨hold, hmono⟩ | hnew
  · rcases h f hold hasleep with ⟨hmem, hnot⟩ | hhand
    · exact .inl ⟨hw hmem, fun hr => hnot (hmono hr)⟩
    · exact .inr hhand
  · exact .inl hnew

theorem mono (h : Awaited ready t wakers hands) (hr : ∀ k, ready' k → ready k) :
    Awaited ready' t wakers hands :=
  h.update (Subset.refl _) fun _ hf _ => .inl ⟨hf, hr _⟩

section

variable (h : Awaited ready t wakers hands)

include h

theorem set_awake (i : ℕ)
    (hf : f.phase ≠ .parked false) : Awaited ready (t.set i f) wakers hands := by
  refine h.update (Subset.refl _) fun g hg hasleep => .inl ⟨?_, id⟩
  rcases mem_or_eq_of_mem_set hg with hg | rfl
  · exact hg
  · exact absurd hasleep hf

theorem snoc_awake (hf : f.phase ≠ .parked false) : Awaited ready (t ++ [f]) wakers hands := by
  refine h.update (Subset.refl _) fun g hg hasleep => .inl ⟨?_, id⟩
  rcases mem_append.mp hg with hg | hg
  · exact hg
  · rw [mem_singleton.mp hg] at hasleep
    exact absurd hasleep hf

theorem park (i : ℕ) {k : κ} (w : ℕ) (hk : ¬ ready k) :
    Awaited ready (t.set i ⟨k, w, .parked false⟩) (wakers ++ [w]) hands := by
  refine h.update (subset_append_left _ _) fun g hg _ => ?_
  rcases mem_or_eq_of_mem_set hg with hg | rfl
  · exact .inl ⟨hg, id⟩
  · exact .inr ⟨mem_append_right _ (mem_singleton.mpr rfl), hk⟩

theorem takeAll (ready' : κ → Prop) : Awaited ready' t [] (hands ++ [wakers]) := by
  intro f hf hasleep
  rcases h f hf hasleep with ⟨hmem, -⟩ | hhand
  · exact .inr (inHand_last hmem)
  · exact .inr (hhand.append wakers)

theorem wakeNext {k : ℕ} {hands' : List (List ℕ)}
    (hs : Lot.wakeNext t hands k = some (t', hands')) : Awaited ready t' wakers hands' := by
  obtain ⟨w, rest, hk, rfl, rfl⟩ := wakeNext_eq_some hs
  intro f hf hasleep
  obtain ⟨g, hg, rfl⟩ := mem_map.mp hf
  obtain ⟨hgasleep, hne⟩ := asleep_of_wake hasleep
  rw [wake_waker, wake_kind]
  rcases h g hg hgasleep with hmem | hhand
  · exact .inl hmem
  · exact .inr (hhand.of_wake hk hne)

theorem inHand (hf : f ∈ t)
    (hasleep : f.phase = .parked false) (hr : ready f.kind) : InHand hands f.waker :=
  (h f hf hasleep).resolve_left fun hn => hn.2 hr

end

end Awaited

/-- There are no more wakers than parked futures that have to wait. -/
def Bounded (waits : κ → Bool) (t : List (Sleeper κ)) (wakers : List ℕ) : Prop :=
  wakers.length ≤ t.countP fun f => f.phase.isParked && waits f.kind

namespace Bounded

variable {waits waits' : κ → Bool} {t t' : List (Sleeper κ)} {wakers : List ℕ} {f g : Sleeper κ}
  {i : ℕ}

section

variable (h : Bounded waits t wakers)

include h

theorem mono (hw : ∀ k, waits k → waits' k) : Bounded waits' t wakers := by
  refine Nat.le_trans h (countP_mono_left fun f _ hf => ?_)
  rw [Bool.and_eq_true] at hf ⊢
  exact ⟨hf.1, hw _ hf.2⟩

theorem set (hi : t[i]? = some f) (hf : (f.phase.isParked && waits f.kind) →
      (g.phase.isParked && waits g.kind)) : Bounded waits (t.set i g) wakers := by
  obtain ⟨hlt, rfl⟩ := List.getElem?_eq_some_iff.mp hi
  rw [Bounded, countP_set hlt]
  have hpos := boole_getElem_le_countP (p := fun f => f.phase.isParked && waits f.kind) hlt
  rw [Bounded] at h
  split_ifs at hpos ⊢ with hold hnew hnew
  · omega
  · exact absurd (hf hold) hnew
  · omega
  · omega

theorem park (hi : t[i]? = some f) (hf : (f.phase.isParked && waits f.kind) = false)
    (hg : (g.phase.isParked && waits g.kind)) (w : ℕ) :
    Bounded waits (t.set i g) (wakers ++ [w]) := by
  obtain ⟨hlt, rfl⟩ := List.getElem?_eq_some_iff.mp hi
  rw [Bounded, countP_set hlt, hf, hg, length_append]
  exact Nat.succ_le_succ h

theorem snoc (f : Sleeper κ) : Bounded waits (t ++ [f]) wakers := by
  rw [Bounded, countP_append]
  exact Nat.le_add_right_of_le h

theorem wakeNext {k : ℕ} {hands' : List (List ℕ)}
    (hs : Lot.wakeNext t hands k = some (t', hands')) : Bounded waits t' wakers := by
  obtain ⟨w, rest, -, rfl, -⟩ := wakeNext_eq_some hs
  rw [Bounded, countP_map]
  simp only [Function.comp_def, wake_isParked, wake_kind]
  exact h

theorem le_parked : wakers.length ≤ t.countP fun f => f.phase.isParked :=
  Nat.le_trans h (countP_mono_left fun _ _ hf => (Bool.and_eq_true_iff.mp hf).1)

end

end Bounded

theorem countP_parked_set {t : List (Sleeper κ)} {i : ℕ} {f g : Sleeper κ}
    (hi : t[i]? = some f) (hf : f.phase.isParked) :
    ((t.set i g).countP fun f => f.phase.isParked) + (if g.phase.isParked then 0 else 1) =
      t.countP fun f => f.phase.isParked := by
  obtain ⟨hlt, rfl⟩ := List.getElem?_eq_some_iff.mp hi
  have hpos := boole_getElem_le_countP (p := fun f : Sleeper κ => f.phase.isParked) hlt
  rw [hf, if_pos rfl] at hpos
  rw [countP_set hlt, hf, if_pos rfl]
  split_ifs <;> omega

end Lot

end RustyTokio.Transition

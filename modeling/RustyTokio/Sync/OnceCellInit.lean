import RustyTokio.Sync.OnceCell

/-!
# A `OnceCell` is initialised once

The state says who may touch the value.  While it is `Initializing` one future has claimed the cell,
and that one alone can write; otherwise nobody has, and the value is there for good or not at all.
-/

namespace RustyTokio.OnceCell

open Transition List Option Pool Table Lot

variable {α : Type}

namespace World

def weight (f : Sleeper (Stage α)) : ℕ := f.kind.inFlight.toNat

/-- At most one call initialises, and the value is the only one written. -/
structure Kept (w : World α) : Prop where
  claimed : Pool.total weight w.futures = if w.inner.state = .initializing then 1 else 0
  written : w.writes = w.value.toList
  blank : w.inner.state = .uninit → w.value = none
  filled : w.inner.state = .initialized → w.value.isSome = true
  pending : ∀ f ∈ w.futures, f.kind.inFlight = true → w.value.isSome = f.kind.hasWritten
  denoted : ∀ r ∈ w.returned, w.inner.state = .initialized ∧ r = w.value
  quiet : w.inner.state ≠ .initializing → w.inner.wakers = []
  awaited : Lot.Awaited (fun _ => w.inner.state ≠ .initializing) w.futures w.inner.wakers w.hands

section Kept

variable {w v : World α} {l : Label α} {i : ℕ} {f : Sleeper (Stage α)} {f' : Sleeper (Stage α)}

theorem weight_eq_one (hf : f.kind.inFlight) : weight f = 1 := by
  rw [weight, hf]
  rfl

theorem weight_eq_zero (hf : f.kind.inFlight = false) : weight f = 0 := by
  rw [weight, hf]
  rfl

theorem Kept.initializing (h : w.Kept) (hi : w.futures[i]? = some f)
    (hf : f.kind.inFlight) : w.inner.state = .initializing := by
  by_contra hs
  have hle := le_total (f := weight) hi
  rw [h.claimed, if_neg hs, weight_eq_one hf] at hle
  cases hle

theorem Kept.none_inFlight (h : w.Kept) (hs : w.inner.state ≠ .initializing) :
    ∀ g ∈ w.futures, g.kind.inFlight = false := by
  intro g hg
  obtain ⟨j, hj⟩ := getElem?_of_mem hg
  by_contra hn
  exact hs (h.initializing hj (by simpa using hn))

theorem Kept.alone (h : w.Kept) {j : ℕ} {g : Sleeper (Stage α)} (hi : w.futures[i]? = some f)
    (hj : w.futures[j]? = some g) (hf : f.kind.inFlight) (hg : g.kind.inFlight) : i = j := by
  by_contra hij
  have hle := add_le_total (f := weight) hij hi hj
  rw [h.claimed, if_pos (h.initializing hi hf), weight_eq_one hf, weight_eq_one hg] at hle
  exact absurd hle (by decide)

theorem Kept.eq_of_inFlight (h : w.Kept) (hi : w.futures[i]? = some f)
    (hf : f.kind.inFlight) : ∀ g ∈ w.futures.set i f', g.kind.inFlight → g = f' := by
  intro g hg hgf
  obtain ⟨j, hj⟩ := getElem?_of_mem hg
  rcases of_set hj with ⟨-, heq⟩ | ⟨hij, hj⟩
  · exact heq
  · exact absurd (h.alone hi hj hf hgf) hij

theorem total_set_weight (hi : w.futures[i]? = some f) {n : ℕ}
    (hn : Pool.total weight w.futures + weight f' = n + weight f) :
    Pool.total weight (w.futures.set i f') = n := by
  have hset := total_set (f := weight) f' hi
  omega

section

variable (h : w.Kept)

include h

theorem Kept.not_returned (hs : w.inner.state ≠ .initialized) {r : Option α} : r ∉ w.returned :=
  fun hr => hs (h.denoted r hr).1

theorem Kept.moves (hi : w.futures[i]? = some f) (stage : Stage α) (waker : ℕ)
    (phase : Phase) (hf : stage.inFlight = f.kind.inFlight)
    (hw : stage.hasWritten = f.kind.hasWritten) (hp : phase.isParked = false) :
    (w.goto i stage waker phase).Kept where
  claimed := by
    refine total_set_weight hi ?_
    rw [h.claimed, weight, weight, hf]
    rfl
  written := h.written
  blank := h.blank
  filled := h.filled
  pending g hg hgf := by
    rcases mem_or_eq_of_mem_set hg with hg | rfl
    · exact h.pending g hg hgf
    · change w.value.isSome = stage.hasWritten
      rw [hw]
      exact h.pending f (mem_of_getElem? hi) (hf.symm.trans hgf)
  denoted := h.denoted
  quiet := h.quiet
  awaited := h.awaited.set_awake i fun hasleep => by
    rw [show phase = .parked false from hasleep] at hp
    cases hp

theorem Kept.returns (hs : w.inner.state = .initialized) :
    Kept { w with returned := w.returned ++ [w.value] } where
  claimed := h.claimed
  written := h.written
  blank := h.blank
  filled := h.filled
  pending := h.pending
  denoted r hr := by
    rcases mem_append.mp hr with hr | hr
    · exact h.denoted r hr
    · exact ⟨hs, mem_singleton.mp hr⟩
  quiet := h.quiet
  awaited := h.awaited

theorem Kept.claims (hi : w.futures[i]? = some f) (hk : f.kind = .tryClaim)
    (hs : w.inner.state = .uninit) :
    (goto { w with inner := { w.inner with state := .initializing } } i (.running true)
      f.waker .fresh).Kept := by
  have hne : w.inner.state ≠ .initializing := by simp [hs]
  have hf : f.kind.inFlight = false := by rw [hk]; rfl
  refine ⟨?_, h.written, ?_, ?_, ?_, ?_, ?_, ?_⟩
  · refine total_set_weight hi ?_
    rw [h.claimed, if_neg hne, weight_eq_zero hf]
    rfl
  · exact fun hst => absurd hst (by simp [goto])
  · exact fun hst => absurd hst (by simp [goto])
  · intro g hg hgf
    rcases mem_or_eq_of_mem_set hg with hg | rfl
    · cases (h.none_inFlight hne g hg).symm.trans hgf
    · change w.value.isSome = false
      rw [h.blank hs]
      rfl
  · exact fun r hr => absurd hr (h.not_returned (by simp [hs]))
  · exact fun hst => absurd rfl hst
  · exact (h.awaited.mono fun _ hst => absurd rfl hst).set_awake i (by simp)

theorem Kept.parks (hi : w.futures[i]? = some f) (hk : f.kind = .recheck)
    (hs : w.inner.state = .initializing) :
    (goto { w with inner := { w.inner with wakers := w.inner.wakers ++ [f.waker] } } i
      .waiting f.waker (.parked false)).Kept := by
  have hf : f.kind.inFlight = false := by rw [hk]; rfl
  refine ⟨?_, h.written, h.blank, h.filled, ?_, h.denoted, ?_, ?_⟩
  · refine total_set_weight hi ?_
    rw [h.claimed, weight_eq_zero hf]
    rfl
  · intro g hg hgf
    rcases mem_or_eq_of_mem_set hg with hg | rfl
    · exact h.pending g hg hgf
    · cases hgf
  · exact fun hst => absurd hs hst
  · exact h.awaited.park i f.waker (not_not.mpr hs)

theorem Kept.writes {value : α} (hi : w.futures[i]? = some f) (hk : f.kind = .write value) :
    (goto { w with value := some value, writes := w.writes ++ [value] } i .publish f.waker
      .fresh).Kept := by
  have hf : f.kind.inFlight := by rw [hk]; rfl
  have hs := h.initializing hi hf
  have hnone : w.value = none := by
    have hpending := h.pending f (mem_of_getElem? hi) hf
    rw [hk] at hpending
    exact isSome_eq_false_iff.mp hpending |> isNone_iff_eq_none.mp
  refine ⟨?_, ?_, ?_, ?_, ?_, ?_, h.quiet, h.awaited.set_awake i (by simp)⟩
  · refine total_set_weight hi ?_
    rw [h.claimed, weight_eq_one hf]
    rfl
  · change w.writes ++ [value] = [value]
    rw [h.written, hnone]
    rfl
  · exact fun hst => absurd (hs.symm.trans hst) (by simp)
  · exact fun hst => absurd (hs.symm.trans hst) (by simp)
  · intro g hg hgf
    rw [h.eq_of_inFlight hi hf g hg hgf]
    rfl
  · exact fun r hr => absurd hr (h.not_returned (by simp [hs]))

theorem Kept.leaves (hi : w.futures[i]? = some f) (hf : f.kind.inFlight)
    (state : State) (phase : Phase) (hs : state ≠ .initializing) (hp : phase.isParked = false)
    (hb : state = .uninit → w.value = none) (hfill : state = .initialized → w.value.isSome) :
    (goto { w with inner := ⟨state, []⟩, hands := w.hands ++ [w.inner.wakers] }
      i .ended f.waker phase).Kept := by
  have hstate := h.initializing hi hf
  refine ⟨?_, h.written, hb, hfill, ?_, ?_, fun _ => rfl, ?_⟩
  · refine total_set_weight hi ?_
    rw [h.claimed, if_pos hstate, weight_eq_one hf]
    change 1 + 0 = (if state = .initializing then 1 else 0) + 1
    rw [if_neg hs]
  · intro g hg hgf
    rw [h.eq_of_inFlight hi hf g hg hgf] at hgf
    cases hgf
  · exact fun r hr => absurd hr (h.not_returned (by simp [hstate]))
  · refine (h.awaited.takeAll _).set_awake i fun hasleep => ?_
    rw [show phase = .parked false from hasleep] at hp
    cases hp

theorem Kept.sets (value : α) (hs : w.inner.state = .uninit) : Kept { w with
        inner := ⟨.initialized, []⟩
        value := some value
        writes := w.writes ++ [value]
        hands := w.hands ++ [w.inner.wakers] } := by
  have hne : w.inner.state ≠ .initializing := by simp [hs]
  refine ⟨?_, ?_, ?_, fun _ => rfl, ?_, ?_, fun _ => rfl, h.awaited.takeAll _⟩
  · rw [h.claimed, if_neg hne]
    rfl
  · change w.writes ++ [value] = [value]
    rw [h.written, h.blank hs]
    rfl
  · exact fun hst => absurd hst (by simp)
  · intro g hg hgf
    cases (h.none_inFlight hne g hg).symm.trans hgf
  · exact fun r hr => absurd hr (h.not_returned (by simp [hs]))

theorem Kept.wakeNext {k : ℕ} {t : List (Sleeper (Stage α))} {hs : List (List ℕ)}
    (hk : Lot.wakeNext w.futures w.hands k = some (t, hs)) :
    Kept { w with futures := t, hands := hs } := by
  refine ⟨?_, h.written, h.blank, h.filled, ?_, h.denoted, h.quiet, h.awaited.wakeNext hk⟩
  · obtain ⟨x, rest, -, rfl, -⟩ := wakeNext_eq_some hk
    change Pool.total weight (w.futures.map (Lot.wake x)) = _
    rw [total_map fun g => by rw [weight, weight, wake_kind]]
    exact h.claimed
  · obtain ⟨x, rest, -, rfl, -⟩ := wakeNext_eq_some hk
    intro g hg hgf
    obtain ⟨g', hg', rfl⟩ := mem_map.mp hg
    rw [wake_kind] at hgf ⊢
    exact h.pending g' hg' hgf

theorem kept_of_step (hs : Steps w l v) : v.Kept := by
  cases hs with
  | getOrInit =>
    refine ⟨?_, h.written, h.blank, h.filled, ?_, h.denoted, h.quiet,
      h.awaited.snoc_awake (by simp)⟩
    · change Pool.total weight (w.futures ++ [_]) = _
      rw [total_append, h.claimed]
      rfl
    · intro g hg hgf
      rcases mem_append.mp hg with hg | hg
      · exact h.pending g hg hgf
      · rw [mem_singleton.mp hg] at hgf
        cases hgf
  | moves hi stage waker phase hf hw hp => exact h.moves hi stage waker phase hf hw hp
  | @finds i f hi hk hs =>
    exact (h.returns hs).moves hi .ended f.waker .finished (by rw [hk]; rfl) (by rw [hk]; rfl) rfl
  | claims hi hk hs => exact h.claims hi hk hs
  | parks hi hk hs => exact h.parks hi hk hs
  | writes hi hk => exact h.writes hi hk
  | @publishes i f hi hk =>
    have hf : f.kind.inFlight := by rw [hk]; rfl
    have hleft := h.leaves hi hf .initialized .finished (by simp) rfl
      (by simp) fun _ => by
        rw [h.pending f (mem_of_getElem? hi) hf, hk]
        rfl
    exact hleft.returns rfl
  | @resets i f hi hk =>
    have hf : f.kind.inFlight := by rw [hk]; rfl
    refine h.leaves hi hf .uninit .dropped (by simp) rfl (fun _ => ?_)
      fun hst => absurd hst (by simp)
    -- a future that resets has not written
    have hpending := h.pending f (mem_of_getElem? hi) hf
    rw [hk] at hpending
    exact isSome_eq_false_iff.mp hpending |> isNone_iff_eq_none.mp
  | sets hs => exact h.sets _ hs
  | gets hs => exact h.returns hs
  | fails => exact h
  | wakeNext hk => exact h.wakeNext hk

end

theorem kept_init (value : Option α) : (onceCell value).init.Kept := by
  cases value with
  | none =>
    exact ⟨rfl, rfl, fun _ => rfl, by simp [onceCell],
      fun f hf => absurd hf not_mem_nil, fun r hr => absurd hr not_mem_nil, fun _ => rfl,
      fun f hf => absurd hf not_mem_nil⟩
  | some value =>
    exact ⟨rfl, rfl, by simp [onceCell], fun _ => rfl,
      fun f hf => absurd hf not_mem_nil, fun r hr => absurd hr not_mem_nil, fun _ => rfl,
      fun f hf => absurd hf not_mem_nil⟩

theorem kept_of_reachable {value : Option α} (h : (onceCell value).Reachable w) : w.Kept :=
  System.inv_of_reachable (kept_init value) (fun _ _ _ h hs => kept_of_step h (steps_of_step hs)) h

theorem onDrop_of_inFlight {k stage : Stage α} (hf : k.inFlight)
    (h : k.onDrop = some stage) : stage = .resetting := by
  cases k with
  | running polled =>
    cases polled with
    | false => exact (some.inj h).symm
    | true => simp [Stage.onDrop] at h
  | _ => simp_all [Stage.inFlight, Stage.onDrop]

theorem resetting_of_fails {u : World α} (hf : f.kind.inFlight) (hi : w.futures[i]? = some f)
    (hs : w.step (.panic i) = some u ∨ w.step (.drop i) = some u) :
    ∃ g, u.futures[i]? = some g ∧ g.kind = .resetting := by
  rcases hs with hs | hs <;> simp only [step, hi, bind_some] at hs
  · split at hs
    · cases hs
      exact ⟨_, set_self hi _, rfl⟩
    · cases hs
  · obtain ⟨stage, hstage, rfl⟩ := map_eq_some_iff.mp hs
    exact ⟨_, set_self hi _, onDrop_of_inFlight hf hstage⟩

theorem step_resetting (hi : w.futures[i]? = some f) (hk : f.kind = .resetting) :
    w.step (.advance i) =
      some (goto { w with inner := w.inner.reset.1, hands := w.hands ++ [w.inner.reset.2] }
        i .ended f.waker .dropped) := by
  simp only [step, hi, bind_some, advance, hk]

end Kept

/-- **Initialised once.**  In every run of a cell: at most one initialiser is in flight; the value
is written at most once, and every returned reference denotes it; an initialiser that panics or is
dropped goes on to the guard, which returns the cell to `Uninit`; and unless the cell is
`Initializing`, whoever is parked has been woken or is about to be. -/
theorem initialised_once (value : Option α) {w : World α} (h : (onceCell value).Reachable w) :
    (∀ (i j : ℕ) (f g : Sleeper (Stage α)), w.futures[i]? = some f → w.futures[j]? = some g →
      f.kind.inFlight = true → g.kind.inFlight = true → i = j) ∧ (w.writes.length ≤ 1 ∧
      ∀ r ∈ w.returned, ∃ x, r = some x ∧ w.writes = [x] ∧ w.value = some x) ∧
    ((∀ (i : ℕ) (f : Sleeper (Stage α)) (u : World α), w.futures[i]? = some f →
        f.kind.inFlight = true → w.step (.panic i) = some u ∨ w.step (.drop i) = some u →
        ∃ g, u.futures[i]? = some g ∧ g.kind = .resetting) ∧
      ∀ (i : ℕ) (f : Sleeper (Stage α)), w.futures[i]? = some f → f.kind = .resetting →
        ∃ u, w.step (.advance i) = some u ∧ u.inner.state = .uninit) ∧
    (w.inner.wakers ≠ [] → w.inner.state = .initializing) ∧
    ∀ f ∈ w.futures, f.phase.isParked = true → w.inner.state ≠ .initializing →
      f.phase.isWoken = true ∨ Lot.InHand w.hands f.waker := by
  have hk := kept_of_reachable h
  refine ⟨fun i j f g hi hj hf hg => hk.alone hi hj hf hg, ⟨?_, ?_⟩, ⟨?_, ?_⟩, ?_, ?_⟩
  · rw [hk.written]
    cases w.value <;> simp
  · intro r hr
    obtain ⟨hs, rfl⟩ := hk.denoted r hr
    obtain ⟨x, hx⟩ := isSome_iff_exists.mp (hk.filled hs)
    exact ⟨x, hx, by rw [hk.written, hx]; rfl, hx⟩
  · exact fun i f u hi hf hs => resetting_of_fails hf hi hs
  · exact fun i f hi hf => ⟨_, step_resetting hi hf, rfl⟩
  · intro hne
    by_contra hs
    exact hne (hk.quiet hs)
  · intro f hf hp hs
    obtain ⟨woken, hphase⟩ := Phase.isParked_iff.mp hp
    cases woken with
    | true => exact .inl (Phase.isWoken_iff.mpr hphase)
    | false => exact .inr (hk.awaited.inHand hf hphase hs)

theorem initialised_once_after_reset :
    ∃ w : World ℕ, (onceCell none).Reachable w ∧ w.inner.state = .initialized ∧
      w.writes = [9] ∧ w.returned = [some 9] ∧ w.writes.length ≤ 1 ∧
      w.futures.map Sleeper.phase = [.dropped, .parked false] ∧ Lot.InHand w.hands 6 := by
  have hw : (onceCell none).Reachable _ :=
    ⟨[.getOrInit, .getOrInit, .poll 0 5, .advance 0, .poll 1 6, .advance 1, .advance 1,
      .suspend 0, .drop 0, .advance 0, .set 9, .get], rfl⟩
  obtain ⟨-, ⟨hlength, -⟩, -, -, hparked⟩ := initialised_once none hw
  refine ⟨_, hw, rfl, rfl, rfl, hlength, rfl, ?_⟩
  have hwoken := hparked ⟨.waiting, 6, .parked false⟩
    (mem_cons_of_mem _ (mem_singleton.mpr rfl)) rfl (by simp)
  exact hwoken.resolve_left Bool.false_ne_true

end World

end RustyTokio.OnceCell

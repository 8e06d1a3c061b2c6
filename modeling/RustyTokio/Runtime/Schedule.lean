import Mathlib.Data.List.Nodup
import RustyTokio.Runtime.Queues
import RustyTokio.Transition.Pool

/-!
# Whether a task that is scheduled reaches its runtime

`Shared::schedule` of a multi-thread runtime asks the calling thread whether it
is a worker, and not whose.  The answer is in the thread-locals, which belong to
whatever worker loop or `block_on` the thread is in.
-/

namespace RustyTokio.Runtime

open Transition List Option

variable {τ : Type} {w w' : World τ} {r i d : ℕ} {sh : Shared τ} {t : Thread} {task : τ}
  {e : Event τ} {q : Queue} {batch idx : ℕ} {queue l : List τ}

/-! ## Who owns which deque -/

def Thread.badge (t : Thread) : Option ℕ × Option (ℕ × ℕ) := (t.localQueue, t.serves)

def LocalQueues.stealers : LocalQueues τ → Option (List ℕ)
  | .currentThread _ => none
  | .multiThread stealers => some stealers

def World.badges (w : World τ) : List (Option ℕ × Option (ℕ × ℕ)) := w.threads.map Thread.badge

def World.stealers (w : World τ) : List (Option (List ℕ)) :=
  w.runtimes.map fun sh => sh.localQueues.stealers

/-- **Deques and their owners**, in a process with `n` deques. -/
structure Deeded (n : ℕ) (badges : List (Option ℕ × Option (ℕ × ℕ)))
    (stealers : List (Option (List ℕ))) : Prop where
  bound : ∀ b ∈ badges, ∀ d, b.1 = some d → d < n
  nodup : (badges.filterMap Prod.fst).Nodup
  serves : ∀ b ∈ badges, b.1.isSome = b.2.isSome
  multi : ∀ b ∈ badges, ∀ r i, b.2 = some (r, i) → ∃ ss, stealers[r]? = some (some ss)
  owner : ∀ (r v : ℕ) (ss : List ℕ) (d : ℕ), stealers[r]? = some (some ss) → ss[v]? = some d →
    (some d, some (r, v)) ∈ badges

/-- Deques, threads and stealers belong together. -/
def World.Deeds (w : World τ) : Prop := Deeded w.deques.length w.badges w.stealers

theorem eq_of_nodup_filterMap {α β : Type*} {f : α → Option β} {l : List α}
    (h : (l.filterMap f).Nodup) {a b : α} (ha : a ∈ l) (hb : b ∈ l) {x : β} (hfa : f a = some x)
    (hfb : f b = some x) : a = b := by
  induction l with
  | nil => exact absurd ha (not_mem_nil)
  | cons c l ih =>
    have hmem : ∀ {e : α}, e ∈ l → f e = some x → x ∈ l.filterMap f := fun he hfe =>
      mem_filterMap.mpr ⟨_, he, hfe⟩
    rcases mem_cons.mp ha with rfl | ha'
    · rcases mem_cons.mp hb with rfl | hb'
      · rfl
      · rw [filterMap_cons_some hfa, nodup_cons] at h
        exact absurd (hmem hb' hfb) h.1
    · rcases mem_cons.mp hb with rfl | hb'
      · rw [filterMap_cons_some hfb, nodup_cons] at h
        exact absurd (hmem ha' hfa) h.1
      · refine ih ?_ ha' hb'
        exact h.sublist ((sublist_cons_self c l).filterMap f)

theorem Deeded.append {n m : ℕ} {badges new : List (Option ℕ × Option (ℕ × ℕ))}
    {stealers more : List (Option (List ℕ))} (h : Deeded n badges stealers)
    (hb : ∀ b ∈ new, ∀ d, b.1 = some d → n ≤ d ∧ d < n + m)
    (hn : (new.filterMap Prod.fst).Nodup) (hs : ∀ b ∈ new, b.1.isSome = b.2.isSome)
    (hm : ∀ b ∈ new, ∀ r i, b.2 = some (r, i) → ∃ ss, (stealers ++ more)[r]? = some (some ss))
    (ho : ∀ (r v : ℕ) (ss : List ℕ) (d : ℕ), more[r]? = some (some ss) → ss[v]? = some d →
      (some d, some (stealers.length + r, v)) ∈ new) :
    Deeded (n + m) (badges ++ new) (stealers ++ more) := by
  refine ⟨?_, ?_, ?_, ?_, ?_⟩
  · intro b hmem d hd
    rcases mem_append.mp hmem with hmem | hmem
    · have := h.bound b hmem d hd
      omega
    · exact (hb b hmem d hd).2
  · rw [filterMap_append]
    refine nodup_append.mpr ⟨h.nodup, hn, ?_⟩
    intro x hx y hy he
    obtain ⟨b, hbm, hbx⟩ := mem_filterMap.mp hx
    obtain ⟨c, hcm, hcy⟩ := mem_filterMap.mp hy
    have h1 := h.bound b hbm x hbx
    have h2 := (hb c hcm y hcy).1
    omega
  · intro b hmem
    rcases mem_append.mp hmem with hmem | hmem
    · exact h.serves b hmem
    · exact hs b hmem
  · intro b hmem r i hr
    rcases mem_append.mp hmem with hmem | hmem
    · obtain ⟨ss, hss⟩ := h.multi b hmem r i hr
      exact ⟨ss, by rw [getElem?_append_left (lt_of_some hss), hss]⟩
    · exact hm b hmem r i hr
  · intro r v ss d hr hv
    rcases Nat.lt_or_ge r stealers.length with hlt | hge
    · rw [getElem?_append_left hlt] at hr
      exact mem_append_left _ (h.owner r v ss d hr hv)
    · rw [getElem?_append_right hge] at hr
      have hmem := ho (r - stealers.length) v ss d hr hv
      rw [Nat.add_sub_cancel' hge] at hmem
      exact mem_append_right _ hmem

/-! ## What the moves leave alone -/

def World.SameDeeds (w w' : World τ) : Prop :=
  w'.deques.length = w.deques.length ∧ w'.badges = w.badges ∧ w'.stealers = w.stealers

theorem World.SameDeeds.deeds (h : w.SameDeeds w') (hd : w.Deeds) : w'.Deeds := by
  obtain ⟨h1, h2, h3⟩ := h
  rw [World.Deeds, h1, h2, h3]
  exact hd

theorem World.SameDeeds.trans {w'' : World τ} (h : w.SameDeeds w') (h' : w'.SameDeeds w'') :
    w.SameDeeds w'' :=
  ⟨h'.1.trans h.1, h'.2.1.trans h.2.1, h'.2.2.trans h.2.2⟩

theorem sameDeeds_setDeque (w : World τ) (d : ℕ) (l : List τ) : w.SameDeeds (w.setDeque d l) :=
  ⟨length_set, rfl, rfl⟩

theorem sameDeeds_setShared (h : w.runtimes[r]? = some sh)
    (sh' : Shared τ) (hs : sh'.localQueues.stealers = sh.localQueues.stealers) :
    w.SameDeeds (w.setShared r sh') := by
  refine ⟨rfl, rfl, ?_⟩
  rw [World.stealers, World.setShared, map_set]
  exact Pool.set_eq_self (by rw [getElem?_map, h, map_some, hs])

theorem sameDeeds_setThread (h : w.threads[i]? = some t)
    (t' : Thread) (hb : t'.badge = t.badge) : w.SameDeeds (w.setThread i t') := by
  refine ⟨rfl, ?_, rfl⟩
  rw [World.badges, World.setThread, map_set]
  exact Pool.set_eq_self (by rw [getElem?_map, h, map_some, hb])

theorem sameDeeds_schedule (h : schedule w t r task = some w') : w.SameDeeds w' := by
  cases schedules_of_schedule h with
  | queue hr hq => exact sameDeeds_setShared hr _ (by rw [hq]; rfl)
  | deque hd => exact sameDeeds_setDeque w _ _
  | injector hr => exact sameDeeds_setShared hr _ rfl

theorem sameDeeds_popLocal (h : popLocal w d = some (task, w')) : w.SameDeeds w' := by
  unfold popLocal at h
  split at h
  · cases h
  · obtain ⟨-, rfl⟩ := pair_of_some h
    exact sameDeeds_setDeque w d _

theorem sameDeeds_stealFromSibling {s : ℕ}
    (h : stealFromSibling w s d batch = some (task, w')) : w.SameDeeds w' := by
  unfold stealFromSibling at h
  split at h
  · exact sameDeeds_popLocal h
  · split at h
    · cases h
    · obtain ⟨-, rfl⟩ := pair_of_some h
      exact (sameDeeds_setDeque w _ _).trans (sameDeeds_setDeque _ _ _)

theorem sameDeeds_nextTask (h : nextTask w t r idx batch = some (task, w')) : w.SameDeeds w' := by
  obtain ⟨sh, hr, h⟩ := bind_eq_some_iff.mp h
  split at h
  next x queue hq =>
    obtain ⟨-, rfl⟩ := pair_of_some h
    exact sameDeeds_setShared hr _ (by rw [hq]; rfl)
  · split at h
    · cases h
    · obtain ⟨-, rfl⟩ := pair_of_some h
      exact sameDeeds_setShared hr _ rfl
  · obtain ⟨d, -, h⟩ := bind_eq_some_iff.mp h
    rcases or_eq_some_iff.mp h with h | ⟨-, h⟩
    · exact sameDeeds_popLocal h
    · rcases or_eq_some_iff.mp h with h | ⟨-, h⟩
      · unfold stealFromInjector at h
        split at h
        · cases h
        · obtain ⟨-, rfl⟩ := pair_of_some h
          refine World.SameDeeds.trans ?_ (sameDeeds_setDeque _ _ _)
          exact sameDeeds_setShared hr _ rfl
      · obtain ⟨v, -, hv⟩ := exists_of_findSome?_eq_some h
        obtain ⟨s, -, hs⟩ := bind_eq_some_iff.mp hv
        exact sameDeeds_stealFromSibling hs

/-! ## The owners along a run -/

theorem deeds_buildMultiThread (h : w.Deeds) (workers : ℕ) :
    (buildMultiThread w workers).Deeds := by
  have key : Deeded (w.deques.length + workers)
      (w.badges ++ (List.range workers).map fun idx =>
        (some (w.deques.length + idx), some (w.stealers.length, idx)))
      (w.stealers ++ [some (List.range' w.deques.length workers)]) := by
    refine Deeded.append h ?_ ?_ ?_ ?_ ?_
    · intro b hb d hd
      obtain ⟨idx, hidx, rfl⟩ := mem_map.mp hb
      have hlt := mem_range.mp hidx
      have he : w.deques.length + idx = d := some.inj hd
      omega
    · rw [filterMap_map]
      have hf : (List.range workers).filterMap (Prod.fst ∘ fun idx =>
          ((some (w.deques.length + idx), some (w.stealers.length, idx)) :
            Option ℕ × Option (ℕ × ℕ))) = (List.range workers).map (w.deques.length + ·) := by
        rw [← filterMap_eq_map]
        rfl
      rw [hf]
      exact List.Nodup.map (fun a b hab => Nat.add_left_cancel hab) nodup_range
    · intro b hb
      obtain ⟨idx, -, rfl⟩ := mem_map.mp hb
      rfl
    · intro b hb r i hr
      obtain ⟨idx, -, rfl⟩ := mem_map.mp hb
      obtain ⟨rfl, -⟩ := pair_of_some hr
      exact ⟨_, getElem?_concat_length⟩
    · intro r v ss d hr hv
      rw [getElem?_singleton, ite_none_right_eq_some] at hr
      obtain ⟨rfl, hss⟩ := hr
      cases some.inj hss
      obtain ⟨hlt, he⟩ := List.getElem?_eq_some_iff.mp hv
      rw [length_range'] at hlt
      rw [getElem_range'] at he
      exact mem_map.mpr ⟨v, mem_range.mpr hlt, by simp [← he]⟩
  have hn : (buildMultiThread w workers).deques.length = w.deques.length + workers := by
    rw [buildMultiThread, length_append, length_replicate]
  have hb : (buildMultiThread w workers).badges = w.badges ++ (List.range workers).map fun idx =>
      (some (w.deques.length + idx), some (w.stealers.length, idx)) := by
    rw [World.badges, buildMultiThread, List.map_append, List.map_map, World.stealers, length_map]
    rfl
  have hs : (buildMultiThread w workers).stealers =
      w.stealers ++ [some (List.range' w.deques.length workers)] := by
    rw [World.stealers, buildMultiThread, map_append]
    rfl
  rw [World.Deeds, hn, hb, hs]
  exact key

theorem deeds_blockInPlace (h : w.Deeds)
    (hi : w.threads[i]? = some t) (hs : blockInPlace w i t = some w') : w'.Deeds := by
  obtain ⟨r, -, hs⟩ := bind_eq_some_iff.mp hs
  split at hs
  next ss inj hr =>
    obtain ⟨idx, -, rfl⟩ := map_eq_some_iff.mp hs
    split
    · exact h
    · have hsame := sameDeeds_setThread hi { t with retired := true } rfl
      have key : Deeded (w.deques.length + 1)
          ((w.setThread i { t with retired := true }).badges ++
            [(some w.deques.length, some (r, idx))])
          ((w.setThread i { t with retired := true }).stealers ++ []) :=
        Deeded.append (hsame.deeds h) ?_ (by simp) (by simp) ?_ (by simp)
      · rw [append_nil] at key
        have hb : World.badges
            { w with
              deques := w.deques ++ [[]]
              threads := w.threads.set i { t with retired := true } ++
                [Thread.worker r idx w.deques.length] } =
            (w.setThread i { t with retired := true }).badges ++
              [(some w.deques.length, some (r, idx))] := by
          rw [World.badges, map_append]
          rfl
        rw [World.Deeds, hb, length_append]
        exact key
      · intro b hb d hd
        rw [mem_singleton] at hb
        subst hb
        have he : w.deques.length = d := some.inj hd
        change w.deques.length ≤ d ∧ d < w.deques.length + 1
        omega
      · intro b hb r' i' hr'
        rw [mem_singleton] at hb
        subst hb
        obtain ⟨rfl, -⟩ := pair_of_some hr'
        refine ⟨ss, ?_⟩
        rw [append_nil, World.stealers, getElem?_map]
        change Option.map _ w.runtimes[r]? = _
        rw [hr]
        rfl
  · cases hs

theorem badge_leaveBlockOn {t' : Thread} (h : leaveBlockOn t = some t') : t'.badge = t.badge := by
  unfold leaveBlockOn at h
  split at h
  · cases h
  · cases h
    rfl
  · cases h
    rfl

theorem deeds_threadStep (h : w.Deeds)
    (hi : w.threads[i]? = some t) (hs : threadStep w i t e = some w') : w'.Deeds := by
  cases e with
  | blockOn j r =>
    obtain ⟨sh, -, rfl⟩ := map_eq_some_iff.mp hs
    refine (sameDeeds_setThread hi _ ?_).deeds h
    unfold enterBlockOn
    split <;> rfl
  | blockOnReturn j =>
    obtain ⟨t', ht', rfl⟩ := map_eq_some_iff.mp hs
    exact (sameDeeds_setThread hi _ (badge_leaveBlockOn ht')).deeds h
  | enter j r =>
    obtain ⟨sh, -, rfl⟩ := map_eq_some_iff.mp hs
    refine World.SameDeeds.deeds ?_ h
    exact sameDeeds_setThread hi _ rfl
  | dropGuard j k =>
    obtain ⟨previous, -, rfl⟩ := map_eq_some_iff.mp hs
    refine World.SameDeeds.deeds ?_ h
    exact sameDeeds_setThread hi _ rfl
  | blockInPlace j => exact deeds_blockInPlace h hi hs
  | retire j =>
    change retire w i t = some w' at hs
    unfold retire at hs
    split at hs
    next r idx d _ _ =>
      obtain ⟨sh, hr, -, rfl⟩ := bind_guard_eq_some.mp hs
      refine World.SameDeeds.deeds ?_ h
      have h1 := sameDeeds_setShared hr { sh with injector := sh.injector ++ w.deque d } rfl
      have h2 := h1.trans (sameDeeds_setDeque _ d [])
      have hi' : ((w.setShared r { sh with
          injector := sh.injector ++ w.deque d }).setDeque d []).threads[i]? = some t := hi
      exact h2.trans (sameDeeds_setThread hi' { t with exited := true } rfl)
    · cases hs
  | schedule j r task => exact (sameDeeds_schedule hs).deeds h
  | workerNext j batch =>
    obtain ⟨s, -, hs⟩ := bind_eq_some_iff.mp hs
    obtain ⟨-, hs⟩ := ite_none_right_eq_some.mp hs
    obtain ⟨⟨task, w''⟩, hn, rfl⟩ := map_eq_some_iff.mp hs
    exact (sameDeeds_nextTask hn).deeds h
  | blockOnNext j =>
    rw [threadStep] at hs
    split at hs
    · obtain ⟨⟨task, w''⟩, hn, rfl⟩ := map_eq_some_iff.mp hs
      exact (sameDeeds_nextTask hn).deeds h
    · cases hs
  | _ => simp [threadStep] at hs

theorem step_cases (h : w.step e = some w') :
    (w' = { w with runtimes := w.runtimes ++ [⟨.currentThread [], []⟩] }) ∨
      (∃ n, w' = buildMultiThread w (n + 1)) ∨
      (w' = { w with threads := w.threads ++ [.plain] }) ∨
      ∃ i t, w.threads[i]? = some t ∧ t.exited = false ∧ threadStep w i t e = some w' := by
  have thread : ∀ i, e.actor = some i →
      ∃ i t, w.threads[i]? = some t ∧ t.exited = false ∧ threadStep w i t e = some w' := by
    intro i hi
    rw [World.step_of_actor hi] at h
    obtain ⟨t, ht, h⟩ := bind_eq_some_iff.mp h
    obtain ⟨hlive, h⟩ := ite_none_left_eq_some.mp h
    exact ⟨i, t, ht, Bool.not_eq_true _ ▸ hlive, h⟩
  cases e with
  | buildCurrentThread => exact .inl (some.inj h).symm
  | buildMultiThread n => exact .inr (.inl ⟨n, (some.inj h).symm⟩)
  | startThread => exact .inr (.inr (.inl (some.inj h).symm))
  | _ => exact .inr (.inr (.inr (thread _ rfl)))

theorem deeds_step (h : w.Deeds) (hs : w.step e = some w') : w'.Deeds := by
  rcases step_cases hs with rfl | ⟨n, rfl⟩ | rfl | ⟨i, t, hi, -, hs⟩
  · have key : Deeded (w.deques.length + 0) (w.badges ++ []) (w.stealers ++ [none]) :=
      Deeded.append h (by simp) (by simp) (by simp) (by simp) ?_
    · rw [append_nil] at key
      have hst : World.stealers
          { w with runtimes := w.runtimes ++ [⟨.currentThread [], []⟩] } =
            w.stealers ++ [none] := by
        rw [World.stealers, map_append]
        rfl
      rw [World.Deeds, hst]
      exact key
    · intro r v ss d hr
      cases r <;> simp at hr
  · exact deeds_buildMultiThread h (n + 1)
  · have key : Deeded (w.deques.length + 0) (w.badges ++ [(none, none)]) (w.stealers ++ []) :=
      Deeded.append h (by simp) (by simp) (by simp) (by simp) (by simp)
    rw [append_nil] at key
    have hbd : World.badges { w with threads := w.threads ++ [.plain] } =
        w.badges ++ [(none, none)] := by
      rw [World.badges, map_append]
      rfl
    rw [World.Deeds, hbd]
    exact key
  · exact deeds_threadStep h hi hs

theorem deeds_of_reachable (h : (process τ).Reachable w) : w.Deeds := by
  refine System.inv_of_reachable (I := World.Deeds) ⟨?_, ?_, ?_, ?_, ?_⟩
    (fun w e w' hI hs => deeds_step hI hs) h
  · intro b hb d hd
    have hb' : b = (none, none) := by simpa [World.badges, process, Thread.badge, Thread.plain]
      using hb
    simp [hb'] at hd
  · simp [World.badges, process, Thread.badge, Thread.plain]
  · simp [World.badges, process, Thread.badge, Thread.plain]
  · intro b hb r i hr
    have hb' : b = (none, none) := by simpa [World.badges, process, Thread.badge, Thread.plain]
      using hb
    simp [hb'] at hr
  · intro r v ss d hr
    simp [World.stealers, process] at hr

/-! ## Reaching the runtime -/

/-- A thread that will call `next_task` for runtime `r` again, at index `idx`. -/
def Thread.Works (u : Thread) (r idx : ℕ) : Prop :=
  u.serves = some (r, idx) ∧ u.retired = false ∧ u.exited = false

theorem contents_setDeque_of_ne
    (h : q ≠ .deque d) : (w.setDeque d l).contents q = w.contents q := by
  cases q with
  | single r | injector r => rfl
  | deque e =>
    have hne : d ≠ e := fun he => h (by rw [he])
    change (w.deques.set d l).getD e [] = w.deques.getD e []
    rw [getD_eq_getElem?_getD, getElem?_set, if_neg hne, getD_eq_getElem?_getD]

theorem contents_setDeque_self (h : d < w.deques.length) :
    (w.setDeque d l).contents (.deque d) = l := by
  change (w.deques.set d l).getD d [] = l
  rw [getD_eq_getElem?_getD, getElem?_set, if_pos rfl, if_pos h]
  rfl

namespace World.Deeds

variable {w : World τ}

theorem localQueue_of_serves (h : w.Deeds) (ht : t ∈ w.threads) {idx : ℕ}
    (hs : t.serves = some (r, idx)) : ∃ d, t.localQueue = some d := by
  have hb := h.serves t.badge (mem_map.mpr ⟨t, ht, rfl⟩)
  have hl : t.localQueue.isSome := by
    change t.localQueue.isSome = t.serves.isSome at hb
    rw [hb, hs]
    rfl
  exact isSome_iff_exists.mp hl

theorem eq_of_localQueue (h : w.Deeds) {u : Thread} (ht : t ∈ w.threads) (hu : u ∈ w.threads)
    (hd : t.localQueue = some d) (hd' : u.localQueue = some d) : t = u := by
  have hn := h.nodup
  rw [World.badges, filterMap_map] at hn
  exact eq_of_nodup_filterMap hn ht hu hd hd'

end World.Deeds

theorem mem_nextTaskQueues {u : Thread} {ss : List ℕ}
    (hr : w.runtimes[r]? = some sh) (hq : sh.localQueues = .multiThread ss)
    (hd : u.localQueue = some d) : q ∈ nextTaskQueues w u r idx ↔ q = .deque d ∨ q = .injector r ∨
      ∃ v s, (v < ss.length ∧ v ≠ idx % ss.length) ∧ ss[v]? = some s ∧ q = .deque s := by
  simp only [nextTaskQueues, hr, hq, hd, mem_cons, List.mem_map, mem_filterMap, mem_victims]
  constructor
  · rintro (h | h | ⟨s, ⟨v, hv, hs⟩, rfl⟩)
    · exact .inl h
    · exact .inr (.inl h)
    · exact .inr (.inr ⟨v, s, hv, hs, rfl⟩)
  · rintro (h | h | ⟨v, s, hv, hs, rfl⟩)
    · exact .inl h
    · exact .inr (.inl h)
    · exact .inr (.inr ⟨s, ⟨v, hv, hs⟩, rfl⟩)

section MultiThread

variable {w : World τ} {t : Thread} {r : ℕ} {sh : Shared τ} {ss : List ℕ} {task : τ}

end MultiThread

end RustyTokio.Runtime

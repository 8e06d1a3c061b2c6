import RustyTokio.Runtime.Schedule

/-!
# What the run queues hold

A move between queues must neither lose a task nor make two of it.  Weights say so at once for every
way of counting: give each task a weight, and the weight of a process is the sum over all its
queues.
-/

namespace RustyTokio.Runtime

open Transition List Option Pool

variable {τ : Type} {g : τ → ℕ} {w w' : World τ} {d : ℕ} {sh : Shared τ}

/-! ## One queue -/

theorem getElem?_deque (hd : d < w.deques.length) : w.deques[d]? = some (w.deque d) := by
  rw [World.deque, getD_eq_getElem?_getD, getElem?_eq_getElem hd]
  rfl

theorem deque_setDeque_self (hd : d < w.deques.length) (l : List τ) :
    (w.setDeque d l).deque d = l :=
  contents_setDeque_self hd

theorem deque_setDeque_of_ne {e : ℕ} (hde : d ≠ e) (l : List τ) :
    (w.setDeque d l).deque e = w.deque e :=
  contents_setDeque_of_ne (q := .deque e) fun h => hde (Queue.deque.inj h).symm

theorem lt_of_deque_eq_cons {x : τ} {l : List τ} (h : w.deque d = x :: l) :
    d < w.deques.length := by
  by_contra hd
  rw [World.deque, getD_eq_getElem?_getD, getElem?_eq_none (Nat.le_of_not_lt hd)] at h
  cases h

/-! ## A call of `next_task` -/

/-- Where a worker of multi-thread runtime `r` with deque `d` finds a task: in its own deque, in
the injector, or in the deque of one of its siblings.  A steal moves a batch to the worker's own
deque. -/
inductive Fetches (w : World τ) (r d batch : ℕ) (siblings : List ℕ) : τ → World τ → Prop where
  | own {x rest} (hd : w.deque d = x :: rest) :
      Fetches w r d batch siblings x (w.setDeque d rest)
  | injector {x rest sh} (hr : w.runtimes[r]? = some sh)
      (hi : sh.injector = x :: rest) :
      Fetches w r d batch siblings x
        ((w.setShared r { sh with injector := rest.drop batch }).setDeque d
          (w.deque d ++ rest.take batch))
  | sibling {x rest s} (hs : s ∈ siblings) (hne : s ≠ d)
      (hd : w.deque s = x :: rest) :
      Fetches w r d batch siblings x
        ((w.setDeque s (rest.drop batch)).setDeque d (w.deque d ++ rest.take batch))

section Fetches

variable {r d batch : ℕ} {ss : List ℕ} {x : τ} {sh : Shared τ} {s idx : ℕ} {stealers : List ℕ}

theorem fetches_of_popLocal (h : popLocal w d = some (x, w')) : Fetches w r d batch ss x w' := by
  rw [popLocal] at h
  split at h
  · cases h
  next task rest hd =>
    cases h
    exact .own hd

theorem fetches_of_stealFromInjector (hr : w.runtimes[r]? = some sh)
    (h : stealFromInjector w r sh d batch = some (x, w')) : Fetches w r d batch ss x w' := by
  rw [stealFromInjector] at h
  split at h
  · cases h
  next task rest hi =>
    cases h
    exact .injector hr hi

theorem fetches_of_stealFromSibling (hs : s ∈ ss)
    (h : stealFromSibling w s d batch = some (x, w')) : Fetches w r d batch ss x w' := by
  rw [stealFromSibling] at h
  split at h
  · exact fetches_of_popLocal h
  next hne =>
    split at h
    · cases h
    next task rest hd =>
      cases h
      exact .sibling hs hne hd

def siblings (stealers : List ℕ) (idx : ℕ) : List ℕ :=
  (victims idx stealers.length).filterMap fun v => stealers[v]?

theorem mem_siblings : s ∈ siblings stealers idx ↔
      ∃ v, (v < stealers.length ∧ v ≠ idx % stealers.length) ∧ stealers[v]? = some s := by
  simp only [siblings, mem_filterMap, mem_victims]

theorem fetches_of_nextTask {t : Thread}
    (hr : w.runtimes[r]? = some sh) (hq : sh.localQueues = .multiThread stealers)
    (hd : t.localQueue = some d) (h : nextTask w t r idx batch = some (x, w')) :
    Fetches w r d batch (siblings stealers idx) x w' := by
  simp only [nextTask, hr, hq, hd, Option.bind_some] at h
  rcases or_eq_some_iff.mp h with h | ⟨-, h⟩
  · exact fetches_of_popLocal h
  · rcases or_eq_some_iff.mp h with h | ⟨-, h⟩
    · exact fetches_of_stealFromInjector hr h
    · obtain ⟨v, hv, hx⟩ := exists_of_findSome?_eq_some h
      obtain ⟨s, hs, hx⟩ := bind_eq_some_iff.mp hx
      exact fetches_of_stealFromSibling (mem_filterMap.mpr ⟨v, hv, hs⟩) hx

theorem sameDeeds_of_fetches (h : Fetches w r d batch ss x w') : w.SameDeeds w' := by
  cases h with
  | own hd => exact sameDeeds_setDeque w d _
  | injector hr hi =>
    refine World.SameDeeds.trans ?_ (sameDeeds_setDeque _ _ _)
    exact sameDeeds_setShared hr _ rfl
  | sibling hs hne hd => exact (sameDeeds_setDeque w _ _).trans (sameDeeds_setDeque _ _ _)

theorem threads_of_fetches (h : Fetches w r d batch ss x w') : w'.threads = w.threads := by
  cases h <;> rfl

theorem deque_eq_nil_of_fetches {e : ℕ} (hne : d ≠ e) (he : w.deque e = [])
    (h : Fetches w r d batch ss x w') : w'.deque e = [] := by
  cases h with
  | own hd => rw [deque_setDeque_of_ne hne, he]
  | injector hr hi =>
    rw [deque_setDeque_of_ne hne]
    exact he
  | @sibling rest s hs hsd hd =>
    -- there was something in the deque that was stolen from
    have hse : s ≠ e := by
      rintro rfl
      cases hd.symm.trans he
    rw [deque_setDeque_of_ne hne, deque_setDeque_of_ne hse, he]

end Fetches

/-! ## A call of `schedule` -/

section Schedule

variable {t : Thread} {r : ℕ} {x : τ}

theorem threads_schedule (h : schedule w t r x = some w') : w'.threads = w.threads := by
  cases schedules_of_schedule h <;> rfl

theorem deque_schedule_of_ne {e : ℕ} (hne : t.localQueue ≠ some e)
    (h : schedule w t r x = some w') : w'.deque e = w.deque e := by
  cases schedules_of_schedule h with
  | @deque d hd =>
    have hde : d ≠ e := by
      rintro rfl
      exact hne hd
    exact deque_setDeque_of_ne hde _
  | _ => rfl

end Schedule

/-! ## Weights -/

def Shared.tasks (sh : Shared τ) : List τ :=
  match sh.localQueues with
  | .currentThread queue => queue ++ sh.injector
  | .multiThread _ => sh.injector

def World.weigh (g : τ → ℕ) (w : World τ) : ℕ :=
  Pool.total (fun sh => Pool.total g sh.tasks) w.runtimes + Pool.total (Pool.total g) w.deques

theorem weigh_setDeque (hd : d < w.deques.length) (l : List τ) :
    (w.setDeque d l).weigh g + Pool.total g (w.deque d) = w.weigh g + Pool.total g l := by
  have hset := total_set (f := Pool.total g) l (getElem?_deque hd)
  change Pool.total _ w.runtimes + Pool.total _ (w.deques.set d l) + _ =
    Pool.total _ w.runtimes + Pool.total _ w.deques + _
  omega

theorem weigh_setShared {r : ℕ} (hr : w.runtimes[r]? = some sh) (sh' : Shared τ) :
    (w.setShared r sh').weigh g + Pool.total g sh.tasks = w.weigh g + Pool.total g sh'.tasks := by
  have hset := total_set (f := fun sh => Pool.total g sh.tasks) sh' hr
  change Pool.total _ (w.runtimes.set r sh') + Pool.total _ w.deques + _ =
    Pool.total _ w.runtimes + Pool.total _ w.deques + _
  omega

theorem weigh_setInjector {r : ℕ} (hr : w.runtimes[r]? = some sh) (injector : List τ) :
    (w.setShared r { sh with injector := injector }).weigh g + Pool.total g sh.injector =
      w.weigh g + Pool.total g injector := by
  have hset := weigh_setShared (g := g) hr { sh with injector := injector }
  obtain ⟨queues, old⟩ := sh
  cases queues with
  | currentThread queue =>
    simp only [Shared.tasks, total_append_list] at hset ⊢
    omega
  | multiThread stealers => exact hset

theorem weigh_of_fetches {r batch : ℕ} {ss : List ℕ} {x : τ} (hlt : d < w.deques.length)
    (h : Fetches w r d batch ss x w') : w'.weigh g + g x = w.weigh g := by
  cases h with
  | @own rest hd =>
    have hset := weigh_setDeque (g := g) hlt rest
    rw [hd, total_cons] at hset
    omega
  | @injector rest sh hr hi =>
    have hfrom := weigh_setInjector (g := g) hr (rest.drop batch)
    have hto := weigh_setDeque (g := g)
      (w := w.setShared r { sh with injector := rest.drop batch }) (d := d) hlt
      (w.deque d ++ rest.take batch)
    have hrest := congrArg (Pool.total g) (take_append_drop batch rest)
    rw [hi, total_cons] at hfrom
    rw [total_append_list] at hto hrest
    change _ + Pool.total g (w.deque d) = _ + (Pool.total g (w.deque d) + _) at hto
    omega
  | @sibling rest s hs hne hd =>
    have hlength : (w.setDeque s (rest.drop batch)).deques.length = w.deques.length :=
      length_set
    have hfrom := weigh_setDeque (g := g) (lt_of_deque_eq_cons hd) (rest.drop batch)
    have hto := weigh_setDeque (g := g) (w := w.setDeque s (rest.drop batch)) (d := d)
      (hlength.symm ▸ hlt) (w.deque d ++ rest.take batch)
    have hrest := congrArg (Pool.total g) (take_append_drop batch rest)
    rw [hd, total_cons] at hfrom
    rw [deque_setDeque_of_ne hne] at hto
    rw [total_append_list] at hto hrest
    omega

theorem weigh_schedule {t : Thread} {r : ℕ} {x : τ}
    (hd : ∀ d, t.localQueue = some d → d < w.deques.length)
    (h : schedule w t r x = some w') : w'.weigh g = w.weigh g + g x := by
  cases schedules_of_schedule h with
  | @queue sh queue hr hq =>
    have hset := weigh_setShared (g := g) hr
      { sh with localQueues := .currentThread (queue ++ [x]) }
    simp only [Shared.tasks, hq] at hset
    rw [total_append_list, total_append_list, total_append] at hset
    omega
  | @deque d hlocal =>
    have hset := weigh_setDeque (g := g) (hd d hlocal) (w.deque d ++ [x])
    rw [total_append] at hset
    omega
  | @injector sh hr =>
    have hset := weigh_setInjector (g := g) hr (sh.injector ++ [x])
    rw [total_append] at hset
    omega

end RustyTokio.Runtime

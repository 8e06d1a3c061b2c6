import RustyTokio.Runtime.Holdings

/-!
# The workers of one runtime, step by step

`run`, `block_in_place` of `src/runtime/worker.rs` and `Shared::next_task` of `src/runtime/mod.rs`,
for one multi-thread runtime that is not shut down.
-/

namespace RustyTokio.Runtime

open Transition List Option

/-- Where a thread is: outside, in `next_task`, parked, in a task with its `block_in_place`
closures, or handing its deque back. -/
inductive Pc where
  | outside
  | next
  | injector
  | sibling (offset : ℕ)
  | park
  | running (task closures : ℕ)
  | check
  | drain
  | requeue (task : ℕ)
  | gone
  deriving DecidableEq

namespace Pc

def calls : Pc → Bool
  | .outside | .running _ _ => true
  | _ => false

def inLoop : Pc → Bool
  | .outside | .gone => false
  | _ => true

def leaving : Pc → Bool
  | .running _ (_ + 1) | .drain | .requeue _ | .gone => true
  | _ => false

def hand (g : ℕ → ℕ) : Pc → ℕ
  | .requeue task => g task
  | _ => 0

end Pc

/-- The runtime, where its threads are, and the tasks issued so far. -/
structure Crew where
  world : World ℕ
  pcs : List Pc
  issued : ℕ
  /-- What `next_task` returned, each time with the thread it returned it to. -/
  handed : List (ℕ × ℕ)
  deriving DecidableEq

namespace Crew

inductive Label where
  | startThread
  | schedule (i : ℕ)
  | advance (i batch : ℕ)
  | blockInPlace (i : ℕ)
  | unblock (i : ℕ)
  deriving DecidableEq

def move (c : Crew) (i : ℕ) (pc : Pc) : Crew := { c with pcs := c.pcs.set i pc }

def hand (c : Crew) (i task : ℕ) (w : World ℕ) : Crew :=
  { c with
    world := w
    pcs := c.pcs.set i (.running task 0)
    handed := c.handed ++ [(i, task)] }

/-- The next step of a worker. -/
def advance (c : Crew) (i : ℕ) (t : Thread) (r idx d batch : ℕ) : Pc → Option Crew
  | .next =>
    match popLocal c.world d with
    | some (task, w) => some (c.hand i task w)
    | none => some (c.move i .injector)
  | .injector =>
    c.world.runtimes[r]?.bind fun sh =>
      match stealFromInjector c.world r sh d batch with
      | some (task, w) => some (c.hand i task w)
      | none => some (c.move i (.sibling 1))
  | .sibling offset =>
    match c.world.runtimes[r]? with
    | some ⟨.multiThread stealers, _⟩ =>
      if offset < stealers.length then
        match stealers[(idx + offset) % stealers.length]?.bind fun s =>
          stealFromSibling c.world s d batch with
        | some (task, w) => some (c.hand i task w)
        | none => some (c.move i (.sibling (offset + 1)))
      else some (c.move i .park)
    | _ => none
  | .park => some (c.move i .check)
  | .running _ 0 => some (c.move i .check)
  | .check => some (c.move i (if t.retired then .drain else .next))
  | .drain =>
    match popLocal c.world d with
    | some (task, w) => some { c with world := w, pcs := c.pcs.set i (.requeue task) }
    | none =>
      some
        { c with
          world := c.world.setThread i { t with exited := true }
          pcs := c.pcs.set i .gone }
  | .requeue task =>
    c.world.runtimes[r]?.map fun sh =>
      { c with
        world := c.world.setShared r { sh with injector := sh.injector ++ [task] }
        pcs := c.pcs.set i .drain }
  | _ => none

def block (c : Crew) (i : ℕ) (t : Thread) (task k : ℕ) : Option Crew :=
  (blockInPlace c.world i t).map fun w =>
    { c with
      world := w
      pcs := c.pcs.set i (.running task (k + 1)) ++ if t.retired then [] else [.next] }

def threadStep (c : Crew) (i : ℕ) (t : Thread) (pc : Pc) : Label → Option Crew
  | .schedule _ =>
    if pc.calls then
      (schedule c.world t 0 c.issued).map fun w => { c with world := w, issued := c.issued + 1 }
    else none
  | .advance _ batch =>
    match t.serves, t.localQueue with
    | some (r, idx), some d => c.advance i t r idx d batch pc
    | _, _ => none
  | .blockInPlace _ =>
    match pc with
    | .running task k => c.block i t task k
    | _ => none
  | .unblock _ =>
    match pc with
    | .running task (k + 1) => some (c.move i (.running task k))
    | _ => none
  | .startThread => none

def Label.actor : Label → Option ℕ
  | .startThread => none
  | .schedule i => some i
  | .advance i _ => some i
  | .blockInPlace i => some i
  | .unblock i => some i

def step (c : Crew) (l : Label) : Option Crew :=
  match l.actor with
  | none =>
    some
      { c with
        world := { c.world with threads := c.world.threads ++ [.plain] }
        pcs := c.pcs ++ [.outside] }
  | some i =>
    match c.world.threads[i]?, c.pcs[i]? with
    | some t, some pc => c.threadStep i t pc l
    | _, _ => none

end Crew

def crew (n : ℕ) : System Crew Crew.Label where
  init := ⟨buildMultiThread ⟨[], [], [.plain]⟩ n, .outside :: List.replicate n .next, 0, []⟩
  step := Crew.step

namespace Crew

/-! ## What a step can do -/

inductive Moves (t : Thread) : Pc → Pc → Prop where
  | toInjector : Moves t .next .injector
  | toSiblings : Moves t .injector (.sibling 1)
  | onward {offset} : Moves t (.sibling offset) (.sibling (offset + 1))
  | toPark {offset} : Moves t (.sibling offset) .park
  | parked : Moves t .park .check
  | ran {task} : Moves t (.running task 0) .check
  | retires (h : t.retired) : Moves t .check .drain
  | again (h : t.retired = false) : Moves t .check .next

/-- All that a step can do. -/
inductive Steps (c : Crew) : Label → Crew → Prop where
  | startThread :
      Steps c .startThread
        { c with
          world := { c.world with threads := c.world.threads ++ [.plain] }
          pcs := c.pcs ++ [.outside] }
  | schedule {i t pc w} (ht : c.world.threads[i]? = some t) (hpc : c.pcs[i]? = some pc)
      (hcalls : pc.calls) (h : Runtime.schedule c.world t 0 c.issued = some w) :
      Steps c (.schedule i) { c with world := w, issued := c.issued + 1 }
  | fetch {i batch t pc r d ss task w} (ht : c.world.threads[i]? = some t)
      (hpc : c.pcs[i]? = some pc) (hin : pc.inLoop) (hhand : ∀ g, pc.hand g = 0)
      (hd : t.localQueue = some d) (h : Fetches c.world r d batch ss task w) :
      Steps c (.advance i batch) (c.hand i task w)
  | move {i batch t pc pc'} (ht : c.world.threads[i]? = some t) (hpc : c.pcs[i]? = some pc)
      (h : Moves t pc pc') : Steps c (.advance i batch) (c.move i pc')
  | unqueue {i batch t d task rest} (ht : c.world.threads[i]? = some t)
      (hpc : c.pcs[i]? = some .drain) (hd : t.localQueue = some d)
      (h : c.world.deque d = task :: rest) :
      Steps c (.advance i batch)
        { c with world := c.world.setDeque d rest, pcs := c.pcs.set i (.requeue task) }
  | exit {i batch t d} (ht : c.world.threads[i]? = some t) (hpc : c.pcs[i]? = some .drain)
      (hd : t.localQueue = some d) (h : c.world.deque d = []) :
      Steps c (.advance i batch)
        { c with
          world := c.world.setThread i { t with exited := true }
          pcs := c.pcs.set i .gone }
  | requeue {i batch t task r sh} (ht : c.world.threads[i]? = some t)
      (hpc : c.pcs[i]? = some (.requeue task)) (hr : c.world.runtimes[r]? = some sh) :
      Steps c (.advance i batch)
        { c with
          world := c.world.setShared r { sh with injector := sh.injector ++ [task] }
          pcs := c.pcs.set i .drain }
  | nest {i t task k} (ht : c.world.threads[i]? = some t)
      (hpc : c.pcs[i]? = some (.running task k)) (hret : t.retired) :
      Steps c (.blockInPlace i) (c.move i (.running task (k + 1)))
  | replace {i t task k r idx} (ht : c.world.threads[i]? = some t)
      (hpc : c.pcs[i]? = some (.running task k)) (hret : t.retired = false)
      (hcur : t.current = some r) (hidx : t.workerIndex = some idx)
      (h : Runtime.blockInPlace c.world i t = some
          { c.world with
            deques := c.world.deques ++ [[]]
            threads := c.world.threads.set i { t with retired := true } ++
              [.worker r idx c.world.deques.length] }) :
      Steps c (.blockInPlace i)
        { c with
          world :=
            { c.world with
              deques := c.world.deques ++ [[]]
              threads := c.world.threads.set i { t with retired := true } ++
                [.worker r idx c.world.deques.length] }
          pcs := c.pcs.set i (.running task (k + 1)) ++ [.next] }
  | unblock {i t task k} (ht : c.world.threads[i]? = some t)
      (hpc : c.pcs[i]? = some (.running task (k + 1))) :
      Steps c (.unblock i) (c.move i (.running task k))

section Steps

variable {c c' : Crew} {i : ℕ} {t : Thread} {pc : Pc} {l : Label}

theorem steps_of_advance {r idx d batch : ℕ} (ht : c.world.threads[i]? = some t)
    (hpc : c.pcs[i]? = some pc) (hd : t.localQueue = some d)
    (h : c.advance i t r idx d batch pc = some c') : c.Steps (.advance i batch) c' := by
  cases pc with
  | outside | gone => simp [advance] at h
  | next =>
    simp only [advance] at h
    split at h
    next task w hp =>
      cases h
      have hf : Fetches c.world r d batch [] task w := fetches_of_popLocal hp
      exact .fetch ht hpc rfl (fun _ => rfl) hd hf
    · cases h
      exact .move ht hpc .toInjector
  | injector =>
    obtain ⟨sh, hr, h⟩ := bind_eq_some_iff.mp h
    split at h
    next task w hp =>
      cases h
      have hf : Fetches c.world r d batch [] task w := fetches_of_stealFromInjector hr hp
      exact .fetch ht hpc rfl (fun _ => rfl) hd hf
    · cases h
      exact .move ht hpc .toSiblings
  | sibling offset =>
    simp only [advance] at h
    split at h
    · split at h
      · split at h
        next task w hp =>
          obtain ⟨s, -, hs⟩ := bind_eq_some_iff.mp hp
          cases h
          have hf : Fetches c.world r d batch [s] task w :=
            fetches_of_stealFromSibling mem_cons_self hs
          exact .fetch ht hpc rfl (fun _ => rfl) hd hf
        · cases h
          exact .move ht hpc .onward
      · cases h
        exact .move ht hpc .toPark
    · cases h
  | park =>
    cases h
    exact .move ht hpc .parked
  | running task k =>
    cases k with
    | zero =>
      cases h
      exact .move ht hpc .ran
    | succ k => simp [advance] at h
  | check =>
    cases h
    refine .move ht hpc ?_
    split
    · exact .retires (by assumption)
    · exact .again (by simpa using ‹¬ t.retired›)
  | drain =>
    simp only [advance, popLocal] at h
    cases hdeque : c.world.deque d with
    | nil =>
      simp only [hdeque, some.injEq] at h
      rw [← h]
      exact .exit ht hpc hd hdeque
    | cons task rest =>
      simp only [hdeque, some.injEq] at h
      rw [← h]
      exact .unqueue ht hpc hd hdeque
  | requeue task =>
    obtain ⟨sh, hr, rfl⟩ := map_eq_some_iff.mp h
    exact .requeue ht hpc hr

theorem steps_of_block {task k : ℕ} (ht : c.world.threads[i]? = some t)
    (hpc : c.pcs[i]? = some (.running task k)) (h : c.block i t task k = some c') :
    c.Steps (.blockInPlace i) c' := by
  obtain ⟨w, hw, rfl⟩ := map_eq_some_iff.mp h
  have hb := hw
  obtain ⟨r, hcur, hw⟩ := bind_eq_some_iff.mp hw
  split at hw
  · obtain ⟨idx, hidx, rfl⟩ := map_eq_some_iff.mp hw
    by_cases hret : t.retired
    · rw [hret, if_pos rfl, if_pos rfl, append_nil]
      exact .nest ht hpc hret
    · rw [if_neg hret] at hb
      rw [if_neg hret, if_neg hret]
      exact .replace ht hpc (by simpa using hret) hcur hidx hb
  · cases hw

theorem exists_threadStep (hl : l.actor = some i) (h : c.step l = some c') :
    ∃ t pc, c.world.threads[i]? = some t ∧ c.pcs[i]? = some pc ∧
      c.threadStep i t pc l = some c' := by
  simp only [step, hl] at h
  split at h
  next t pc ht hpc => exact ⟨t, pc, ht, hpc, h⟩
  · cases h

theorem steps_of_step (h : c.step l = some c') : c.Steps l c' := by
  cases l with
  | startThread =>
    cases h
    exact .startThread
  | schedule j =>
    obtain ⟨t, pc, ht, hpc, h⟩ := exists_threadStep rfl h
    obtain ⟨hcalls, h⟩ := ite_none_right_eq_some.mp h
    obtain ⟨w, hw, rfl⟩ := map_eq_some_iff.mp h
    exact .schedule ht hpc hcalls hw
  | advance j batch =>
    obtain ⟨t, pc, ht, hpc, h⟩ := exists_threadStep rfl h
    simp only [threadStep] at h
    split at h
    next r idx d hs hd => exact steps_of_advance ht hpc hd h
    · cases h
  | blockInPlace j =>
    obtain ⟨t, pc, ht, hpc, h⟩ := exists_threadStep rfl h
    simp only [threadStep] at h
    split at h
    · exact steps_of_block ht hpc h
    · cases h
  | unblock j =>
    obtain ⟨t, pc, ht, hpc, h⟩ := exists_threadStep rfl h
    simp only [threadStep] at h
    split at h
    · cases h
      exact .unblock ht hpc
    · cases h

end Steps

/-! ## A call of `next_task` that nobody disturbs -/

section Undisturbed

variable {n i idx d batch : ℕ} {c : Crew} {t : Thread} {pc : Pc} {ss injector : List ℕ}

def returned (c : Crew) (i : ℕ) : Option (ℕ × World ℕ) → Crew
  | some (task, w) => c.hand i task w
  | none => c.move i .park

theorem returned_move (pc : Pc) (result : Option (ℕ × World ℕ)) :
    (c.move i pc).returned i result = c.returned i result := by
  cases result <;> simp only [returned, move, hand, set_set]

theorem getElem?_move (hpc : c.pcs[i]? = some pc) (pc' : Pc) : (c.move i pc').pcs[i]? = some pc' :=
  getElem?_set_self (lt_of_some hpc)

theorem step_advance (batch : ℕ) (ht : c.world.threads[i]? = some t) (hpc : c.pcs[i]? = some pc)
    (hs : t.serves = some (0, idx)) (hd : t.localQueue = some d) :
    c.step (.advance i batch) = c.advance i t 0 idx d batch pc := by
  simp only [step, Label.actor, ht, hpc, threadStep, hs, hd]

/-- Some number of steps of thread `i` returns the result. -/
def Returns (c : Crew) (n i batch : ℕ) (result : Option (ℕ × World ℕ)) : Prop :=
  ∃ k, (crew n).run c (List.replicate k (.advance i batch)) = some (c.returned i result)

theorem returns_of_step {result : Option (ℕ × World ℕ)}
    (h : c.step (.advance i batch) = some (c.returned i result)) : c.Returns n i batch result :=
  ⟨1, System.run_cons_eq_some.mpr ⟨_, h, rfl⟩⟩

theorem Returns.of_move {result : Option (ℕ × World ℕ)}
    (h : c.step (.advance i batch) = some (c.move i pc))
    (hm : (c.move i pc).Returns n i batch result) : c.Returns n i batch result := by
  obtain ⟨k, hk⟩ := hm
  rw [returned_move] at hk
  exact ⟨k + 1, System.run_cons_eq_some.mpr ⟨_, h, hk⟩⟩

theorem returns_siblings (hr : c.world.runtimes[0]? = some ⟨.multiThread ss, injector⟩)
    (ht : c.world.threads[i]? = some t) (hs : t.serves = some (0, idx))
    (hd : t.localQueue = some d) {offset : ℕ} (hpc : c.pcs[i]? = some (.sibling offset)) :
    c.Returns n i batch
      (((List.range' offset (ss.length - offset)).map fun o => (idx + o) % ss.length).findSome?
        fun v => ss[v]?.bind fun s => stealFromSibling c.world s d batch) := by
  -- along the siblings that are left
  induction hm : ss.length - offset generalizing c offset with
  | zero =>
    refine returns_of_step ((step_advance batch ht hpc hs hd).trans ?_)
    simp only [advance, hr]
    exact if_neg (by omega)
  | succ m ih =>
    have hstep := step_advance batch ht hpc hs hd
    simp only [advance, hr] at hstep
    rw [if_pos (by omega)] at hstep
    rw [range'_succ, map_cons, findSome?_cons]
    cases hsteal : ss[(idx + offset) % ss.length]?.bind fun s =>
        stealFromSibling c.world s d batch with
    | some p =>
      rw [hsteal] at hstep
      exact returns_of_step hstep
    | none =>
      rw [hsteal] at hstep
      exact .of_move hstep (ih (c := c.move i _) hr ht (getElem?_move hpc _) (by omega))

/-- **A call of `next_task` that nobody disturbs** returns what `nextTask` says. -/
theorem returns_nextTask (hr : c.world.runtimes[0]? = some ⟨.multiThread ss, injector⟩)
    (ht : c.world.threads[i]? = some t) (hs : t.serves = some (0, idx))
    (hd : t.localQueue = some d) (hpc : c.pcs[i]? = some .next) :
    c.Returns n i batch (nextTask c.world t 0 idx batch) := by
  have hpop := step_advance batch ht hpc hs hd
  simp only [advance] at hpop
  simp only [nextTask, hr, hd, bind_some]
  cases hown : popLocal c.world d with
  | some p =>
    rw [hown] at hpop
    exact returns_of_step hpop
  | none =>
    rw [hown] at hpop
    rw [none_or]
    have hpc' := getElem?_move hpc .injector
    have hsteal := step_advance (c := c.move i .injector) batch ht hpc' hs hd
    simp only [advance, show (c.move i .injector).world = c.world from rfl, hr, bind_some] at hsteal
    refine .of_move hpop ?_
    cases hinj : stealFromInjector c.world 0 ⟨.multiThread ss, injector⟩ d batch with
    | some p =>
      rw [hinj] at hsteal
      exact returns_of_step hsteal
    | none =>
      rw [hinj] at hsteal
      rw [none_or]
      exact .of_move hsteal
        (returns_siblings (c := (c.move i _).move i _) hr ht hs hd (getElem?_move hpc' _))

theorem returns_nextTask_stolen : ∃ c t, (crew 2).Reachable c ∧
    c.Returns 2 1 4 (nextTask c.world t 0 0 4) ∧ (nextTask c.world t 0 0 4).isSome := by
  have hc : (crew 2).Reachable _ := ⟨[.schedule 0], rfl⟩
  exact ⟨_, _, hc, returns_nextTask rfl rfl rfl rfl rfl, rfl⟩

end Undisturbed

end Crew
end RustyTokio.Runtime

import RustyTokio.Task.State
import RustyTokio.Task.Join
import RustyTokio.Transition.System
import RustyTokio.Transition.Pool

/-!
# One task and the threads that touch it

`src/task/mod.rs`.  Any number of threads wake the task, abort it, take it off a run queue and run
it.  A thread is a program counter `Pc`; between two of them lies at most one operation on shared
memory.
-/

namespace RustyTokio.Task

open Transition Option

inductive Ending (P : Type) where
  | ready
  | abnormal (outcome : Outcome P)
  deriving DecidableEq

/-- Where a thread goes on after `JoinInner::finish`: back into the poll whose
future called it, or out of the abnormal hook. -/
inductive Resume where
  | poll
  | hook
  deriving DecidableEq

/-- The memory shared by all threads.  The fields up to `activeTasks` are the
program's; the others record what has happened. -/
structure Core (T P : Type) where
  word : Word
  /-- The entries for this task in the run queues of its scheduler. -/
  queue : ℕ
  slot : Bool
  hook : Bool
  join : JoinInner T P
  activeTasks : ℕ
  handle : Phase
  lastWaker : ℕ
  /-- The last `Arc<Task>` is gone. -/
  freed : Bool
  /-- A panic during a panic has ended the process. -/
  crashed : Bool
  beginFailed : Bool
  /-- A wake took effect, and neither a `begin_poll` nor the end of the task has
  come since. -/
  wakePending : Bool
  /-- The terminal paths of `run` entered so far, each as the result it has to
  hand over. -/
  terminals : List (JoinResult T P)
  /-- The calls of `JoinInner::finish` so far. -/
  finishes : List (JoinResult T P)
  marks : ℕ
  deriving DecidableEq

/-- Where a thread is.  Each constructor names the operation it is about to do. -/
inductive Pc (T P : Type) where
  | idle
  | abortOr
  | wakeLoad
  | wakeCas (state : Word)
  | schedule
  | beginLoad
  | beginCas (state : Word)
  | abortedTake
  | isAborted
  | abortTake
  | takeSlot
  | emptySlot
  | poll
  | putBack
  | endLoad
  | endCas (state : Word)
  | reschedule
  | runReturn
  | clearSlot (payload : P)
  | endOr (ending : Ending P)
  | endAnd (ending : Ending P)
  | dropHook
  | fireHook (outcome : Outcome P)
  | finishSwap (result : JoinResult T P) (resume : Resume)
  | finishStore (old : JoinState T P) (resume : Resume)
  | finishWake (old : JoinState T P) (resume : Resume)
  /-- The hook has called `finish` and lets go of its `Arc<JoinInner>`. -/
  | hookReturn
  | markFinished
  | unwound
  | unwoundReturn
  deriving DecidableEq

/-- What a step leaves open.  A step at which nothing is open ignores it. -/
inductive Choice (T P : Type) where
  | go
  | wake
  | abort
  | pop
  | pending
  | ready (value : T)
  | panic (payload : P)
  | readyDropPanic (payload : P)
  | panicDropPanic
  | dropPanic
  deriving DecidableEq

section

variable {T P : Type}

def afterWake : StateSnapshot → Pc T P
  | .shouldSchedule => .schedule
  | .noOp => .idle

/-- One pass of the loop of `wake` from the value the state word has now, up to
its exchange.  A pass that returns takes effect here. -/
def wakePass (c : Core T P) : Core T P × Pc T P :=
  match wakeAttempt c.word with
  | .done r => ({ c with wakePending := c.wakePending || !has c.word complete }, afterWake r)
  | .exchange _ _ => (c, .wakeCas c.word)

/-- The exchange of `wake`; a failed one goes around the loop. -/
def wakeExchange (c : Core T P) (state : Word) : Core T P × Pc T P :=
  match wakeAttempt state with
  | .exchange new r =>
    if c.word = state then ({ c with word := new, wakePending := true }, afterWake r)
    else wakePass c
  | .done r => (c, afterWake r)

def beginPollLoad (c : Core T P) : Core T P × Pc T P :=
  if beginAssert c.word then (c, .beginCas c.word)
  else ({ c with beginFailed := true }, .unwound)

/-- The exchange of `begin_poll`, which panics if it fails, and the branch of
`run` on its result. -/
def beginPollExchange (c : Core T P) (state : Word) : Core T P × Pc T P :=
  if c.word = state then
    if has state aborted then
      ({ c with
          word := beginWord state, wakePending := false,
          terminals := c.terminals ++ [.err .cancelled] }, .abortedTake)
    else ({ c with word := beginWord state, wakePending := false }, .isAborted)
  else ({ c with beginFailed := true }, .unwound)

def pollFuture (c : Core T P) : Choice T P → Option (Core T P × Pc T P)
  | .pending => some (c, .putBack)
  | .ready v => some ({ c with terminals := c.terminals ++ [.ok v] }, .finishSwap (.ok v) .poll)
  | .panic p =>
    some ({ c with terminals := c.terminals ++ [.err (.panicked p)] }, .clearSlot p)
  | .readyDropPanic p =>
    some ({ c with terminals := c.terminals ++ [.err (.panicked p)] }, .clearSlot p)
  | .panicDropPanic => some ({ c with crashed := true }, .unwound)
  | _ => none

def dropFuture (c : Core T P) (next : Pc T P) : Choice T P → Option (Core T P × Pc T P)
  | .dropPanic => if c.slot then some ({ c with slot := false }, .unwound) else none
  | _ => some ({ c with slot := false }, next)

def Ending.next : Ending P → Pc T P
  | .ready => .dropHook
  | .abnormal o => .fireHook o

/-- What follows the call of `finish`: the future's body ends and the poll
returns `Ready`, or the hook returns. -/
def Resume.next : Resume → Pc T P
  | .poll => .endOr .ready
  | .hook => .hookReturn

/-- Nobody but the hook holds the `JoinInner` any more, and there is a value in it: the
`JoinHandle` was dropped and had not taken the result. -/
def Core.dropsResult (c : Core T P) : Bool :=
  decide (c.handle = .dropped) && c.join.state.hasValue

/-- The hook's `Arc<JoinInner>` goes.  If it is the last one, the value in the cell is dropped with
it, outside of any `catch_unwind`, and the destructor may panic. -/
def releaseJoin (c : Core T P) : Choice T P → Option (Core T P × Pc T P)
  | .dropPanic => if c.dropsResult then some (c, .unwound) else none
  | _ => some (c, .markFinished)

/-- `fire_abnormal_hook`.  With the hook gone the outcome is dropped, and the payload of a panic
with it. -/
def fireAbnormalHook (c : Core T P) (o : Outcome P) (ch : Choice T P) : Core T P × Pc T P :=
  if c.hook then ({ c with hook := false }, .finishSwap (.err o.payload) .hook)
  else match o, ch with
    | .panicked _, .dropPanic => (c, .unwound)
    | _, _ => (c, .markFinished)

def Pc.step (c : Core T P) : Pc T P → Choice T P → Option (Core T P × Pc T P)
  | .idle, ch =>
    match ch with
    | .wake => if c.freed then none else some (c, .wakeLoad)
    | .abort => if c.freed then none else some (c, .abortOr)
    | .pop => if 0 < c.queue then some ({ c with queue := c.queue - 1 }, .beginLoad) else none
    | _ => none
  | .abortOr, _ =>
    some ({ c with word := c.word ||| aborted },
      if has c.word complete || has c.word aborted then .idle else .wakeLoad)
  | .wakeLoad, _ => some (wakePass c)
  | .wakeCas state, _ => some (wakeExchange c state)
  | .schedule, _ => some ({ c with queue := c.queue + 1 }, .idle)
  | .beginLoad, _ => some (beginPollLoad c)
  | .beginCas state, _ => some (beginPollExchange c state)
  | .abortedTake, ch => dropFuture c (.fireHook .aborted) ch
  | .isAborted, _ =>
    if has c.word aborted then
      some ({ c with terminals := c.terminals ++ [.err .cancelled] }, .abortTake)
    else some (c, .takeSlot)
  | .abortTake, ch => dropFuture c (.endOr (.abnormal .aborted)) ch
  | .takeSlot, _ =>
    if c.slot then some ({ c with slot := false }, .poll) else some (c, .emptySlot)
  | .emptySlot, _ =>
    some ({ c with terminals := c.terminals ++ [.err .cancelled] }, .endOr (.abnormal .aborted))
  | .poll, ch => pollFuture c ch
  | .putBack, _ => some ({ c with slot := true }, .endLoad)
  | .endLoad, _ => some (c, .endCas c.word)
  | .endCas state, _ =>
    if c.word = state then
      some ({ c with word := (endAttempt state).1 },
        if (endAttempt state).2 then .reschedule else .runReturn)
    else some (c, .endCas c.word)
  | .reschedule, _ => some ({ c with queue := c.queue + 1 }, .runReturn)
  | .runReturn, _ => some (c, .idle)
  | .clearSlot p, _ => some ({ c with slot := false }, .endOr (.abnormal (.panicked p)))
  | .endOr e, _ =>
    some ({ c with word := c.word ||| complete, wakePending := false }, .endAnd e)
  | .endAnd e, _ =>
    some ({ c with word := c.word &&& ~~~running }, e.next)
  | .dropHook, ch => releaseJoin { c with hook := false } ch
  | .fireHook o, ch => some (fireAbnormalHook c o ch)
  | .finishSwap r k, _ =>
    some ({ c with join := (c.join.swapDone r).1, finishes := c.finishes ++ [r] },
      .finishStore (c.join.swapDone r).2 k)
  | .finishStore old k, _ => some ({ c with join := c.join.storeFinished }, .finishWake old k)
  | .finishWake old k, _ =>
    some ({ c with handle := if old.waker = some c.lastWaker then c.handle.wake else c.handle },
      k.next)
  | .hookReturn, ch => releaseJoin c ch
  | .markFinished, _ =>
    some ({ c with activeTasks := c.activeTasks - 1, marks := c.marks + 1 }, .idle)
  | .unwound, _ => none
  | .unwoundReturn, _ => none

/-! ## The task with its threads -/

structure TaskState (T P : Type) where
  core : Core T P
  threads : List (Pc T P)
  deriving DecidableEq

inductive Label (T P : Type) where
  | thread (i : ℕ) (choice : Choice T P)
  | joinPoll (waker : ℕ)
  | joinDrop
  /-- Thread `i` drops the last `Arc<Task>`: at the end of `run`, or by letting
  go of a waker.  The stored future is dropped with it, and its destructor
  panics or not. -/
  | free (i : ℕ) (panics : Bool)
  deriving DecidableEq

/-- A thread that holds no `Arc<Task>`. -/
def Pc.isResting : Pc T P → Bool
  | .idle => true
  | .unwound => true
  | .unwoundReturn => true
  | _ => false

def othersRest (threads : List (Pc T P)) (i : ℕ) : Bool :=
  (threads.set i .idle).all Pc.isResting

def Core.free (c : Core T P) : Core T P := { c with freed := true, slot := false, hook := false }

def TaskState.move (s : TaskState T P) : Label T P → Option (TaskState T P)
  | .thread i ch =>
    s.threads[i]?.bind fun pc =>
      (pc.step s.core ch).map fun p => ⟨p.1, s.threads.set i p.2⟩
  | .joinPoll w =>
    if s.core.handle.isLive then
      (s.core.join.poll w).map fun p => { s with core := { s.core with
        join := p.1, lastWaker := w,
        handle := if p.2.isSome then .finished else .parked false } }
    else none
  | .joinDrop =>
    if s.core.handle.isLive then
      some { s with core := { s.core with handle := .dropped } }
    else none
  | .free i panics =>
    if s.core.freed = false ∧ s.core.queue = 0 ∧ othersRest s.threads i then
      match s.threads[i]? with
      | some .idle => some ⟨s.core.free, s.threads.set i .idle⟩
      | some .runReturn =>
        some ⟨s.core.free,
          s.threads.set i (if panics && s.core.slot then .unwoundReturn else .idle)⟩
      | _ => none
    else none

def TaskState.step (s : TaskState T P) (l : Label T P) : Option (TaskState T P) :=
  if s.core.crashed then none else s.move l

end

/-- The core of a task that `spawn_named` has just built and counted, on a
runtime whose live tasks are then `active`. -/
def Core.spawned (T P : Type) (active : ℕ) : Core T P where
  word := newWord
  queue := 0
  slot := true
  hook := true
  join := .new
  activeTasks := active
  handle := .fresh
  lastWaker := 0
  freed := false
  crashed := false
  beginFailed := false
  wakePending := false
  terminals := []
  finishes := []
  marks := 0

def TaskState.spawned (T P : Type) (active n : ℕ) : TaskState T P :=
  ⟨.spawned T P active, .schedule :: List.replicate n .idle⟩

def taskSystem (T P : Type) (n : ℕ) : System (TaskState T P) (Label T P) where
  init := .spawned T P 1 n
  step := TaskState.step

/-! ## What a step is -/

section

variable {T P : Type} {s t : TaskState T P} {ch : Choice T P} {c c' : Core T P} {pc' : Pc T P}
  {i : ℕ}

def Pc.AfterWake (pc : Pc T P) : Prop := pc = .idle ∨ pc = .schedule ∨ ∃ st, pc = .wakeCas st

theorem afterWake_afterWake (r : StateSnapshot) : (afterWake r : Pc T P).AfterWake := by
  cases r
  · exact .inr (.inl rfl)
  · exact .inl rfl

theorem wakePass_eq (c : Core T P) :
    ∃ p, (wakePass c).1 = { c with wakePending := p } ∧ (wakePass c).2.AfterWake := by
  unfold wakePass
  split
  · exact ⟨_, rfl, afterWake_afterWake _⟩
  · exact ⟨c.wakePending, rfl, .inr (.inr ⟨_, rfl⟩)⟩

theorem wakeExchange_eq (c : Core T P) (st : Word) :
    ∃ w p, (wakeExchange c st).1 = { c with word := w, wakePending := p } ∧
      (wakeExchange c st).2.AfterWake := by
  unfold wakeExchange
  split
  · split
    · exact ⟨_, _, rfl, afterWake_afterWake _⟩
    · obtain ⟨p, hp, ha⟩ := wakePass_eq c
      exact ⟨c.word, p, hp, ha⟩
  · exact ⟨c.word, c.wakePending, rfl, afterWake_afterWake _⟩

theorem dropFuture_eq_some {next : Pc T P} (h : dropFuture c next ch = some (c', pc')) :
    c' = { c with slot := false } ∧
      (pc' = next ∨ (ch = .dropPanic ∧ c.slot ∧ pc' = .unwound)) := by
  unfold dropFuture at h
  split at h
  · rw [ite_none_right_eq_some, some.injEq, Prod.mk.injEq] at h
    obtain ⟨hs, rfl, rfl⟩ := h
    exact ⟨rfl, .inr ⟨rfl, hs, rfl⟩⟩
  · cases h
    exact ⟨rfl, .inl rfl⟩

theorem releaseJoin_eq_some (h : releaseJoin c ch = some (c', pc')) :
    c' = c ∧ (pc' = .markFinished ∨ (ch = .dropPanic ∧ c.dropsResult ∧ pc' = .unwound)) := by
  unfold releaseJoin at h
  split at h
  · rw [ite_none_right_eq_some, some.injEq, Prod.mk.injEq] at h
    obtain ⟨hd, rfl, rfl⟩ := h
    exact ⟨rfl, .inr ⟨rfl, hd, rfl⟩⟩
  · cases h
    exact ⟨rfl, .inl rfl⟩

theorem fireAbnormalHook_cases (c : Core T P) (o : Outcome P) (ch : Choice T P) :
    (c.hook ∧ fireAbnormalHook c o ch =
      ({ c with hook := false }, .finishSwap (.err o.payload) .hook)) ∨
    (c.hook = false ∧ (fireAbnormalHook c o ch = (c, .markFinished) ∨
      (∃ p, o = .panicked p) ∧ ch = .dropPanic ∧ fireAbnormalHook c o ch = (c, .unwound))) := by
  unfold fireAbnormalHook
  split
  next hh => exact .inl ⟨hh, rfl⟩
  next hh =>
    refine .inr ⟨Bool.not_eq_true _ ▸ hh, ?_⟩
    split
    · exact .inr ⟨⟨_, rfl⟩, rfl, rfl⟩
    · exact .inl rfl

theorem fireAbnormalHook_core (c : Core T P) (o : Outcome P) (ch : Choice T P) :
    ∃ hook, (fireAbnormalHook c o ch).1 = { c with hook } := by
  rcases fireAbnormalHook_cases c o ch with ⟨-, he⟩ | ⟨-, he | ⟨-, -, he⟩⟩ <;> rw [he]
  · exact ⟨false, rfl⟩
  · exact ⟨c.hook, rfl⟩
  · exact ⟨c.hook, rfl⟩

theorem pollFuture_eq_some (h : pollFuture c ch = some (c', pc')) : (c' = c ∧ pc' = .putBack) ∨
      (∃ v, c' = { c with terminals := c.terminals ++ [.ok v] } ∧ pc' = .finishSwap (.ok v) .poll) ∨
      (∃ p, c' = { c with terminals := c.terminals ++ [.err (.panicked p)] } ∧ pc' = .clearSlot p) ∨
      (ch = .panicDropPanic ∧ c' = { c with crashed := true } ∧ pc' = .unwound) := by
  cases ch with
  | pending =>
    cases h
    exact .inl ⟨rfl, rfl⟩
  | ready v =>
    cases h
    exact .inr (.inl ⟨v, rfl, rfl⟩)
  | panic p | readyDropPanic p =>
    cases h
    exact .inr (.inr (.inl ⟨p, rfl, rfl⟩))
  | panicDropPanic =>
    cases h
    exact .inr (.inr (.inr ⟨rfl, rfl, rfl⟩))
  | _ => simp [pollFuture] at h

theorem step_eq_some {l : Label T P} :
    s.step l = some t ↔ s.core.crashed = false ∧ s.move l = some t := by
  rw [TaskState.step, ite_none_left_eq_some, Bool.not_eq_true]

theorem step_thread {pc : Pc T P} (hc : s.core.crashed = false) (hpc : s.threads[i]? = some pc)
    (hs : pc.step s.core ch = some (c, pc')) :
    s.step (.thread i ch) = some ⟨c, s.threads.set i pc'⟩ := by
  refine step_eq_some.mpr ⟨hc, ?_⟩
  simp only [TaskState.move, hpc, hs, bind_some, map_some]

/-- **What a move can be.**  The thread that drops the last reference ends idle, or unwound if it
was returning from `run`, the stored future was still there and its destructor panicked. -/
inductive TaskState.Steps (s : TaskState T P) : Label T P → TaskState T P → Prop where
  | thread {i ch pc c pc'} (hpc : s.threads[i]? = some pc)
      (hstep : pc.step s.core ch = some (c, pc')) :
      Steps s (.thread i ch) ⟨c, s.threads.set i pc'⟩
  | joinPoll {w j r} (hj : s.core.join.poll w = some (j, r)) :
      Steps s (.joinPoll w) { s with core := { s.core with
        join := j, lastWaker := w,
        handle := if r.isSome then .finished else .parked false } }
  | joinDrop : Steps s .joinDrop { s with core := { s.core with handle := .dropped } }
  | free {i panics pc pc'} (hpc : s.threads[i]? = some pc) (hq : s.core.queue = 0)
      (hrest : othersRest s.threads i)
      (hcase : (pc = .idle ∧ pc' = .idle) ∨ (pc = .runReturn ∧
        pc' = if panics && s.core.slot then .unwoundReturn else .idle)) :
      Steps s (.free i panics) ⟨s.core.free, s.threads.set i pc'⟩

theorem steps_of_step {l : Label T P} (h : s.step l = some t) : s.Steps l t := by
  replace h := (step_eq_some.mp h).2
  cases l with
  | thread i ch =>
    obtain ⟨pc, hpc, h⟩ := bind_eq_some_iff.mp h
    obtain ⟨r, hstep, rfl⟩ := map_eq_some_iff.mp h
    exact .thread hpc hstep
  | joinPoll w =>
    obtain ⟨-, h⟩ := ite_none_right_eq_some.mp h
    obtain ⟨r, hj, rfl⟩ := map_eq_some_iff.mp h
    exact .joinPoll hj
  | joinDrop =>
    obtain ⟨-, rfl⟩ := of_guard h
    exact .joinDrop
  | free i panics =>
    obtain ⟨⟨-, hq, hrest⟩, h⟩ := ite_none_right_eq_some.mp h
    split at h
    next hpc => exact some.inj h ▸ .free hpc hq hrest (.inl ⟨rfl, rfl⟩)
    next hpc => exact some.inj h ▸ .free hpc hq hrest (.inr ⟨rfl, rfl⟩)
    · cases h

end

end RustyTokio.Task

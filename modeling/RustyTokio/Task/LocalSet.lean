import RustyTokio.Task.State
import RustyTokio.Transition.Pool
import RustyTokio.Transition.System

/-!
# A `LocalSet`, its tasks and the threads that touch them

`src/task/local.rs`, and `JoinHandle::with_local_task` of `src/task/join.rs`.  The future of a
`LocalTask` is polled by `LocalTask::run`, in the loop of `LocalSet::run_until`.
-/

namespace RustyTokio.LocalSet

open Transition RustyTokio.Task

structure LocalTask where
  word : Word
  slot : Bool
  /-- The references that are wakers no call has in use. -/
  wakers : ℕ
  deriving DecidableEq

inductive RunStage where
  | beginLoad
  | beginCas (state : Word)
  | abortedTake
  | isAborted
  | abortTake
  | takeSlot
  | poll
  | putBack
  | endPoll
  | endOr (boxed : Bool)
  | endAnd (boxed : Bool)
  | dropFuture
  deriving DecidableEq

inductive Stage where
  | abortOr
  | signal
  | upgrade
  | push
  | release
  | leave
  | run (stage : RunStage)
  deriving DecidableEq

namespace Stage

/-- The call is in `LocalTask::run` and not in a call that `run` makes. -/
def isRun : Stage → Bool
  | .run _ => true
  | _ => false

/-- The call has a reference to the shared part. -/
def shares : Stage → Bool
  | .push | .release => true
  | _ => false

end Stage

inductive Kind where
  | wake
  | wakeByRef
  | abort
  | run
  deriving DecidableEq

/-- A call on a thread.  It has one reference to its task; that of `wake_by_ref` is a waker which
goes back to its owner. -/
structure Call where
  thread : ℕ
  task : ℕ
  kind : Kind
  stage : Stage
  deriving DecidableEq

structure World where
  alive : Bool
  holder : ℕ
  bound : Option ℕ
  driving : ℕ
  parkers : ℕ
  queue : List ℕ
  tasks : List LocalTask
  calls : List Call
  /-- The entries of a queue that a thread is dropping. -/
  held : List (ℕ × ℕ)
  /-- The polls so far: the thread and the task. -/
  polls : List (ℕ × ℕ)
  /-- The futures dropped so far: the thread and the task. -/
  drops : List (ℕ × ℕ)
  deriving DecidableEq

inductive Label where
  | moveSet (x : ℕ)
  | dropSet
  | spawnLocal
  | runUntil
  | runNext
  | returns
  | cloneWaker (a : ℕ)
  | dropWaker (x a : ℕ)
  | wake (x a : ℕ)
  | wakeByRef (x a : ℕ)
  | abort (x a : ℕ)
  | call (k : ℕ) (pending : Bool)
  | dropHeld (k : ℕ)
  /-- Thread `x` drops the last clone of a `ParkingWaker`. -/
  | dropParker (x : ℕ)
  deriving DecidableEq

namespace World

/-! ## The two reference counts -/

def refs (w : World) (a : ℕ) : ℕ :=
  w.queue.count a + (w.tasks[a]?.elim 0 LocalTask.wakers) +
    w.calls.countP (fun c => c.task = a) + w.held.countP (fun p => p.2 = a)

def sharedRefs (w : World) : ℕ :=
  w.alive.toNat + w.parkers + w.calls.countP fun c => c.stage.shares

def setTask (w : World) (a : ℕ) (t : LocalTask) : World := { w with tasks := w.tasks.set a t }

/-- Thread `x` has given up a reference to task `a`: if it was the last, it drops the future. -/
def discard (w : World) (x a : ℕ) : World :=
  match w.tasks[a]? with
  | none => w
  | some t =>
    if w.refs a = 0 && t.slot then
      { w.setTask a { t with slot := false } with drops := w.drops ++ [(x, a)] }
    else w

/-- Thread `x` has given up a reference to the shared part: if it was the last, it drops the
queue. -/
def teardown (w : World) (x : ℕ) : World :=
  if w.sharedRefs = 0 then
    { w with queue := [], held := w.held ++ w.queue.map fun a => (x, a) }
  else w

def bindOrCheckThread (w : World) : Option World :=
  match w.bound with
  | some owner => if owner = w.holder then some w else none
  | none => some { w with bound := some w.holder }

/-! ## The calls -/

def goto (w : World) (k : ℕ) (c : Call) (stage : Stage) : World :=
  { w with calls := w.calls.set k { c with stage := stage } }

/-- `future.borrow_mut().take()` on an abort path, which drops the future. -/
def takeFuture (w : World) (c : Call) (t : LocalTask) : World :=
  if t.slot then
    { w.setTask c.task { t with slot := false } with drops := w.drops ++ [(c.thread, c.task)] }
  else w

def runStep (w : World) (k : ℕ) (c : Call) (t : LocalTask) (pending : Bool) : RunStage → World
  | .beginLoad =>
    w.goto k c (if beginAssert t.word then .run (.beginCas t.word) else .leave)
  | .beginCas state =>
    if t.word = state then
      (w.setTask c.task { t with word := beginWord state }).goto k c
        (.run (if has state aborted then .abortedTake else .isAborted))
    else w.goto k c .leave
  | .abortedTake => (w.takeFuture c t).goto k c .leave
  | .isAborted => w.goto k c (.run (if has t.word aborted then .abortTake else .takeSlot))
  | .abortTake => (w.takeFuture c t).goto k c (.run (.endOr false))
  | .takeSlot =>
    if t.slot then (w.setTask c.task { t with slot := false }).goto k c (.run .poll)
    else w.goto k c (.run (.endOr false))
  | .poll =>
    { w.goto k c (.run (if pending then .putBack else .endOr true)) with
      polls := w.polls ++ [(c.thread, c.task)] }
  | .putBack => (w.setTask c.task { t with slot := true }).goto k c (.run .endPoll)
  | .endPoll =>
    (w.setTask c.task { t with word := (endAttempt t.word).1 }).goto k c
      (if (endAttempt t.word).2 then .upgrade else .leave)
  | .endOr boxed =>
    (w.setTask c.task { t with word := t.word ||| complete }).goto k c (.run (.endAnd boxed))
  | .endAnd boxed =>
    (w.setTask c.task { t with word := t.word &&& ~~~running }).goto k c
      (if boxed then .run .dropFuture else .leave)
  | .dropFuture => { w.goto k c .leave with drops := w.drops ++ [(c.thread, c.task)] }

def callStep (w : World) (k : ℕ) (c : Call) (t : LocalTask) (pending : Bool) : World :=
  match c.stage with
  | .abortOr =>
    (w.setTask c.task { t with word := t.word ||| aborted }).goto k c
      (if has t.word complete || has t.word aborted then .leave else .signal)
  | .signal =>
    match wakeAttempt t.word with
    | .done _ => w.goto k c .leave
    | .exchange new result =>
      (w.setTask c.task { t with word := new }).goto k c
        (match result with
          | .shouldSchedule => .upgrade
          | .noOp => .leave)
  | .upgrade => w.goto k c (if w.sharedRefs = 0 then .leave else .push)
  | .push => { w.goto k c .release with queue := w.queue ++ [c.task] }
  | .release => (w.goto k c .leave).teardown c.thread
  | .leave =>
    match c.kind with
    | .wakeByRef =>
      { w.setTask c.task { t with wakers := t.wakers + 1 } with calls := w.calls.eraseIdx k }
    | _ => discard { w with calls := w.calls.eraseIdx k } c.thread c.task
  | .run stage => w.runStep k c t pending stage

def useWaker (w : World) (x a : ℕ) (kind : Kind) : Option World :=
  w.tasks[a]?.bind fun t =>
    if 0 < t.wakers then
      some
        { w.setTask a { t with wakers := t.wakers - 1 } with
          calls := w.calls ++ [⟨x, a, kind, .signal⟩] }
    else none

def hasWaker (w : World) (a : ℕ) (t : LocalTask) : Bool :=
  decide (0 < t.wakers) || w.calls.any fun c => c.task = a && c.stage = .run .poll

def step (w : World) : Label → Option World
  | .moveSet x => if w.alive && w.driving = 0 then some { w with holder := x } else none
  | .dropSet =>
    if w.alive && w.driving = 0 then some (teardown { w with alive := false } w.holder) else none
  | .spawnLocal =>
    if w.alive then
      w.bindOrCheckThread.map fun w =>
        { w with
          tasks := w.tasks ++ [⟨newWord, true, 0⟩]
          queue := w.queue ++ [w.tasks.length] }
    else none
  | .runUntil =>
    if w.alive then
      w.bindOrCheckThread.map fun w =>
        { w with driving := w.driving + 1, parkers := w.parkers + 1 }
    else none
  | .runNext =>
    match w.queue with
    | [] => none
    | a :: queue =>
      if 0 < w.driving then
        some
          { w with
            queue := queue
            calls := w.calls ++ [⟨w.holder, a, .run, .run .beginLoad⟩] }
      else none
  | .returns =>
    -- the outermost call returns when no task is being run
    if 1 < w.driving || (w.driving = 1 && w.calls.all fun c => c.kind != .run) then
      some { w with driving := w.driving - 1 }
    else none
  | .cloneWaker a =>
    w.tasks[a]?.bind fun t =>
      if w.hasWaker a t then some (w.setTask a { t with wakers := t.wakers + 1 }) else none
  | .dropWaker x a =>
    w.tasks[a]?.bind fun t =>
      if 0 < t.wakers then
        some (discard (w.setTask a { t with wakers := t.wakers - 1 }) x a)
      else none
  | .wake x a => w.useWaker x a .wake
  | .wakeByRef x a => w.useWaker x a .wakeByRef
  | .abort x a =>
    if a < w.tasks.length then
      -- the `Weak` of the handle is upgraded, or the task is gone
      if w.refs a = 0 then some w
      else some { w with calls := w.calls ++ [⟨x, a, .abort, .abortOr⟩] }
    else none
  | .call k pending =>
    w.calls[k]?.bind fun c => w.tasks[c.task]?.map fun t => w.callStep k c t pending
  | .dropHeld k =>
    w.held[k]?.map fun p => discard { w with held := w.held.eraseIdx k } p.1 p.2
  | .dropParker x =>
    if 0 < w.parkers then some (teardown { w with parkers := w.parkers - 1 } x) else none

end World

def localSet : System World Label where
  init := ⟨true, 0, none, 0, 0, [], [], [], [], [], []⟩
  step := World.step

end RustyTokio.LocalSet

import RustyTokio.Transition.Futures

/-!
# The join side of a task

`src/task/join.rs`.  A `JoinInner` is the cell through which a task hands its
result to its `JoinHandle`.  `finish` replaces the cell's state under its lock,
then sets the `finished` flag, then wakes the waker it found; the three are
separate operations, so the model keeps them apart.
-/

namespace RustyTokio.Task

/-- How a task ended without a value; `P` is the type of panic payloads. -/
inductive Outcome (P : Type) where
  | aborted
  | panicked (payload : P)
  deriving DecidableEq

inductive JoinErrorPayload (P : Type) where
  | cancelled
  | panicked (payload : P)
  deriving DecidableEq

def Outcome.payload {P : Type} : Outcome P → JoinErrorPayload P
  | .aborted => .cancelled
  | .panicked p => .panicked p

inductive JoinResult (T P : Type) where
  | ok (value : T)
  | err (error : JoinErrorPayload P)
  deriving DecidableEq

/-- The state under the lock of the cell.  A waker is a number. -/
inductive JoinState (T P : Type) where
  | running
  | waiting (waker : ℕ)
  | done (result : JoinResult T P)
  | taken
  deriving DecidableEq

structure JoinInner (T P : Type) where
  state : JoinState T P
  finished : Bool
  deriving DecidableEq

namespace JoinInner

variable {T P : Type}

def new : JoinInner T P := ⟨.running, false⟩

/-- `finish`, under the lock: the result goes in and the old state comes out. -/
def swapDone (j : JoinInner T P) (r : JoinResult T P) : JoinInner T P × JoinState T P :=
  ({ j with state := .done r }, j.state)

/-- `finish`, after the lock: the flag that `AbortHandle::is_finished` reads. -/
def storeFinished (j : JoinInner T P) : JoinInner T P := { j with finished := true }

/-- `poll`: the result if there is one, else the waker is stored. -/
def poll (j : JoinInner T P) (waker : ℕ) : Option (JoinInner T P × Option (JoinResult T P)) :=
  match j.state with
  | .done r => some ({ j with state := .taken }, some r)
  | .taken => none
  | .running => some ({ j with state := .waiting waker }, none)
  | .waiting _ => some ({ j with state := .waiting waker }, none)

/-- `JoinHandle::is_finished`, which reads the state and not the flag. -/
def isFinished (j : JoinInner T P) : Bool :=
  match j.state with
  | .done _ => true
  | .taken => true
  | _ => false

end JoinInner

/-- The cell holds a value of the user's: the output, or the payload of a panic. -/
def JoinState.hasValue {T P : Type} : JoinState T P → Bool
  | .done (.ok _) => true
  | .done (.err (.panicked _)) => true
  | _ => false

def JoinState.waker {T P : Type} : JoinState T P → Option ℕ
  | .waiting w => some w
  | _ => none

end RustyTokio.Task

import RustyTokio.Task.Coop
import RustyTokio.Transition.Futures

/-!
# The readiness state of a file descriptor

`src/io/reactor/mod.rs`: the `ScheduledIo` that a reactor keeps for every registered file
descriptor, one flag and one waker slot for each direction, and the functions on it, each as it runs
when nobody interferes.
-/

namespace RustyTokio.Reactor

open Transition Coop

abbrev Errno := ℕ

def eagain : Errno := 11

def isWouldBlock (e : Errno) : Bool := e == eagain

inductive Interest where
  | read
  | write
  deriving DecidableEq

/-- `ScheduledIo`.  A waker is the number of the task it wakes. -/
structure ScheduledIo where
  readable : Bool
  writable : Bool
  readWaker : Option ℕ
  writeWaker : Option ℕ
  deriving DecidableEq

namespace ScheduledIo

/-- `ScheduledIo::new`: both directions are taken to be ready. -/
def new : ScheduledIo := ⟨true, true, none, none⟩

def flag (io : ScheduledIo) : Interest → Bool
  | .read => io.readable
  | .write => io.writable

def waker (io : ScheduledIo) : Interest → Option ℕ
  | .read => io.readWaker
  | .write => io.writeWaker

def setFlag (io : ScheduledIo) (i : Interest) (b : Bool) : ScheduledIo :=
  match i with
  | .read => { io with readable := b }
  | .write => { io with writable := b }

def setWaker (io : ScheduledIo) (i : Interest) (w : Option ℕ) : ScheduledIo :=
  match i with
  | .read => { io with readWaker := w }
  | .write => { io with writeWaker := w }

/-! ## Reading what was written -/

@[simp] theorem flag_new (i : Interest) : new.flag i := by
  cases i <;> rfl

@[simp] theorem flag_setFlag_self (io : ScheduledIo) (i : Interest) (b : Bool) :
    (io.setFlag i b).flag i = b := by
  cases i <;> rfl

variable {i j : Interest} {io : ScheduledIo}

theorem flag_setFlag_of_ne (io : ScheduledIo) (h : j ≠ i) (b : Bool) :
    (io.setFlag i b).flag j = io.flag j := by
  cases i <;> cases j <;> first | rfl | exact absurd rfl h

@[simp] theorem waker_setFlag (io : ScheduledIo) (i j : Interest) (b : Bool) :
    (io.setFlag i b).waker j = io.waker j := by
  cases i <;> cases j <;> rfl

@[simp] theorem waker_setWaker_self (io : ScheduledIo) (i : Interest) (w : Option ℕ) :
    (io.setWaker i w).waker i = w := by
  cases i <;> rfl

theorem waker_setWaker_of_ne (io : ScheduledIo) (h : j ≠ i) (w : Option ℕ) :
    (io.setWaker i w).waker j = io.waker j := by
  cases i <;> cases j <;> first | rfl | exact absurd rfl h

@[simp] theorem flag_setWaker (io : ScheduledIo) (i j : Interest) (w : Option ℕ) :
    (io.setWaker i w).flag j = io.flag j := by
  cases i <;> cases j <;> rfl

/-! ## The functions, uninterrupted -/

/-- `ScheduledIo::poll_ready` by a task: the flag is read, the waker stored, and
the flag read again. -/
def pollReady (io : ScheduledIo) (i : Interest) (task : ℕ) : ScheduledIo × Poll Unit :=
  if io.flag i then (io, .ready ())
  else
    let io' := io.setWaker i (some task)
    (io', if io'.flag i then .ready () else .pending)

def clear (io : ScheduledIo) (i : Interest) : ScheduledIo := io.setFlag i false

def markReady (io : ScheduledIo) (i : Interest) : ScheduledIo × Option ℕ :=
  let io' := io.setFlag i true
  (io'.setWaker i none, io'.waker i)

theorem pollReady_of_flag (task : ℕ) (h : io.flag i) : io.pollReady i task = (io, .ready ()) := by
  rw [pollReady, if_pos h]

theorem pollReady_of_not_flag (task : ℕ) (h : io.flag i = false) :
    io.pollReady i task = (io.setWaker i (some task), .pending) := by
  simp [pollReady, h]

end ScheduledIo

/-! ## Polling an operation -/

def pollIoLoop {α : Type} (i : Interest) (task : ℕ) :
    List (Except Errno α) → ScheduledIo → Option (ScheduledIo × Poll (Except Errno α))
  | [], io =>
    match io.pollReady i task with
    | (io', .pending) => some (io', .pending)
    | (_, .ready _) => none
  | answer :: rest, io =>
    match io.pollReady i task with
    | (io', .pending) => some (io', .pending)
    | (io', .ready _) =>
      match answer with
      | .ok v => some (io', .ready (.ok v))
      | .error e =>
        if isWouldBlock e then pollIoLoop i task rest (io'.clear i)
        else some (io', .ready (.error e))

/-- `poll_io`, with the waker it wakes: the task's own, when its budget is used
up. -/
def pollIo {α : Type} (io : ScheduledIo) (i : Interest) (task : ℕ) (budget : Option ℕ)
    (answers : List (Except Errno α)) : Option (ScheduledIo × Poll (Except Errno α) × Option ℕ) :=
  match pollProceed budget with
  | none => some (io, .pending, some task)
  | some _ => (pollIoLoop i task answers io).map fun p => (p.1, p.2, none)

section PollIo

variable {α : Type} {io : ScheduledIo} {i : Interest} {task : ℕ} {e : Errno}
  {answers : List (Except Errno α)} {io' : ScheduledIo} {r : Poll (Except Errno α)}

theorem pollIoLoop_of_not_flag (answers : List (Except Errno α)) (h : io.flag i = false) :
    pollIoLoop i task answers io = some (io.setWaker i (some task), .pending) := by
  cases answers with
  | nil | cons a rest => simp [pollIoLoop, ScheduledIo.pollReady_of_not_flag task h]

theorem pollIoLoop_ok (v : α) (rest : List (Except Errno α)) (h : io.flag i) :
    pollIoLoop i task (.ok v :: rest) io = some (io, .ready (.ok v)) := by
  simp [pollIoLoop, ScheduledIo.pollReady_of_flag task h]

theorem pollIoLoop_error (he : isWouldBlock e = false)
    (rest : List (Except Errno α)) (h : io.flag i) :
    pollIoLoop i task (.error e :: rest) io = some (io, .ready (.error e)) := by
  simp [pollIoLoop, ScheduledIo.pollReady_of_flag task h, he]

theorem pollIoLoop_wouldBlock (he : isWouldBlock e) (rest : List (Except Errno α)) (h : io.flag i) :
    pollIoLoop i task (.error e :: rest) io =
      some ((io.clear i).setWaker i (some task), .pending) := by
  have hc : (io.clear i).flag i = false := by simp [ScheduledIo.clear]
  rw [pollIoLoop, ScheduledIo.pollReady_of_flag task h]
  simp only [he, if_true]
  exact pollIoLoop_of_not_flag rest hc

theorem pollIoLoop_spec (h : pollIoLoop i task answers io = some (io', r)) :
    (∀ j, j ≠ i → io'.waker j = io.waker j) ∧
      ((r = .pending ∧ io'.waker i = some task) ∨ ((∃ x, r = .ready x) ∧ io' = io)) := by
  cases hf : io.flag i with
  | false =>
    rw [pollIoLoop_of_not_flag _ hf] at h
    cases h
    exact ⟨fun j hj => ScheduledIo.waker_setWaker_of_ne io hj _, .inl ⟨rfl, by simp⟩⟩
  | true =>
    cases answers with
    | nil =>
      rw [pollIoLoop, ScheduledIo.pollReady_of_flag task hf] at h
      cases h
    | cons a rest =>
      cases a with
      | ok v =>
        rw [pollIoLoop_ok _ _ hf] at h
        cases h
        exact ⟨fun j _ => rfl, .inr ⟨⟨_, rfl⟩, rfl⟩⟩
      | error e =>
        cases he : isWouldBlock e with
        | false =>
          rw [pollIoLoop_error he _ hf] at h
          cases h
          exact ⟨fun j _ => rfl, .inr ⟨⟨_, rfl⟩, rfl⟩⟩
        | true =>
          rw [pollIoLoop_wouldBlock he _ hf] at h
          cases h
          refine ⟨fun j hj => ?_, .inl ⟨rfl, by simp⟩⟩
          rw [ScheduledIo.waker_setWaker_of_ne _ hj, ScheduledIo.clear, ScheduledIo.waker_setFlag]

theorem pollIo_spec {budget : Option ℕ} {w : Option ℕ}
    (h : pollIo io i task budget answers = some (io', r, w)) :
    (∀ j, j ≠ i → io'.waker j = io.waker j) ∧ ((r = .pending ∧ w = some task ∧ io' = io) ∨
        (r = .pending ∧ w = none ∧ io'.waker i = some task) ∨
        (∃ x, r = .ready x) ∧ w = none ∧ io' = io) := by
  unfold pollIo at h
  split at h
  · obtain ⟨rfl, hrw⟩ := Prod.mk.inj (Option.some.inj h)
    cases hrw
    exact ⟨fun j _ => rfl, .inl ⟨rfl, rfl, rfl⟩⟩
  · obtain ⟨⟨io₁, r₁⟩, hl, hp⟩ := Option.map_eq_some_iff.mp h
    obtain ⟨rfl, hrw⟩ := Prod.mk.inj hp
    cases hrw
    obtain ⟨hother, ⟨hr, hw⟩ | ⟨hr, hio⟩⟩ := pollIoLoop_spec hl
    · exact ⟨hother, .inr (.inl ⟨hr, rfl, hw⟩)⟩
    · exact ⟨hother, .inr (.inr ⟨hr, rfl, hio⟩)⟩

end PollIo

/-! ## Events -/

structure Event where
  epollin : Bool
  epollout : Bool
  epollhup : Bool
  epollerr : Bool
  epollrdhup : Bool
  deriving DecidableEq

def Event.reports (ev : Event) : Interest → Bool
  | .read => ev.epollin || ev.epollhup || ev.epollerr || ev.epollrdhup
  | .write => ev.epollout || ev.epollhup || ev.epollerr

/-- The directions that `event_loop` marks for an event, in its order. -/
def Event.interests (ev : Event) : List Interest :=
  [Interest.read, Interest.write].filter ev.reports

theorem Event.mem_interests {ev : Event} {i : Interest} : i ∈ ev.interests ↔ ev.reports i := by
  cases i <;> simp [Event.interests]

end RustyTokio.Reactor

import Mathlib.Logic.Function.Basic
import RustyTokio.Reactor.Source

/-!
# Several tasks on one direction

A `ScheduledIo` has one waker slot for each direction, and any number of tasks can poll the
direction through a shared reference, as with `TcpListener::accept`.  Every call of `poll_io` and of
`mark_ready` runs without interruption here; `Reactor.Source` has the steps they are made of.
-/

namespace RustyTokio.Reactor

open Transition Coop Function ScheduledIo

variable {α : Type}

structure Waiter where
  pending : Bool
  woken : Bool
  /-- Another task has stored its waker since. -/
  overtaken : Bool
  deriving DecidableEq

namespace Waiter

def fresh : Waiter := ⟨false, false, false⟩

def wake (w : Waiter) : Waiter := { w with woken := true }

def overtake (w : Waiter) : Waiter := { w with overtaken := true }

end Waiter

structure Waiters where
  io : ScheduledIo
  tasks : ℕ → Waiter

inductive WaitersLabel (α : Type) where
  | pollIo (task : ℕ) (j : Interest) (budget : Option ℕ) (answers : List (Except Errno α))
  | markReady (j : Interest)

namespace Waiters

def wake (tasks : ℕ → Waiter) : Option ℕ → ℕ → Waiter
  | none => tasks
  | some task => Function.update tasks task (tasks task).wake

def polled (tasks : ℕ → Waiter) (task : ℕ) (pending stored : Bool) : ℕ → Waiter :=
  Function.update (fun other => if stored then (tasks other).overtake else tasks other) task
    ⟨pending, false, false⟩

def step (i : Interest) (s : Waiters) : WaitersLabel α → Option Waiters
  | .pollIo task j budget answers =>
    (Reactor.pollIo s.io j task budget answers).map fun p =>
      let tasks :=
        if j = i then polled s.tasks task p.2.1.isPending (p.2.1.isPending && p.2.2.isNone)
        else s.tasks
      ⟨p.1, wake tasks p.2.2⟩
  | .markReady j =>
    let p := s.io.markReady j
    some ⟨p.1, wake s.tasks p.2⟩

end Waiters

def waiters (α : Type) (i : Interest) : System Waiters (WaitersLabel α) where
  init := ⟨.new, fun _ => .fresh⟩
  step := Waiters.step i

namespace Waiters

variable {i : Interest} {s t : Waiters} {w : Option ℕ} {task poller : ℕ} {tasks : ℕ → Waiter}
  {j : Interest} {budget : Option ℕ} {answers : List (Except Errno α)} {io' : ScheduledIo}
  {r : Poll (Except Errno α)}

/-- **The task is on record**: its waker is in the slot, or it has been woken, or
overtaken. -/
def Recorded (i : Interest) (s : Waiters) (task : ℕ) : Prop :=
  s.io.waker i = some task ∨ (s.tasks task).woken = true ∨ (s.tasks task).overtaken = true

theorem wake_of_ne (h : w ≠ some task) : wake tasks w task = tasks task := by
  cases w with
  | none => rfl
  | some other =>
    have hne : task ≠ other := fun he => h (by rw [he])
    exact update_of_ne hne _ _

@[simp] theorem wake_self (tasks : ℕ → Waiter) (task : ℕ) :
    wake tasks (some task) task = (tasks task).wake :=
  update_self ..

@[simp] theorem pending_wake (tasks : ℕ → Waiter) (w : Option ℕ) (task : ℕ) :
    (wake tasks w task).pending = (tasks task).pending := by
  by_cases h : w = some task
  · rw [h, wake_self]
    rfl
  · rw [wake_of_ne h]

theorem woken_or_overtaken_wake (w : Option ℕ) (h : (tasks task).woken ∨ (tasks task).overtaken) :
    (wake tasks w task).woken ∨ (wake tasks w task).overtaken := by
  by_cases hw : w = some task
  · rw [hw, wake_self]
    exact .inl rfl
  · rw [wake_of_ne hw]
    exact h

theorem polled_self (tasks : ℕ → Waiter) (task : ℕ) (pending stored : Bool) :
    polled tasks task pending stored task = ⟨pending, false, false⟩ :=
  update_self ..

theorem polled_of_ne (h : task ≠ poller) (tasks : ℕ → Waiter) (pending : Bool) :
    polled tasks poller pending false task = tasks task :=
  update_of_ne h ..

theorem markReady_recorded (h : s.Recorded i task) :
    Recorded i ⟨(s.io.markReady j).1, wake s.tasks (s.io.markReady j).2⟩ task := by
  rcases h with hslot | hor
  · by_cases hj : j = i
    · -- the waker leaves the slot to be woken
      subst hj
      have hw : (s.io.markReady j).2 = some task := by
        simpa [ScheduledIo.markReady] using hslot
      exact .inr (.inl (by simp [hw, Waiter.wake]))
    · refine .inl ?_
      rw [ScheduledIo.markReady, waker_setWaker_of_ne _ (Ne.symm hj), waker_setFlag]
      exact hslot
  · exact .inr (woken_or_overtaken_wake _ hor)

theorem pollIo_other_recorded (hj : j ≠ i)
    (hp : Reactor.pollIo s.io j poller budget answers = some (io', r, w))
    (h : s.Recorded i task) : Recorded i ⟨io', wake s.tasks w⟩ task := by
  rcases h with hslot | hor
  · exact .inl (((pollIo_spec hp).1 i (Ne.symm hj)).trans hslot)
  · exact .inr (woken_or_overtaken_wake w hor)

theorem pollIo_recorded (hp : Reactor.pollIo s.io i poller budget answers = some (io', r, w))
    (h : (s.tasks task).pending → s.Recorded i task)
    (hpend : (wake (polled s.tasks poller r.isPending (r.isPending && w.isNone)) w task).pending) :
    Recorded i ⟨io', wake (polled s.tasks poller r.isPending (r.isPending && w.isNone)) w⟩
      task := by
  rw [pending_wake] at hpend
  obtain rfl | hself := eq_or_ne task poller
  · rcases (pollIo_spec hp).2 with ⟨rfl, rfl, rfl⟩ | ⟨rfl, rfl, hslot⟩ | ⟨⟨x, rfl⟩, -, -⟩
    · exact .inr (.inl (by simp [Waiter.wake]))
    · exact .inl hslot
    · simp [polled_self, Poll.isPending] at hpend
  · have hkeep : ∀ (w : Option ℕ) (pending : Bool), w ≠ some task →
        (polled s.tasks poller pending false task).pending →
        Recorded i ⟨s.io, wake (polled s.tasks poller pending false) w⟩ task := by
      intro w pending hw hpend
      rw [polled_of_ne hself] at hpend
      have hsame : wake (polled s.tasks poller pending false) w task = s.tasks task := by
        rw [wake_of_ne hw, polled_of_ne hself]
      simp only [Recorded, hsame]
      exact h hpend
    rcases (pollIo_spec hp).2 with ⟨rfl, rfl, rfl⟩ | ⟨rfl, rfl, hslot⟩ | ⟨⟨x, rfl⟩, rfl, rfl⟩
    · exact hkeep _ _ (by simpa using Ne.symm hself) hpend
    · refine .inr (.inr ?_)
      simp [wake, polled, Poll.isPending, update_of_ne hself, Waiter.overtake]
    · exact hkeep _ _ (by simp) hpend

theorem recorded_step {l : WaitersLabel α} (h : ∀ task, (s.tasks task).pending → s.Recorded i task)
    (hs : s.step i l = some t) (task : ℕ) (hpend : (t.tasks task).pending) : t.Recorded i task := by
  cases l with
  | pollIo poller j budget answers =>
    obtain ⟨⟨io', r, w⟩, hp, rfl⟩ := Option.map_eq_some_iff.mp hs
    obtain rfl | hj := eq_or_ne j i
    · simp only [if_true] at hpend ⊢
      exact pollIo_recorded hp (h task) hpend
    · simp only [if_neg hj, pending_wake] at hpend ⊢
      exact pollIo_other_recorded hj hp (h task hpend)
  | markReady j =>
    cases hs
    rw [pending_wake] at hpend
    exact markReady_recorded (h task hpend)

/-- **A task that waits has its waker in the slot, or has been woken, or has been
overtaken**, in every reachable state. -/
theorem kept_woken_or_overtaken (h : (waiters α i).Reachable s) (task : ℕ)
    (hpend : (s.tasks task).pending = true) :
    s.io.waker i = some task ∨ (s.tasks task).woken = true ∨ (s.tasks task).overtaken = true := by
  refine System.inv_of_reachable
    (I := fun s => ∀ task, (s.tasks task).pending → s.Recorded i task) ?_
    (fun _ _ _ hI hs => recorded_step hI hs) h task hpend
  intro task hpend
  simp [waiters, Waiter.fresh] at hpend

/-- Two tasks accept on one listener, and nobody connects: the second takes the slot
from the first. -/
theorem exists_overtaken :
    ∃ s : Waiters, (waiters Unit .read).Reachable s ∧ (s.tasks 0).pending = true ∧
      s.io.waker .read ≠ some 0 ∧ (s.tasks 0).woken = false :=
  ⟨_, ⟨[.pollIo 0 .read none [.error eagain], .pollIo 1 .read none []], rfl⟩, rfl, by decide, rfl⟩

theorem overtaken_of_two_accepts :
    ∃ s : Waiters, (waiters Unit .read).Reachable s ∧ s.io.waker .read = none ∧
      (s.tasks 0).woken = false ∧ (s.tasks 0).overtaken = true ∧ (s.tasks 1).woken = true := by
  have hr : (waiters Unit .read).Reachable _ :=
    ⟨[.pollIo 0 .read none [.error eagain], .pollIo 1 .read none [], .markReady .read], rfl⟩
  refine ⟨_, hr, rfl, rfl, ?_, rfl⟩
  rcases kept_woken_or_overtaken hr 0 rfl with h | h | h
  · cases h
  · cases h
  · exact h

end Waiters

end RustyTokio.Reactor

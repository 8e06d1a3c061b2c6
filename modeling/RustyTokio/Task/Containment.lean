import RustyTokio.Task.Completion

/-!
# Which panics stay inside `run`

`Task::run` catches a panic of the poll.  The future is dropped in other places too, and its
destructor may panic there: on the two abort paths, while the poll unwinds, and when the return of
`run` drops the last reference to a pending task.  The output, or the payload of a panic, is
dropped inside `run` when the hook holds the last reference to the join cell, which it does once
the `JoinHandle` is gone.  Wakers do not panic here.
-/

namespace RustyTokio.Task

open Transition

variable {T P : Type} {s t : TaskState T P} {l : Label T P}

/-- A panic gets out of `run` from here: a destructor that nothing catches, or a
first abort that lands in a `begin_poll`. -/
def unwinds (s : TaskState T P) (l : Label T P) : Bool := dropUnwinds s l || abortHitsBegin s l

structure Orderly (s : TaskState T P) : Prop where
  begun : BeginInv s
  sound : Sound s
  contained : Contained s

theorem Orderly.step (h : Orderly s)
    (hu : unwinds s l = false) (hs : s.step l = some t) : Orderly t := by
  rw [unwinds, Bool.or_eq_false_iff] at hu
  have hbegun := h.begun.step hu.2 hs
  exact ⟨hbegun, sound_step h.sound hs hbegun.unfailed, h.contained.step hs hu.1 hbegun.unfailed⟩

end RustyTokio.Task

import RustyTokio.Sync.Notify

/-!
# Waiting for a shutdown

`Shared::shutdown_notified` and `Shared::begin_graceful_shutdown` of `src/runtime/mod.rs`.  A future
of the first reads the flag `shutting_down`, and goes on to poll a `Notified` of `shutdown_signal`
if it is not set; the second sets the flag and calls `notify_waiters`, which banks nothing.
-/

namespace RustyTokio.Shutdown

open Transition Coop Notify Option

structure Waiter where
  made : Bool
  /-- The poll under way has found the flag not set: the waker and the budget it goes on
  with to the inner future. -/
  next : Option (ℕ × Option ℕ)
  ended : Bool
  deriving DecidableEq

structure World where
  shuttingDown : Bool
  signal : Notify.World
  waiters : List Waiter
  /-- A call of `begin_graceful_shutdown` has set the flag, and not called
  `notify_waiters` yet. -/
  notifying : Bool
  /-- The futures whose last poll had no budget left; it has woken its own task. -/
  yielded : List ℕ
  deriving DecidableEq

inductive Label where
  | start
  | poll (j : ℕ) (waker : ℕ) (budget : Option ℕ)
  | enter (j : ℕ)
  | advance (j : ℕ)
  | drop (j : ℕ)
  | begin
  | notify
  | fire (k : ℕ)
  deriving DecidableEq

def noteYield (ys : List ℕ) (j : ℕ) (budget : Option ℕ) : List ℕ :=
  if (pollProceed budget).isNone then j :: ys else ys.filter (· != j)

namespace World

def idle (w : World) (j : ℕ) (f : Waiter) : Bool :=
  !f.ended && f.next.isNone &&
    match w.signal.futures[j]? with
    | none => false
    | some g => g.status.isLive && decide (g.pc = .idle)

def allReturned (w : World) : Bool :=
  !w.notifying && w.signal.notifiers.all fun n => n.todo.isEmpty

def step (w : World) : Label → Option World
  | .start =>
    -- the place of the inner future is kept free for it
    some
      { w with
        signal := { w.signal with futures := w.signal.futures ++ [.new] }
        waiters := w.waiters ++ [⟨false, none, false⟩] }
  | .poll j waker budget =>
    w.waiters[j]?.bind fun f =>
      if w.idle j f then
        if w.shuttingDown then
          some { w with waiters := w.waiters.set j { f with ended := true } }
        else some { w with waiters := w.waiters.set j { f with next := some (waker, budget) } }
      else none
  | .enter j =>
    match w.waiters[j]? with
    | some ⟨_, some (waker, budget), ended⟩ =>
      (w.signal.step (.poll j waker budget)).map fun signal =>
        { w with
          signal := signal
          waiters := w.waiters.set j ⟨true, none, ended⟩
          yielded := noteYield w.yielded j budget }
    | _ => none
  | .advance j => (w.signal.step (.advance j)).map fun signal => { w with signal := signal }
  | .drop j =>
    w.waiters[j]?.bind fun f =>
      if w.idle j f then
        (w.signal.step (.drop j)).map fun signal =>
          { w with signal := signal, waiters := w.waiters.set j { f with ended := true } }
      else none
  | .begin =>
    if w.allReturned then some { w with shuttingDown := true, notifying := true } else none
  | .notify =>
    if w.notifying then
      (w.signal.step .notifyWaiters).map fun signal =>
        { w with signal := signal, notifying := false }
    else none
  | .fire k => (w.signal.step (.fire k)).map fun signal => { w with signal := signal }

/-! ## What a step can do -/

inductive Steps (w : World) : Label → World → Prop where
  | start {s} (hs : Notify.World.Steps w.signal .start s) :
      Steps w .start { w with signal := s, waiters := w.waiters ++ [⟨false, none, false⟩] }
  | pollReady {j waker budget f} (hj : w.waiters[j]? = some f) (hf : w.idle j f)
      (hd : w.shuttingDown) :
      Steps w (.poll j waker budget) { w with waiters := w.waiters.set j { f with ended := true } }
  | pollPasses {j waker budget f} (hj : w.waiters[j]? = some f) (hf : w.idle j f)
      (hd : w.shuttingDown = false) :
      Steps w (.poll j waker budget)
        { w with waiters := w.waiters.set j { f with next := some (waker, budget) } }
  | enter {j waker budget s made ended}
      (hj : w.waiters[j]? = some ⟨made, some (waker, budget), ended⟩)
      (hs : Notify.World.Steps w.signal (.poll j waker budget) s) :
      Steps w (.enter j)
        { w with
          signal := s
          waiters := w.waiters.set j ⟨true, none, ended⟩
          yielded := noteYield w.yielded j budget }
  | advance {j s} (hs : Notify.World.Steps w.signal (.advance j) s) :
      Steps w (.advance j) { w with signal := s }
  | drop {j f s} (hj : w.waiters[j]? = some f) (hf : w.idle j f)
      (hs : Notify.World.Steps w.signal (.drop j) s) :
      Steps w (.drop j)
        { w with signal := s, waiters := w.waiters.set j { f with ended := true } }
  | begin (hr : w.allReturned) :
      Steps w .begin { w with shuttingDown := true, notifying := true }
  | notify {s} (hn : w.notifying) (hs : Notify.World.Steps w.signal .notifyWaiters s) :
      Steps w .notify { w with signal := s, notifying := false }
  | fire {k s} (hs : Notify.World.Steps w.signal (.fire k) s) :
      Steps w (.fire k) { w with signal := s }

theorem steps_of_step {w v : World} {l : Label} (h : w.step l = some v) : Steps w l v := by
  cases l with
  | start =>
    cases h
    exact .start .start
  | poll j waker budget =>
    obtain ⟨f, hj, h⟩ := bind_eq_some_iff.mp h
    obtain ⟨hf, h⟩ := ite_none_right_eq_some.mp h
    by_cases hd : w.shuttingDown
    · rw [if_pos hd] at h
      exact some.inj h ▸ .pollReady hj hf hd
    · rw [if_neg hd] at h
      exact some.inj h ▸ .pollPasses hj hf (by simpa using hd)
  | enter j =>
    simp only [step] at h
    split at h
    next made waker budget ended hj =>
      obtain ⟨s, hs, rfl⟩ := map_eq_some_iff.mp h
      exact .enter hj (Notify.World.steps_of_step hs)
    · cases h
  | advance j =>
    obtain ⟨s, hs, rfl⟩ := map_eq_some_iff.mp h
    exact .advance (Notify.World.steps_of_step hs)
  | drop j =>
    obtain ⟨f, hj, h⟩ := bind_eq_some_iff.mp h
    obtain ⟨hf, h⟩ := ite_none_right_eq_some.mp h
    obtain ⟨s, hs, rfl⟩ := map_eq_some_iff.mp h
    exact .drop hj hf (Notify.World.steps_of_step hs)
  | begin =>
    obtain ⟨hr, rfl⟩ := of_guard h
    exact .begin hr
  | notify =>
    obtain ⟨hn, h⟩ := ite_none_right_eq_some.mp h
    obtain ⟨s, hs, rfl⟩ := map_eq_some_iff.mp h
    exact .notify hn (Notify.World.steps_of_step hs)
  | fire k =>
    obtain ⟨s, hs, rfl⟩ := map_eq_some_iff.mp h
    exact .fire (Notify.World.steps_of_step hs)

end World

def shutdownSystem : System World Label where
  init := ⟨false, notifySystem.init, [], false, []⟩
  step := World.step

end RustyTokio.Shutdown

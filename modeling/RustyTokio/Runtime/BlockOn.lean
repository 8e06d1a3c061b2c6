import Mathlib.Data.List.Chain
import RustyTokio.Transition.Futures
import RustyTokio.Transition.System

/-!
# `block_on` and its parker

`block_on_inner` (`src/runtime/mod.rs`) polls its future and parks between two polls on a
`BlockOnWaker`: a flag under a lock, and a condition variable.  `park` tests the flag, waits while
it is down, and takes it down; a wait gives the lock up meanwhile, and may end although nobody has
notified.  `wake_by_ref` puts the flag up, and notifies when it has let go of the lock.
-/

namespace RustyTokio.Runtime.BlockOn

open Transition List Option

/-- Where the thread in `block_on_inner` is. -/
inductive Pc where
  | polling
  /-- In `park`, about to test the flag. -/
  | testing
  | waiting
  | returned
  deriving DecidableEq

/-- A poll has begun; a wake has put the flag up. -/
inductive Event where
  | polled
  | woken
  deriving DecidableEq

structure World where
  notified : Bool
  pc : Pc
  /-- The calls of `wake_by_ref` that have put the flag up and have yet to notify. -/
  notifying : ℕ
  log : List Event
  deriving DecidableEq

inductive Label where
  | pending
  | ready
  | test
  /-- The wait ends although nobody has notified. -/
  | spurious
  | wake
  | notify
  deriving DecidableEq

namespace World

/-- The loop of `park`, with the lock held. -/
def test (w : World) : World :=
  if w.notified then { w with notified := false, pc := .polling, log := w.log ++ [.polled] }
  else { w with pc := .waiting }

/-- A notification ends the wait, if there is one: no other thread waits here. -/
def notifyOne (w : World) : Pc := if w.pc = .waiting then .testing else w.pc

def step (w : World) : Label → Option World
  | .pending => if w.pc = .polling then some { w with pc := .testing } else none
  | .ready => if w.pc = .polling then some { w with pc := .returned } else none
  | .test => if w.pc = .testing then some w.test else none
  | .spurious => if w.pc = .waiting then some { w with pc := .testing } else none
  | .wake => some { w with
      notified := true, notifying := w.notifying + 1, log := w.log ++ [.woken] }
  | .notify =>
    if 0 < w.notifying then some { w with pc := w.notifyOne, notifying := w.notifying - 1 }
    else none

end World

def blockOn : System World Label where
  init := ⟨false, .polling, 0, [.polled]⟩
  step := World.step

namespace World

variable {w v : World} {l : Label}

/-- The flag says whether a wake has come since the last poll; between two polls there is one; and
a thread that waits with the flag up is about to be notified. -/
structure Kept (w : World) : Prop where
  flag : w.notified = true ↔ w.log.getLast? = some .woken
  apart : w.log.IsChain fun a b => a = .woken ∨ b = .woken
  told : w.pc = .waiting → w.notified = true → 0 < w.notifying

theorem Kept.snoc (h : w.Kept) {e : Event} (he : e = .woken ∨ w.notified = true) :
    (w.log ++ [e]).IsChain fun a b => a = .woken ∨ b = .woken := by
  refine isChain_append.mpr ⟨h.apart, .singleton e, fun a ha b hb => ?_⟩
  obtain rfl : e = b := by simpa using hb
  rcases he with he | hn
  · exact .inr he
  · exact .inl (some.inj (ha.symm.trans (h.flag.mp hn)))

theorem Kept.test (h : w.Kept) : w.test.Kept := by
  unfold World.test
  split
  next hn => exact ⟨by simp, h.snoc (.inr hn), nofun⟩
  next hn => exact ⟨h.flag, h.apart, fun _ hup => absurd hup hn⟩

theorem Kept.step (h : w.Kept) (hs : w.step l = some v) : v.Kept := by
  cases l with
  | pending | ready | spurious =>
    obtain ⟨-, rfl⟩ := of_guard hs
    exact ⟨h.flag, h.apart, nofun⟩
  | test =>
    obtain ⟨-, rfl⟩ := of_guard hs
    exact h.test
  | wake =>
    cases hs
    exact ⟨by simp, h.snoc (.inl rfl), fun _ _ => Nat.succ_pos _⟩
  | notify =>
    obtain ⟨-, rfl⟩ := of_guard hs
    refine ⟨h.flag, h.apart, fun hp => ?_⟩
    -- whoever was waiting is not any more
    change (if w.pc = .waiting then Pc.testing else w.pc) = .waiting at hp
    split at hp <;> contradiction

theorem kept_of_reachable (h : blockOn.Reachable w) : w.Kept :=
  System.inv_of_reachable (I := Kept) ⟨by decide, .singleton _, by decide⟩
    (fun _ _ _ hw hs => hw.step hs) h

/-- A step of the call, or of a wake that is under way. -/
def own : Label → Prop
  | .pending | .test | .notify => True
  | _ => False

end World
end RustyTokio.Runtime.BlockOn

import Mathlib.Algebra.GroupWithZero.Nat
import RustyTokio.Transition.Lot
import RustyTokio.Transition.System

/-!
# `Barrier`

`src/sync/barrier.rs`.  A call of `wait` first counts itself as an arrival.  The arrival that
completes a round starts the next one, wakes everybody and returns; any other arrival waits until
the generation is not the one it has arrived in.
-/

namespace RustyTokio.Barrier

open Transition Option

structure State where
  arrived : ℕ
  generation : ℕ
  wakers : List ℕ
  deriving DecidableEq

namespace State

def new (n : ℕ) : Option State := if 0 < n then some ⟨0, 0, []⟩ else none

/-- The first part of `Barrier::wait`: the generation it arrives in and, if it completes the
round, the wakers it takes. -/
def arrive (n : ℕ) (s : State) : State × ℕ × Option (List ℕ) :=
  if s.arrived + 1 = n then
    (⟨0, (s.generation + 1) % 2 ^ 64, []⟩, s.generation, some s.wakers)
  else ({ s with arrived := s.arrived + 1 }, s.generation, none)

def recheck (s : State) (myGeneration waker : ℕ) : State × Poll Unit :=
  if s.generation ≠ myGeneration then (s, .ready ())
  else ({ s with wakers := s.wakers ++ [waker] }, .pending)

end State

inductive Stage where
  | start
  | arrive
  | recheck (myGeneration : ℕ)
  | waiting (myGeneration : ℕ)
  | ended
  deriving DecidableEq

def Stage.onPoll : Stage → Option Stage
  | .start => some .arrive
  | .waiting myGeneration => some (.recheck myGeneration)
  | _ => none

/-- The future can be dropped: no poll is going on, and it is not over. -/
def Stage.idle : Stage → Bool
  | .start | .waiting _ => true
  | _ => false

structure Call where
  stage : Stage
  /-- Which arrival it is, from zero, once it has arrived. -/
  arrival : Option ℕ
  isLeader : Option Bool
  deriving DecidableEq

structure World where
  state : State
  futures : List (Sleeper Call)
  /-- The wakers that calls have taken out of the list and have yet to wake. -/
  hands : List (List ℕ)
  arrivals : List ℕ
  deriving DecidableEq

inductive Label where
  | wait
  | poll (i : ℕ) (waker : ℕ)
  | advance (i : ℕ)
  | drop (i : ℕ)
  | wakeNext (k : ℕ)
  deriving DecidableEq

namespace World

def goto (w : World) (i : ℕ) (k : Call) (waker : ℕ) (phase : Phase) : World :=
  { w with futures := w.futures.set i ⟨k, waker, phase⟩ }

def advance (n : ℕ) (w : World) (i : ℕ) (f : Sleeper Call) : Option World :=
  match f.kind.stage with
  | .arrive =>
    match w.state.arrive n with
    | (s, _, some wakers) =>
      some
        (goto { w with state := s, hands := w.hands ++ [wakers], arrivals := w.arrivals ++ [i] }
          i ⟨.ended, some w.arrivals.length, some true⟩ f.waker .finished)
    | (s, myGeneration, none) =>
      some
        (goto { w with state := s, arrivals := w.arrivals ++ [i] }
          i ⟨.recheck myGeneration, some w.arrivals.length, none⟩ f.waker .fresh)
  | .recheck myGeneration =>
    match w.state.recheck myGeneration f.waker with
    | (s, .ready _) =>
      some (goto { w with state := s } i ⟨.ended, f.kind.arrival, some false⟩ f.waker .finished)
    | (s, .pending) =>
      some
        (goto { w with state := s } i ⟨.waiting myGeneration, f.kind.arrival, none⟩ f.waker
          (.parked false))
  | _ => none

def step (n : ℕ) (w : World) : Label → Option World
  | .wait => some { w with futures := w.futures ++ [⟨⟨.start, none, none⟩, 0, .fresh⟩] }
  | .poll i waker =>
    (w.futures[i]?).bind fun f => f.kind.stage.onPoll.map fun stage =>
      w.goto i { f.kind with stage := stage } waker .fresh
  | .advance i => (w.futures[i]?).bind fun f => w.advance n i f
  | .drop i =>
    (w.futures[i]?).bind fun f =>
      if f.kind.stage.idle then
        some (w.goto i { f.kind with stage := .ended } f.waker .dropped)
      else none
  | .wakeNext k =>
    (Lot.wakeNext w.futures w.hands k).map fun p => { w with futures := p.1, hands := p.2 }

/-! ## What a step can do -/

inductive Steps (n : ℕ) (w : World) : Label → World → Prop where
  | wait :
      Steps n w .wait { w with futures := w.futures ++ [⟨⟨.start, none, none⟩, 0, .fresh⟩] }
  | poll {i f waker stage} (hi : w.futures[i]? = some f) (hk : f.kind.stage.onPoll = some stage) :
      Steps n w (.poll i waker) (w.goto i { f.kind with stage := stage } waker .fresh)
  | leads {i f} (hi : w.futures[i]? = some f) (hk : f.kind.stage = .arrive)
      (hn : w.state.arrived + 1 = n) :
      Steps n w (.advance i)
        (goto
          { w with
            state := ⟨0, (w.state.generation + 1) % 2 ^ 64, []⟩
            hands := w.hands ++ [w.state.wakers]
            arrivals := w.arrivals ++ [i] }
          i ⟨.ended, some w.arrivals.length, some true⟩ f.waker .finished)
  | arrives {i f} (hi : w.futures[i]? = some f) (hk : f.kind.stage = .arrive)
      (hn : w.state.arrived + 1 ≠ n) :
      Steps n w (.advance i)
        (goto
          { w with
            state := { w.state with arrived := w.state.arrived + 1 }
            arrivals := w.arrivals ++ [i] }
          i ⟨.recheck w.state.generation, some w.arrivals.length, none⟩ f.waker .fresh)
  | returns {i f my} (hi : w.futures[i]? = some f) (hk : f.kind.stage = .recheck my)
      (hg : w.state.generation ≠ my) :
      Steps n w (.advance i)
        (w.goto i ⟨.ended, f.kind.arrival, some false⟩ f.waker .finished)
  | parks {i f my} (hi : w.futures[i]? = some f) (hk : f.kind.stage = .recheck my)
      (hg : w.state.generation = my) :
      Steps n w (.advance i)
        (goto { w with state := { w.state with wakers := w.state.wakers ++ [f.waker] } } i
          ⟨.waiting my, f.kind.arrival, none⟩ f.waker (.parked false))
  | drop {i f} (hi : w.futures[i]? = some f) (hk : f.kind.stage.idle) :
      Steps n w (.drop i) (w.goto i { f.kind with stage := .ended } f.waker .dropped)
  | wakeNext {k t hs} (hk : Lot.wakeNext w.futures w.hands k = some (t, hs)) :
      Steps n w (.wakeNext k) { w with futures := t, hands := hs }

variable {n : ℕ} {w v : World}

theorem steps_advance {i : ℕ} (h : w.step n (.advance i) = some v) : Steps n w (.advance i) v := by
  obtain ⟨f, hi, h⟩ := bind_eq_some_iff.mp h
  rw [advance] at h
  split at h
  next hk =>
    rw [State.arrive] at h
    by_cases hn : w.state.arrived + 1 = n
    · rw [if_pos hn] at h
      cases h
      exact .leads hi hk hn
    · rw [if_neg hn] at h
      cases h
      exact .arrives hi hk hn
  next my hk =>
    rw [State.recheck] at h
    by_cases hg : w.state.generation = my
    · rw [if_neg (not_not.mpr hg)] at h
      cases h
      exact .parks hi hk hg
    · rw [if_pos hg] at h
      cases h
      exact .returns hi hk hg
  · cases h

theorem steps_of_step {l : Label} (h : w.step n l = some v) : Steps n w l v := by
  cases l with
  | wait =>
    cases h
    exact .wait
  | poll i waker =>
    obtain ⟨f, hi, h⟩ := bind_eq_some_iff.mp h
    obtain ⟨stage, hk, rfl⟩ := map_eq_some_iff.mp h
    exact .poll hi hk
  | advance i => exact steps_advance h
  | drop i =>
    obtain ⟨f, hi, h⟩ := bind_eq_some_iff.mp h
    obtain ⟨hk, rfl⟩ := of_guard h
    exact .drop hi hk
  | wakeNext k =>
    obtain ⟨p, hk, rfl⟩ := map_eq_some_iff.mp h
    exact .wakeNext hk

end World

def barrier (n : ℕ) (s : State) : System World Label where
  init := ⟨s, [], [], []⟩
  step := World.step n

end RustyTokio.Barrier

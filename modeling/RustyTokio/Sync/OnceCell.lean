import RustyTokio.Transition.Lot
import RustyTokio.Transition.System

/-!
# `OnceCell`

`src/sync/once_cell.rs`.  The state and the wakers of those who wait are under one lock, the value
is not: the caller that moved the state to `Initializing` runs its initialiser, writes the value,
and only then takes the lock again to publish it.
-/

namespace RustyTokio.OnceCell

open Transition Option

variable {α : Type}

inductive State where
  | uninit
  | initializing
  | initialized
  deriving DecidableEq

inductive Claim where
  | ready
  | initializing
  | mustInitialize
  deriving DecidableEq

inductive SetError (α : Type) where
  | alreadyInitialized (value : α)
  | initializingElsewhere (value : α)
  deriving DecidableEq

structure Inner where
  state : State
  wakers : List ℕ
  deriving DecidableEq

namespace Inner

def tryClaim (s : Inner) : Inner × Claim :=
  match s.state with
  | .initialized => (s, .ready)
  | .initializing => (s, .initializing)
  | .uninit => ({ s with state := .initializing }, .mustInitialize)

def recheck (s : Inner) (waker : ℕ) : Inner × Poll Unit :=
  if s.state ≠ .initializing then (s, .ready ())
  else ({ s with wakers := s.wakers ++ [waker] }, .pending)

def publish (s : Inner) : Inner × List ℕ := ({ state := .initialized, wakers := [] }, s.wakers)

/-- `Drop for ResetGuard` while it is armed, with the wakers it takes. -/
def reset (s : Inner) : Inner × List ℕ := ({ state := .uninit, wakers := [] }, s.wakers)

def set (s : Inner) (value : α) : Inner × Except (SetError α) (List ℕ) :=
  match s.state with
  | .initialized => (s, .error (.alreadyInitialized value))
  | .initializing => (s, .error (.initializingElsewhere value))
  | .uninit => ({ state := .initialized, wakers := [] }, .ok s.wakers)

end Inner

inductive Stage (α : Type) where
  | start
  | tryClaim
  | recheck
  | waiting
  /-- It has claimed the cell and awaits its initialiser, in a poll or between polls. -/
  | running (polled : Bool)
  | write (value : α)
  | publish
  | resetting
  | ended
  deriving DecidableEq

namespace Stage

def inFlight : Stage α → Bool
  | .running _ | .write _ | .publish | .resetting => true
  | _ => false

def hasWritten : Stage α → Bool
  | .publish => true
  | _ => false

def onPoll : Stage α → Option (Stage α)
  | .start => some .tryClaim
  | .waiting => some .recheck
  | .running false => some (.running true)
  | _ => none

def onDrop : Stage α → Option (Stage α)
  | .start => some .ended
  | .waiting => some .ended
  | .running false => some .resetting
  | _ => none

end Stage

/-- A cell with everybody around it.  A future is parked from a poll that leaves its waker in
the list to the next poll, and is neither new nor parked while a poll is going on. -/
structure World (α : Type) where
  inner : Inner
  value : Option α
  futures : List (Sleeper (Stage α))
  hands : List (List ℕ)
  writes : List α
  /-- What the references returned so far denoted when they were returned. -/
  returned : List (Option α)
  deriving DecidableEq

inductive Label (α : Type) where
  | getOrInit
  | poll (i : ℕ) (waker : ℕ)
  | advance (i : ℕ)
  | suspend (i : ℕ)
  | complete (i : ℕ) (value : α)
  | panic (i : ℕ)
  | drop (i : ℕ)
  | set (value : α)
  | get
  | wakeNext (k : ℕ)
  deriving DecidableEq

namespace World

def goto (w : World α) (i : ℕ) (stage : Stage α) (waker : ℕ) (phase : Phase) : World α :=
  { w with futures := w.futures.set i ⟨stage, waker, phase⟩ }

def advance (w : World α) (i : ℕ) (f : Sleeper (Stage α)) : Option (World α) :=
  match f.kind with
  | .tryClaim =>
    match w.inner.tryClaim with
    | (s, .ready) =>
      some
        (goto { w with inner := s, returned := w.returned ++ [w.value] } i .ended f.waker .finished)
    | (s, .initializing) => some (goto { w with inner := s } i .recheck f.waker .fresh)
    | (s, .mustInitialize) => some (goto { w with inner := s } i (.running true) f.waker .fresh)
  | .recheck =>
    match w.inner.recheck f.waker with
    | (s, .ready _) => some (goto { w with inner := s } i .tryClaim f.waker .fresh)
    | (s, .pending) => some (goto { w with inner := s } i .waiting f.waker (.parked false))
  | .write value =>
    some
      (goto { w with value := some value, writes := w.writes ++ [value] } i .publish f.waker .fresh)
  | .publish =>
    some
      (goto
        { w with
          inner := w.inner.publish.1
          hands := w.hands ++ [w.inner.publish.2]
          returned := w.returned ++ [w.value] } i .ended f.waker .finished)
  | .resetting =>
    some
      (goto { w with inner := w.inner.reset.1, hands := w.hands ++ [w.inner.reset.2] }
        i .ended f.waker .dropped)
  | _ => none

def step (w : World α) : Label α → Option (World α)
  | .getOrInit => some { w with futures := w.futures ++ [⟨.start, 0, .fresh⟩] }
  | .poll i waker =>
    (w.futures[i]?).bind fun f => f.kind.onPoll.map fun stage => w.goto i stage waker .fresh
  | .advance i => (w.futures[i]?).bind fun f => w.advance i f
  | .suspend i =>
    (w.futures[i]?).bind fun f =>
      match f.kind with
      | .running true => some (w.goto i (.running false) f.waker .fresh)
      | _ => none
  | .complete i value =>
    (w.futures[i]?).bind fun f =>
      match f.kind with
      | .running true => some (w.goto i (.write value) f.waker .fresh)
      | _ => none
  | .panic i =>
    (w.futures[i]?).bind fun f =>
      match f.kind with
      | .running true => some (w.goto i .resetting f.waker .fresh)
      | _ => none
  | .drop i =>
    (w.futures[i]?).bind fun f =>
      f.kind.onDrop.map fun stage => w.goto i stage f.waker .dropped
  | .set value =>
    match w.inner.set value with
    | (s, .ok wakers) =>
      some
        { w with
          inner := s
          value := some value
          writes := w.writes ++ [value]
          hands := w.hands ++ [wakers] }
    | (s, .error _) => some { w with inner := s }
  | .get =>
    if w.inner.state = .initialized then
      some { w with returned := w.returned ++ [w.value] }
    else some w
  | .wakeNext k =>
    (Lot.wakeNext w.futures w.hands k).map fun p => { w with futures := p.1, hands := p.2 }

/-! ## What a step can do -/

inductive Steps (w : World α) : Label α → World α → Prop where
  | getOrInit : Steps w .getOrInit { w with futures := w.futures ++ [⟨.start, 0, .fresh⟩] }
  | moves {l i f} (hi : w.futures[i]? = some f) (stage : Stage α) (waker : ℕ) (phase : Phase)
      (hf : stage.inFlight = f.kind.inFlight) (hw : stage.hasWritten = f.kind.hasWritten)
      (hp : phase.isParked = false) : Steps w l (w.goto i stage waker phase)
  | finds {i f} (hi : w.futures[i]? = some f) (hk : f.kind = .tryClaim)
      (hs : w.inner.state = .initialized) :
      Steps w (.advance i)
        (goto { w with returned := w.returned ++ [w.value] } i .ended f.waker .finished)
  | claims {i f} (hi : w.futures[i]? = some f) (hk : f.kind = .tryClaim)
      (hs : w.inner.state = .uninit) :
      Steps w (.advance i)
        (goto { w with inner := { w.inner with state := .initializing } } i (.running true)
          f.waker .fresh)
  | parks {i f} (hi : w.futures[i]? = some f) (hk : f.kind = .recheck)
      (hs : w.inner.state = .initializing) :
      Steps w (.advance i)
        (goto { w with inner := { w.inner with wakers := w.inner.wakers ++ [f.waker] } } i
          .waiting f.waker (.parked false))
  | writes {i f value} (hi : w.futures[i]? = some f) (hk : f.kind = .write value) :
      Steps w (.advance i)
        (goto { w with value := some value, writes := w.writes ++ [value] } i .publish f.waker
          .fresh)
  | publishes {i f} (hi : w.futures[i]? = some f) (hk : f.kind = .publish) :
      Steps w (.advance i)
        (goto
          { w with
            inner := ⟨.initialized, []⟩
            hands := w.hands ++ [w.inner.wakers]
            returned := w.returned ++ [w.value] } i .ended f.waker .finished)
  | resets {i f} (hi : w.futures[i]? = some f) (hk : f.kind = .resetting) :
      Steps w (.advance i)
        (goto { w with inner := ⟨.uninit, []⟩, hands := w.hands ++ [w.inner.wakers] }
          i .ended f.waker .dropped)
  | sets {value} (hs : w.inner.state = .uninit) :
      Steps w (.set value)
        { w with
          inner := ⟨.initialized, []⟩
          value := some value
          writes := w.writes ++ [value]
          hands := w.hands ++ [w.inner.wakers] }
  | gets (hs : w.inner.state = .initialized) :
      Steps w .get { w with returned := w.returned ++ [w.value] }
  | fails {l} : Steps w l w
  | wakeNext {k t hs} (hk : Lot.wakeNext w.futures w.hands k = some (t, hs)) :
      Steps w (.wakeNext k) { w with futures := t, hands := hs }

variable {k stage : Stage α} {l : Label α} {i : ℕ} {w v : World α}

theorem onPoll_inFlight (h : k.onPoll = some stage) :
    stage.inFlight = k.inFlight ∧ stage.hasWritten = k.hasWritten := by
  cases k with
  | start | waiting =>
    cases h
    exact ⟨rfl, rfl⟩
  | running polled =>
    cases polled with
    | false =>
      cases h
      exact ⟨rfl, rfl⟩
    | true => simp [Stage.onPoll] at h
  | _ => simp [Stage.onPoll] at h

theorem onDrop_inFlight (h : k.onDrop = some stage) :
    stage.inFlight = k.inFlight ∧ stage.hasWritten = k.hasWritten := by
  cases k with
  | start | waiting =>
    cases h
    exact ⟨rfl, rfl⟩
  | running polled =>
    cases polled with
    | false =>
      cases h
      exact ⟨rfl, rfl⟩
    | true => simp [Stage.onDrop] at h
  | _ => simp [Stage.onDrop] at h

theorem steps_of_running (h : ((w.futures[i]?).bind fun f => match f.kind with
      | .running true => some (w.goto i stage f.waker .fresh)
      | _ => none) = some v)
    (hf : stage.inFlight) (hw : stage.hasWritten = false) : Steps w l v := by
  obtain ⟨f, hi, h⟩ := bind_eq_some_iff.mp h
  split at h
  next hk =>
    cases h
    exact .moves hi stage f.waker .fresh (by rw [hk, hf]; rfl) (by rw [hk, hw]; rfl) rfl
  · cases h

theorem steps_advance (h : w.step (.advance i) = some v) : Steps w (.advance i) v := by
  obtain ⟨f, hi, h⟩ := bind_eq_some_iff.mp h
  rw [advance] at h
  split at h
  next hk =>
    rw [Inner.tryClaim] at h
    cases hs : w.inner.state with
    | initialized =>
      rw [hs] at h
      cases h
      exact .finds hi hk hs
    | initializing =>
      rw [hs] at h
      cases h
      exact .moves hi .recheck f.waker .fresh (by rw [hk]; rfl) (by rw [hk]; rfl) rfl
    | uninit =>
      rw [hs] at h
      cases h
      exact .claims hi hk hs
  next hk =>
    rw [Inner.recheck] at h
    by_cases hs : w.inner.state = .initializing
    · rw [if_neg (not_not.mpr hs)] at h
      cases h
      exact .parks hi hk hs
    · rw [if_pos hs] at h
      cases h
      exact .moves hi .tryClaim f.waker .fresh (by rw [hk]; rfl) (by rw [hk]; rfl) rfl
  next value hk =>
    cases h
    exact .writes hi hk
  next hk =>
    cases h
    exact .publishes hi hk
  next hk =>
    cases h
    exact .resets hi hk
  · cases h

theorem steps_of_step (h : w.step l = some v) : Steps w l v := by
  cases l with
  | getOrInit =>
    cases h
    exact .getOrInit
  | poll i waker =>
    obtain ⟨f, hi, h⟩ := bind_eq_some_iff.mp h
    obtain ⟨stage, hk, rfl⟩ := map_eq_some_iff.mp h
    exact .moves hi stage waker .fresh (onPoll_inFlight hk).1 (onPoll_inFlight hk).2 rfl
  | advance i => exact steps_advance h
  | suspend i | complete i value | panic i => exact steps_of_running h rfl rfl
  | drop i =>
    obtain ⟨f, hi, h⟩ := bind_eq_some_iff.mp h
    obtain ⟨stage, hk, rfl⟩ := map_eq_some_iff.mp h
    exact .moves hi stage f.waker .dropped (onDrop_inFlight hk).1 (onDrop_inFlight hk).2 rfl
  | set value =>
    rw [step, Inner.set] at h
    cases hs : w.inner.state with
    | uninit =>
      rw [hs] at h
      cases h
      exact .sets hs
    | initializing | initialized =>
      rw [hs] at h
      cases h
      exact .fails
  | get =>
    rw [step] at h
    by_cases hs : w.inner.state = .initialized
    · rw [if_pos hs] at h
      cases h
      exact .gets hs
    · rw [if_neg hs] at h
      cases h
      exact .fails
  | wakeNext k =>
    obtain ⟨p, hk, rfl⟩ := map_eq_some_iff.mp h
    exact .wakeNext hk

end World

def onceCell (value : Option α) : System (World α) (Label α) where
  init := ⟨⟨if value.isSome then .initialized else .uninit, []⟩, value, [], [], value.toList, []⟩
  step := World.step

end RustyTokio.OnceCell

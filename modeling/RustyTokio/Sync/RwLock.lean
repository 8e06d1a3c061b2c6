import RustyTokio.Transition.System
import RustyTokio.Transition.Futures

/-!
# The reader/writer lock

`src/sync/rwlock.rs`.  The state under the lock's own mutex is the writer bit, the reader count and
the queue of parked futures, each with its mode and the waker of its last pending poll.
-/

namespace RustyTokio.RwLock

open Transition List Option Bool

inductive Mode where
  | read
  | write
  deriving DecidableEq

structure State (ω : Type) where
  writerLocked : Bool
  readers : ℕ
  waiters : List (Mode × ω)
  deriving DecidableEq

namespace State

variable {ω : Type}

def new : State ω := ⟨false, 0, []⟩

def writerPending (s : State ω) : Bool :=
  s.waiters.any fun p => decide (p.1 = .write)

/-- The loop of `wake_eligible`: pop wakers while the front is a reader. -/
def popReaders : List (Mode × ω) → List ω × List (Mode × ω)
  | (.read, w) :: q => ((w :: (popReaders q).1), (popReaders q).2)
  | q => ([], q)

/-- Pop the wakers of the waiters now eligible: the readers at the front, or,
if there is none and no reader is active, a writer at the front. -/
def wakeEligible (s : State ω) : State ω × List ω :=
  match popReaders s.waiters with
  | ([], (.write, w) :: q) =>
    if s.readers = 0 then ({ s with waiters := q }, [w]) else (s, [])
  | (woken, q) => ({ s with waiters := q }, woken)

def acquireRead (s : State ω) (w : ω) : State ω × Bool :=
  if !s.writerLocked && !s.writerPending then
    ({ s with readers := s.readers + 1 }, true)
  else
    ({ s with waiters := s.waiters ++ [(.read, w)] }, false)

def acquireWrite (s : State ω) (w : ω) : State ω × Bool :=
  if !s.writerLocked && decide (s.readers = 0) then
    ({ s with writerLocked := true }, true)
  else
    ({ s with waiters := s.waiters ++ [(.write, w)] }, false)

def acquire (s : State ω) : Mode → ω → State ω × Bool
  | .read, w => s.acquireRead w
  | .write, w => s.acquireWrite w

def tryAcquireRead (s : State ω) : State ω × Bool :=
  if !s.writerLocked && !s.writerPending then
    ({ s with readers := s.readers + 1 }, true)
  else
    (s, false)

def tryAcquireWrite (s : State ω) : State ω × Bool :=
  if !s.writerLocked && decide (s.readers = 0) then
    ({ s with writerLocked := true }, true)
  else
    (s, false)

/-- `release_read`: only the last reader wakes anybody. -/
def releaseRead (s : State ω) : State ω × List ω :=
  let s' := { s with readers := s.readers - 1 }
  if s'.readers = 0 then s'.wakeEligible else (s', [])

def releaseWrite (s : State ω) : State ω × List ω :=
  { s with writerLocked := false }.wakeEligible

def downgrade (s : State ω) : State ω × List ω :=
  { s with writerLocked := false, readers := 1 }.wakeEligible

/-! ### What the queue operations do -/

theorem popReaders_append (q : List (Mode × ω)) :
    (popReaders q).1.map (Prod.mk Mode.read) ++ (popReaders q).2 = q := by
  induction q with
  | nil => rfl
  | cons p q ih =>
    obtain ⟨m, w⟩ := p
    cases m with
    | read => simp [popReaders, ih]
    | write => simp [popReaders]

theorem popReaders_rest (q : List (Mode × ω)) :
    (popReaders q).2 = [] ∨ ∃ w r, (popReaders q).2 = (.write, w) :: r := by
  induction q with
  | nil => exact .inl rfl
  | cons p q ih =>
    obtain ⟨m, w⟩ := p
    cases m with
    | read => simpa [popReaders] using ih
    | write => exact .inr ⟨w, q, rfl⟩

theorem wakeEligible_cases (s : State ω) : (s.waiters = [] ∧ s.wakeEligible = (s, [])) ∨
    (∃ ws q, ws ≠ [] ∧ s.waiters = ws.map (Prod.mk Mode.read) ++ q ∧
      (q = [] ∨ ∃ w r, q = (.write, w) :: r) ∧ s.wakeEligible = ({ s with waiters := q }, ws)) ∨
    (∃ w q, s.waiters = (.write, w) :: q ∧ s.readers = 0 ∧
      s.wakeEligible = ({ s with waiters := q }, [w])) ∨
    (∃ w q, s.waiters = (.write, w) :: q ∧ s.readers ≠ 0 ∧ s.wakeEligible = (s, [])) := by
  obtain ⟨wl, n, q⟩ := s
  cases q with
  | nil => exact .inl ⟨rfl, rfl⟩
  | cons p q =>
    obtain ⟨m, w⟩ := p
    cases m with
    | read =>
      refine .inr (.inl ⟨w :: (popReaders q).1, (popReaders q).2, by simp, ?_,
        popReaders_rest q, rfl⟩)
      rw [map_cons, cons_append, popReaders_append]
    | write =>
      by_cases h : n = 0
      · exact .inr (.inr (.inl ⟨w, q, rfl, h, by simp [wakeEligible, popReaders, h]⟩))
      · exact .inr (.inr (.inr ⟨w, q, rfl, h, by simp [wakeEligible, popReaders, h]⟩))

theorem wakeEligible_spec (s : State ω) : s.wakeEligible.1.writerLocked = s.writerLocked ∧
    s.wakeEligible.1.readers = s.readers ∧
    s.wakeEligible.2 ++ s.wakeEligible.1.waiters.map Prod.snd = s.waiters.map Prod.snd ∧
    (∃ ps, s.waiters = ps ++ s.wakeEligible.1.waiters) := by
  rcases wakeEligible_cases s with ⟨hq, he⟩ | ⟨ws, q, -, hq, -, he⟩ | ⟨w, q, hq, -, he⟩ |
    ⟨w, q, hq, -, he⟩ <;> rw [he]
  · exact ⟨rfl, rfl, rfl, [], rfl⟩
  · refine ⟨rfl, rfl, ?_, ws.map (Prod.mk Mode.read), hq⟩
    rw [hq, List.map_append, List.map_map]
    exact congrArg (· ++ q.map Prod.snd) (map_id ws).symm
  · exact ⟨rfl, rfl, by rw [hq]; rfl, [(.write, w)], hq⟩
  · exact ⟨rfl, rfl, rfl, [], rfl⟩

theorem acquire_cases (s : State ω) (m : Mode) (w : ω) :
    (∃ l, s.acquire m w = (l, true) ∧ l.waiters = s.waiters ∧ (l.writerLocked ∨ l.readers ≠ 0)) ∨
    (s.acquire m w = ({ s with waiters := s.waiters ++ [(m, w)] }, false) ∧
      (s.writerLocked ∨ s.readers ≠ 0 ∨ (m = .read ∧ s.writerPending))) := by
  cases m with
  | read =>
    by_cases hc : (!s.writerLocked && !s.writerPending)
    · exact .inl ⟨{ s with readers := s.readers + 1 },
        by rw [acquire, acquireRead, if_pos hc], rfl, .inr (Nat.succ_ne_zero _)⟩
    · refine .inr ⟨by rw [acquire, acquireRead, if_neg hc], ?_⟩
      cases hl : s.writerLocked with
      | true => exact .inl rfl
      | false =>
        rw [hl] at hc
        exact .inr (.inr ⟨rfl, by simpa using hc⟩)
  | write =>
    by_cases hc : (!s.writerLocked && decide (s.readers = 0))
    · exact .inl ⟨{ s with writerLocked := true },
        by rw [acquire, acquireWrite, if_pos hc], rfl, .inl rfl⟩
    · refine .inr ⟨by rw [acquire, acquireWrite, if_neg hc], ?_⟩
      cases hl : s.writerLocked with
      | true => exact .inl rfl
      | false =>
        rw [hl] at hc
        exact .inr (.inl (by simpa using hc))

theorem releaseRead_spec (s : State ω) : s.releaseRead.1.writerLocked = s.writerLocked ∧
      s.releaseRead.1.readers = s.readers - 1 := by
  simp only [releaseRead]
  by_cases h : s.readers - 1 = 0
  · rw [if_pos h]
    obtain ⟨h1, h2, -, -⟩ := wakeEligible_spec { s with readers := s.readers - 1 }
    exact ⟨h1, h2⟩
  · rw [if_neg h]
    exact ⟨rfl, rfl⟩

end State

/-! ## The parties around the lock -/

structure World where
  lock : State ℕ
  futures : List (Future Mode)
  readGuards : ℕ
  writeGuards : ℕ
  deriving DecidableEq

inductive Event where
  | create (m : Mode)
  | poll (i : ℕ)
  | cancel (i : ℕ)
  | tryRead
  | tryWrite
  | dropRead
  | dropWrite
  | downgrade
  deriving DecidableEq

namespace World

def grant (w : World) : Mode → World
  | .read => { w with readGuards := w.readGuards + 1 }
  | .write => { w with writeGuards := w.writeGuards + 1 }

def release (w : World) (r : State ℕ × List ℕ) : World :=
  { w with lock := r.1, futures := Table.wakeAll w.futures r.2 }

def pollFuture (w : World) (i : ℕ) (m : Mode) : World :=
  match w.lock.acquire m i with
  | (l, true) =>
    { w with lock := l, futures := Table.setPhase w.futures i .finished }.grant m
  | (l, false) =>
    { w with lock := l, futures := Table.setPhase w.futures i (.parked false) }

def step (w : World) : Event → Option World
  | .create m => some { w with futures := w.futures ++ [⟨m, .fresh⟩] }
  | .poll i =>
    match w.futures[i]? with
    | some f => if f.phase.isLive then some (w.pollFuture i f.kind) else none
    | none => none
  | .cancel i =>
    match w.futures[i]? with
    | some f =>
      if f.phase.isLive then
        some { w with futures := Table.setPhase w.futures i .dropped }
      else none
    | none => none
  | .tryRead =>
    match w.lock.tryAcquireRead with
    | (l, true) => some ({ w with lock := l }.grant .read)
    | (l, false) => some { w with lock := l }
  | .tryWrite =>
    match w.lock.tryAcquireWrite with
    | (l, true) => some ({ w with lock := l }.grant .write)
    | (l, false) => some { w with lock := l }
  | .dropRead =>
    if 0 < w.readGuards then
      some ({ w with readGuards := w.readGuards - 1 }.release w.lock.releaseRead)
    else none
  | .dropWrite =>
    if 0 < w.writeGuards then
      some ({ w with writeGuards := w.writeGuards - 1 }.release w.lock.releaseWrite)
    else none
  | .downgrade =>
    if 0 < w.writeGuards then
      some ({ w with writeGuards := w.writeGuards - 1, readGuards := w.readGuards + 1 }.release
        w.lock.downgrade)
    else none

/-! ### What each step does -/

variable {w v : World}

theorem step_poll {i : ℕ} : w.step (.poll i) = some v ↔
    ∃ f, w.futures[i]? = some f ∧ f.phase.isLive ∧ v = w.pollFuture i f.kind := by
  simp only [step]
  cases w.futures[i]? with
  | none => simp
  | some f =>
    simp only [ite_none_right_eq_some, some.injEq, exists_eq_left']
    exact and_congr_right fun _ => eq_comm

theorem step_cancel {i : ℕ} : w.step (.cancel i) = some v ↔
    ∃ f, w.futures[i]? = some f ∧ f.phase.isLive ∧
      v = { w with futures := Table.setPhase w.futures i .dropped } := by
  simp only [step]
  cases w.futures[i]? with
  | none => simp
  | some f =>
    simp only [ite_none_right_eq_some, some.injEq, exists_eq_left']
    exact and_congr_right fun _ => eq_comm

theorem step_tryRead (h : w.step .tryRead = some v) :
    (w.lock.writerLocked = false ∧ w.lock.writerPending = false ∧
      v = { w with lock := { w.lock with readers := w.lock.readers + 1 } }.grant .read) ∨
    v = w := by
  simp only [step, State.tryAcquireRead] at h
  by_cases hc : (!w.lock.writerLocked && !w.lock.writerPending)
  · rw [if_pos hc] at h
    have hl : w.lock.writerLocked = false ∧ w.lock.writerPending = false := by simpa using hc
    exact .inl ⟨hl.1, hl.2, (some.inj h).symm⟩
  · rw [if_neg hc] at h
    exact .inr (some.inj h).symm

theorem step_tryWrite (h : w.step .tryWrite = some v) :
    (w.lock.writerLocked = false ∧ w.lock.readers = 0 ∧
      v = { w with lock := { w.lock with writerLocked := true } }.grant .write) ∨
    v = w := by
  simp only [step, State.tryAcquireWrite] at h
  by_cases hc : (!w.lock.writerLocked && decide (w.lock.readers = 0))
  · rw [if_pos hc] at h
    have hl : w.lock.writerLocked = false ∧ w.lock.readers = 0 := by simpa using hc
    exact .inl ⟨hl.1, hl.2, (some.inj h).symm⟩
  · rw [if_neg hc] at h
    exact .inr (some.inj h).symm

theorem step_dropRead : w.step .dropRead = some v ↔ 0 < w.readGuards ∧
      v = { w with readGuards := w.readGuards - 1 }.release w.lock.releaseRead := by
  simp only [step, ite_none_right_eq_some, some.injEq]
  exact and_congr_right fun _ => eq_comm

theorem step_dropWrite : w.step .dropWrite = some v ↔ 0 < w.writeGuards ∧
      v = { w with writeGuards := w.writeGuards - 1 }.release w.lock.releaseWrite := by
  simp only [step, ite_none_right_eq_some, some.injEq]
  exact and_congr_right fun _ => eq_comm

theorem step_downgrade : w.step .downgrade = some v ↔ 0 < w.writeGuards ∧
      v = { w with writeGuards := w.writeGuards - 1, readGuards := w.readGuards + 1 }.release
        w.lock.downgrade := by
  simp only [step, ite_none_right_eq_some, some.injEq]
  exact and_congr_right fun _ => eq_comm

end World

def rwSystem : System World Event where
  init := ⟨.new, [], 0, 0⟩
  step := World.step

end RustyTokio.RwLock

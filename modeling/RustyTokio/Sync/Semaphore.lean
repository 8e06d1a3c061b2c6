import RustyTokio.Transition.Futures
import RustyTokio.Transition.Serve
import RustyTokio.Transition.System
import RustyTokio.Transition.Usize

/-!
# The semaphore

`src/sync/semaphore.rs`.  A release decides under the lock which queued waiters get their permits,
and stores the decision in the `outcome` that a waiter shares with its future; a future looks at
nothing else once it is queued.
-/

namespace RustyTokio.Semaphore

open Transition Bool

/-- The `outcome` of a waiter: `WAITER_PENDING`, `WAITER_GRANTED`, `WAITER_CLOSED`. -/
inductive Outcome where
  | pending
  | granted
  | closed
  deriving DecidableEq

/-- `Waiter`.  The outcome and the waker are those of the future with this number. -/
structure Waiter where
  needed : ℕ
  future : ℕ
  deriving DecidableEq

/-- What the mutex of the semaphore guards. -/
structure State where
  permits : ℕ
  closed : Bool
  waiters : List Waiter
  deriving DecidableEq

inductive AcquireError where
  | mk
  deriving DecidableEq

inductive TryAcquireError where
  | closed
  | noPermits
  deriving DecidableEq

/-- The future of `acquire`, `acquire_many` or an owned variant, with the `outcome` of its waiter.
-/
structure Acquire where
  needed : UInt32
  owned : Bool
  outcome : Outcome
  registered : Bool
  phase : Phase
  deriving DecidableEq

/-- `Semaphore::MAX_PERMITS`. -/
def maxPermits : ℕ := (2 ^ 64 - 1) >>> 3

def constNew (permits : UInt64) : State := ⟨permits.toNat, false, []⟩

/-- `Semaphore::new`: `none` if its assertion fails. -/
def new (permits : UInt64) : Option State :=
  if permits.toNat ≤ maxPermits then some (constNew permits) else none

namespace State

/-- `forget_permits`, and how many it took. -/
def forgetPermits (s : State) (n : ℕ) : State × ℕ :=
  ({ s with permits := s.permits - min n s.permits }, min n s.permits)

/-- `Semaphore::release`: the permits come back, and the front of the queue is served as long as
they suffice.  The served waiters are returned, to be told. -/
def release (s : State) (n : ℕ) : State × List Waiter :=
  ({ s with
      permits := (serve Waiter.needed (uadd s.permits n) s.waiters).1
      waiters := (serve Waiter.needed (uadd s.permits n) s.waiters).2.2 },
    (serve Waiter.needed (uadd s.permits n) s.waiters).2.1)

/-- `close`, under the lock: the queue is taken out. -/
def close (s : State) : State × List Waiter :=
  if s.closed then (s, []) else ({ s with closed := true, waiters := [] }, s.waiters)

/-- `try_acquire_many` does not overtake a waiter. -/
def tryAcquireMany (s : State) (needed : ℕ) : State × Except TryAcquireError Unit :=
  if s.closed then (s, .error .closed)
  else if s.waiters.isEmpty && decide (needed ≤ s.permits) then
    ({ s with permits := s.permits - needed }, .ok ())
  else (s, .error .noPermits)

/-- One poll of `Semaphore::acquire_permits` by future `me`, past its assertion. -/
def pollAcquire (s : State) (f : Acquire) (me : ℕ) : State × Poll (Except AcquireError Unit) :=
  match f.outcome with
  | .granted => (s, .ready (.ok ()))
  | .closed => (s, .ready (.error .mk))
  | .pending =>
    if f.registered then (s, .pending)
    else if s.closed then (s, .ready (.error .mk))
    else if s.waiters.isEmpty && decide (f.needed.toNat ≤ s.permits) then
      ({ s with permits := s.permits - f.needed.toNat }, .ready (.ok ()))
    else ({ s with waiters := s.waiters ++ [⟨f.needed.toNat, me⟩] }, .pending)

end State

namespace Acquire

def new (n : UInt32) (owned : Bool) : Acquire := ⟨n, owned, .pending, false, .fresh⟩

def park (f : Acquire) : Acquire := { f with registered := true, phase := .parked false }

def setPhase (p : Phase) (f : Acquire) : Acquire := { f with phase := p }

/-- The outcome of the waiter is stored and its waker woken. -/
def tell (o : Outcome) (f : Acquire) : Acquire := { f with outcome := o, phase := f.phase.wake }

theorem tell_tell (o : Outcome) (f : Acquire) : (f.tell o).tell o = f.tell o := by
  rw [tell, tell, Phase.wake_wake]

end Acquire

/-! ## The semaphore and those around it -/

/-- The state, the futures, the permits that are out, and a ledger: what was added and forgotten,
who was queued and granted, in order. -/
structure World where
  state : State
  futures : List Acquire
  /-- The futures whose waiters `close` has taken and has yet to tell. -/
  closing : List ℕ
  permits : List ℕ
  ownedPermits : List ℕ
  added : ℕ
  forgotten : ℕ
  queued : List ℕ
  granted : List ℕ
  deriving DecidableEq

/-- The calls; `closeNext` tells the next waiter that `close` took. -/
inductive Label where
  | start (n : UInt32) (owned : Bool)
  | poll (i : ℕ)
  | drop (i : ℕ)
  | tryAcquire (n : UInt32) (owned : Bool)
  | addPermits (n : UInt64)
  | forgetPermits (n : UInt64)
  | dropPermit (k : ℕ)
  | dropOwned (k : ℕ)
  | merge (j k : ℕ)
  | close
  | closeNext
  deriving DecidableEq

namespace World

/-- Future `i` changes. -/
def change (w : World) (i : ℕ) (g : Acquire → Acquire) : World :=
  { w with futures := w.futures.modify i g }

/-- The permit of a future that is ready is handed out. -/
def hand (w : World) (n : ℕ) (owned : Bool) : World :=
  if owned then { w with ownedPermits := w.ownedPermits ++ [n] }
  else { w with permits := w.permits ++ [n] }

/-- A release, and the futures that it tells. -/
def release (w : World) (n : ℕ) : World :=
  { w with
    state := (w.state.release n).1
    futures := ((w.state.release n).2.map Waiter.future).foldl
      (fun t i => t.modify i (Acquire.tell .granted)) w.futures
    granted := w.granted ++ (w.state.release n).2.map Waiter.future }

/-- A poll of future `i`. -/
def poll (w : World) (i : ℕ) (f : Acquire) : World :=
  match w.state.pollAcquire f i with
  | (s, .ready (.ok _)) =>
    (change { w with state := s } i (Acquire.setPhase .finished)).hand f.needed.toNat f.owned
  | (s, .ready (.error _)) => change { w with state := s } i (Acquire.setPhase .finished)
  | (s, .pending) =>
    change
      { w with
        state := s
        queued := if f.registered then w.queued else w.queued ++ [i] }
      i Acquire.park

def step (w : World) : Label → Option World
  | .start n owned => some { w with futures := w.futures ++ [Acquire.new n owned] }
  | .poll i =>
    w.futures[i]?.bind fun f =>
      if f.phase.isLive then
        -- the assertion of `acquire_permits` fails, and the future is gone
        if f.needed = 0 then some (w.change i (Acquire.setPhase .dropped))
        else some (w.poll i f)
      else none
  | .drop i =>
    w.futures[i]?.bind fun f =>
      if f.phase.isLive then some (w.change i (Acquire.setPhase .dropped)) else none
  | .tryAcquire n owned =>
    match w.state.tryAcquireMany n.toNat with
    | (s, .ok _) => some (hand { w with state := s } n.toNat owned)
    | (s, .error _) => some { w with state := s }
  | .addPermits n => some { w.release n.toNat with added := w.added + n.toNat }
  | .forgetPermits n =>
    some
      { w with
        state := (w.state.forgetPermits n.toNat).1
        forgotten := w.forgotten + (w.state.forgetPermits n.toNat).2 }
  | .dropPermit k =>
    w.permits[k]?.map fun n => { w.release n with permits := w.permits.eraseIdx k }
  | .dropOwned k =>
    w.ownedPermits[k]?.map fun n => { w.release n with ownedPermits := w.ownedPermits.eraseIdx k }
  | .merge j k =>
    match w.ownedPermits[j]?, w.ownedPermits[k]? with
    | some m, some n =>
      if j = k then none
      else some { w with ownedPermits := (w.ownedPermits.set j (uadd m n)).eraseIdx k }
    | _, _ => none
  | .close =>
    some
      { w with
        state := w.state.close.1
        closing := w.closing ++ w.state.close.2.map Waiter.future }
  | .closeNext =>
    match w.closing with
    | i :: rest => some (change { w with closing := rest } i (Acquire.tell .closed))
    | [] => none

end World

/-- `Semaphore::const_new`, which asserts nothing about `permits`. -/
def semaphore (permits : UInt64) : System World Label where
  init := ⟨constNew permits, [], [], [], [], 0, 0, [], []⟩
  step := World.step

/-! ## What a call can do -/

/-- All that a call can do. -/
inductive World.Steps (w : World) : Label → World → Prop where
  | start {n owned} :
      Steps w (.start n owned) { w with futures := w.futures ++ [Acquire.new n owned] }
  | panic {i f} (hi : w.futures[i]? = some f) (hp : f.phase.isLive)
      (h0 : f.needed = 0) : Steps w (.poll i) (w.change i (Acquire.setPhase .dropped))
  | observe {i f} (hi : w.futures[i]? = some f) (hp : f.phase.isLive)
      (ho : f.outcome = .granted) :
      Steps w (.poll i)
        ((w.change i (Acquire.setPhase .finished)).hand f.needed.toNat f.owned)
  | refuse {i f} (hi : w.futures[i]? = some f) (hp : f.phase.isLive)
      (ho : f.outcome = .closed ∨
        f.outcome = .pending ∧ f.registered = false ∧ w.state.closed = true) :
      Steps w (.poll i) (w.change i (Acquire.setPhase .finished))
  | take {i f} (hi : w.futures[i]? = some f) (hp : f.phase.isLive)
      (ho : f.outcome = .pending) (hr : f.registered = false) (hc : w.state.closed = false)
      (hw : w.state.waiters = []) (hn : f.needed.toNat ≤ w.state.permits) :
      Steps w (.poll i)
        ((change { w with state := { w.state with permits := w.state.permits - f.needed.toNat } }
          i (Acquire.setPhase .finished)).hand f.needed.toNat f.owned)
  | queue {i f} (hi : w.futures[i]? = some f) (hp : f.phase.isLive)
      (h0 : 0 < f.needed.toNat) (ho : f.outcome = .pending) (hr : f.registered = false)
      (hc : w.state.closed = false)
      (hw : w.state.waiters ≠ [] ∨ w.state.permits < f.needed.toNat) :
      Steps w (.poll i)
        (change { w with
          state := { w.state with waiters := w.state.waiters ++ [⟨f.needed.toNat, i⟩] }
          queued := w.queued ++ [i] } i Acquire.park)
  | repoll {i f} (hi : w.futures[i]? = some f) (hp : f.phase.isLive)
      (ho : f.outcome = .pending) (hr : f.registered) :
      Steps w (.poll i) (w.change i Acquire.park)
  | drop {i f} (hi : w.futures[i]? = some f) (hp : f.phase.isLive) :
      Steps w (.drop i) (w.change i (Acquire.setPhase .dropped))
  | tryTake {n owned} (hc : w.state.closed = false)
      (hw : w.state.waiters = []) (hn : n.toNat ≤ w.state.permits) :
      Steps w (.tryAcquire n owned)
        (hand { w with state := { w.state with permits := w.state.permits - n.toNat } }
          n.toNat owned)
  | tryFails {n owned} : Steps w (.tryAcquire n owned) w
  | addPermits {n} :
      Steps w (.addPermits n) { w.release n.toNat with added := w.added + n.toNat }
  | forgetPermits {n} :
      Steps w (.forgetPermits n)
        { w with
          state := { w.state with permits := w.state.permits - min n.toNat w.state.permits }
          forgotten := w.forgotten + min n.toNat w.state.permits }
  | dropPermit {k n} (hk : w.permits[k]? = some n) :
      Steps w (.dropPermit k) { w.release n with permits := w.permits.eraseIdx k }
  | dropOwned {k n} (hk : w.ownedPermits[k]? = some n) :
      Steps w (.dropOwned k) { w.release n with ownedPermits := w.ownedPermits.eraseIdx k }
  | merge {j k m n} (hj : w.ownedPermits[j]? = some m) (hk : w.ownedPermits[k]? = some n)
      (hjk : j ≠ k) :
      Steps w (.merge j k)
        { w with ownedPermits := (w.ownedPermits.set j (uadd m n)).eraseIdx k }
  | close (hc : w.state.closed = false) :
      Steps w .close
        { w with
          state := { w.state with closed := true, waiters := [] }
          closing := w.closing ++ w.state.waiters.map Waiter.future }
  | closeAgain (hc : w.state.closed) : Steps w .close w
  | closeNext {i rest} (hc : w.closing = i :: rest) :
      Steps w .closeNext (change { w with closing := rest } i (Acquire.tell .closed))

namespace World

variable {w v : World}

theorem fast_iff {s : State} {n : ℕ} :
    (s.waiters.isEmpty && decide (n ≤ s.permits)) ↔ s.waiters = [] ∧ n ≤ s.permits := by
  rw [and_eq_true, List.isEmpty_iff, decide_eq_true_iff]

theorem steps_poll {i : ℕ} {f : Acquire} (hi : w.futures[i]? = some f)
    (hp : f.phase.isLive) (h0 : f.needed ≠ 0) : w.Steps (.poll i) (w.poll i f) := by
  have hpos : 0 < f.needed.toNat := Nat.pos_of_ne_zero fun h => h0 (UInt32.toNat_inj.mp h)
  unfold poll State.pollAcquire
  cases ho : f.outcome with
  | granted => exact .observe hi hp ho
  | closed => exact .refuse hi hp (.inl ho)
  | pending =>
    cases hr : f.registered with
    | true => exact .repoll hi hp ho hr
    | false =>
      cases hc : w.state.closed with
      | true => exact .refuse hi hp (.inr ⟨ho, hr, hc⟩)
      | false =>
        by_cases hfast : (w.state.waiters.isEmpty && decide (f.needed.toNat ≤ w.state.permits))
        · obtain ⟨hw, hn⟩ := fast_iff.mp hfast
          have htake := Steps.take hi hp ho hr hc hw hn
          simpa only [hfast, hc, if_true, false_eq_true, if_false] using htake
        · have hslow := hfast
          rw [fast_iff, not_and_or, Nat.not_le] at hslow
          have hqueue := Steps.queue hi hp hpos ho hr hc hslow
          simpa only [hfast, hc, false_eq_true, if_false] using hqueue

theorem steps_tryAcquire {n : UInt32} {owned : Bool}
    (hs : w.step (.tryAcquire n owned) = some v) : w.Steps (.tryAcquire n owned) v := by
  rw [step, State.tryAcquireMany] at hs
  by_cases hc : w.state.closed
  · rw [if_pos hc] at hs
    cases hs
    exact .tryFails
  · rw [if_neg hc] at hs
    by_cases hfast : (w.state.waiters.isEmpty && decide (n.toNat ≤ w.state.permits))
    · rw [if_pos hfast] at hs
      cases hs
      obtain ⟨hw, hn⟩ := fast_iff.mp hfast
      exact .tryTake (not_eq_true _ ▸ hc) hw hn
    · rw [if_neg hfast] at hs
      cases hs
      exact .tryFails

theorem steps_close (hs : w.step .close = some v) : w.Steps .close v := by
  cases hs
  rw [State.close]
  by_cases hc : w.state.closed
  · rw [if_pos hc, List.map_nil, List.append_nil]
    exact .closeAgain hc
  · rw [if_neg hc]
    exact .close (not_eq_true _ ▸ hc)

theorem steps_of_step {l : Label} (hs : w.step l = some v) : w.Steps l v := by
  cases l with
  | start n owned =>
    cases hs
    exact .start
  | poll i =>
    obtain ⟨f, hi, hs⟩ := Option.bind_eq_some_iff.mp hs
    obtain ⟨hp, hs⟩ := Option.ite_none_right_eq_some.mp hs
    by_cases h0 : f.needed = 0
    · rw [if_pos h0] at hs
      cases hs
      exact .panic hi hp h0
    · rw [if_neg h0] at hs
      cases hs
      exact steps_poll hi hp h0
  | drop i =>
    obtain ⟨f, hi, hp, rfl⟩ := bind_guard_eq_some.mp hs
    exact .drop hi hp
  | tryAcquire n owned => exact steps_tryAcquire hs
  | addPermits n =>
    cases hs
    exact .addPermits
  | forgetPermits n =>
    cases hs
    exact .forgetPermits
  | dropPermit k =>
    obtain ⟨n, hk, rfl⟩ := Option.map_eq_some_iff.mp hs
    exact .dropPermit hk
  | dropOwned k =>
    obtain ⟨n, hk, rfl⟩ := Option.map_eq_some_iff.mp hs
    exact .dropOwned hk
  | merge j k =>
    rw [step] at hs
    split at hs
    next m n hj hk =>
      obtain ⟨hjk, rfl⟩ := of_guard_not hs
      exact .merge hj hk hjk
    · cases hs
  | close => exact steps_close hs
  | closeNext =>
    rw [step] at hs
    split at hs
    next i rest hc =>
      cases hs
      exact .closeNext hc
    · cases hs

end World
end RustyTokio.Semaphore

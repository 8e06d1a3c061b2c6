import RustyTokio.Task.Coop
import RustyTokio.Transition.Futures
import RustyTokio.Transition.System
import RustyTokio.Transition.Usize

/-!
# `Notify`

`src/sync/notify.rs`.  Under the mutex are the banked permits and the queue of entries.  An entry is
the `Arc` of a future's `WaiterState`, a flag and a slot for a waker, both outside the mutex.  One
poll is therefore four steps here and one firing is two.
-/

namespace RustyTokio.Notify

open Transition Coop Option Bool

inductive Pc where
  | idle
  | locking (waker : ℕ)
  | storing (waker : ℕ)
  | rechecking
  | enabling
  deriving DecidableEq

inductive Status where
  | fresh
  | pending
  | ready
  | dropped
  deriving DecidableEq

def Status.isLive : Status → Bool
  | .fresh => true
  | .pending => true
  | _ => false

def Status.isDropped : Status → Bool
  | .dropped => true
  | _ => false

theorem Status.isDropped_of_isLive {s : Status} (h : s.isLive) : s.isDropped = false := by
  cases s with
  | dropped => simp [Status.isLive] at h
  | _ => rfl

structure Notified where
  registered : Bool
  woken : Bool
  waker : Option ℕ
  pc : Pc
  status : Status
  stored : Option ℕ
  /-- That waker has been woken since. -/
  told : Bool
  /-- Both steps of `fire` have been done to its entry. -/
  fired : Bool
  /-- A permit, or a call of `notify_one` or `notify_last`, was spent on it. -/
  granted : Bool
  deriving DecidableEq

namespace Notified

def new : Notified := ⟨false, false, none, .idle, .fresh, none, false, false, false⟩

def setPc (p : Pc) (f : Notified) : Notified := { f with pc := p }

/-- The poll or the `enable` under way returns, the poll with a status. -/
def leave (s : Status) (f : Notified) : Notified := { f with pc := .idle, status := s }

def takePermit (f : Notified) : Notified :=
  { f with pc := .idle, status := .ready, granted := true }

def enablePermit (f : Notified) : Notified :=
  { f with pc := .idle, woken := true, granted := true }

def register (p : Pc) (f : Notified) : Notified := { f with pc := p, registered := true }

def store (waker : ℕ) (f : Notified) : Notified :=
  { f with pc := .rechecking, waker := some waker, stored := some waker, told := false }

/-- `notify_one` or `notify_last` has popped its entry. -/
def grant (f : Notified) : Notified := { f with granted := true }

def mark (f : Notified) : Notified := { f with woken := true }

/-- The second step of `fire`: the waker in the slot, if there is one, is taken and
woken. -/
def takeWaker (f : Notified) : Notified :=
  { f with waker := none, told := f.told || f.waker.isSome, fired := true }

end Notified

structure Notifier where
  taken : List ℕ
  todo : List ℕ
  /-- The first of them has its flag set already. -/
  marked : Bool
  deriving DecidableEq

structure World where
  permits : ℕ
  waiters : List ℕ
  futures : List Notified
  notifiers : List Notifier
  issued : ℕ
  deriving DecidableEq

inductive Label where
  | start
  | poll (i : ℕ) (waker : ℕ) (budget : Option ℕ)
  | enable (i : ℕ)
  | advance (i : ℕ)
  | drop (i : ℕ)
  | notifyOne
  | notifyLast
  | notifyWaiters
  | fire (k : ℕ)
  deriving DecidableEq

def popFront : List ℕ → Option (ℕ × List ℕ)
  | [] => none
  | e :: rest => some (e, rest)

def popBack (q : List ℕ) : Option (ℕ × List ℕ) := q.getLast?.map fun e => (e, q.dropLast)

namespace World

def change (w : World) (i : ℕ) (g : Notified → Notified) : World :=
  { w with futures := w.futures.modify i g }

/-- `poll_notified`, up to the first look at `woken`.  A poll without budget has woken
its task and is pending. -/
def beginPoll (w : World) (i : ℕ) (f : Notified) (waker : ℕ) (budget : Option ℕ) : World :=
  match pollProceed budget with
  | none => w.change i (.leave .pending)
  | some _ =>
    if f.woken then w.change i (.leave .ready) else w.change i (.setPc (.locking waker))

def lockPoll (w : World) (i : ℕ) (f : Notified) (waker : ℕ) : World :=
  if f.registered then w.change i (.setPc (.storing waker))
  else if 0 < w.permits then change { w with permits := w.permits - 1 } i .takePermit
  else change { w with waiters := w.waiters ++ [i] } i (.register (.storing waker))

def lockEnable (w : World) (i : ℕ) : World :=
  if 0 < w.permits then change { w with permits := w.permits - 1 } i .enablePermit
  else change { w with waiters := w.waiters ++ [i] } i (.register .idle)

def advance (w : World) (i : ℕ) (f : Notified) : Option World :=
  match f.pc with
  | .idle => none
  | .locking waker => some (w.lockPoll i f waker)
  | .storing waker => some (w.change i (.store waker))
  | .rechecking => some (w.change i (.leave (if f.woken then .ready else .pending)))
  | .enabling => some (w.lockEnable i)

/-- `notify_one` and `notify_last` under the mutex, with what they popped. -/
def notify (w : World) : Option (ℕ × List ℕ) → World
  | none => { w with permits := uadd w.permits 1, issued := w.issued + 1 }
  | some (e, rest) =>
    change
      { w with
        waiters := rest
        notifiers := w.notifiers ++ [⟨[e], [e], false⟩]
        issued := w.issued + 1 }
      e .grant

def notifyWaiters (w : World) : World :=
  { w with waiters := [], notifiers := w.notifiers ++ [⟨w.waiters, w.waiters, false⟩] }

def fire (w : World) (k : ℕ) (n : Notifier) : Option World :=
  match n.todo with
  | [] => none
  | e :: rest =>
    if n.marked then
      some (change { w with notifiers := w.notifiers.set k ⟨n.taken, rest, false⟩ } e .takeWaker)
    else
      some (change { w with notifiers := w.notifiers.set k ⟨n.taken, e :: rest, true⟩ } e .mark)

def step (w : World) : Label → Option World
  | .start => some { w with futures := w.futures ++ [.new] }
  | .poll i waker budget =>
    w.futures[i]?.bind fun f =>
      if f.status.isLive ∧ f.pc = .idle then some (w.beginPoll i f waker budget) else none
  | .enable i =>
    w.futures[i]?.bind fun f =>
      if f.status.isDropped = false ∧ f.pc = .idle then
        some (if f.woken || f.registered then w else w.change i (.setPc .enabling))
      else none
  | .advance i => w.futures[i]?.bind (w.advance i)
  | .drop i =>
    w.futures[i]?.bind fun f =>
      if f.status.isLive ∧ f.pc = .idle then some (w.change i (.leave .dropped)) else none
  | .notifyOne => some (w.notify (popFront w.waiters))
  | .notifyLast => some (w.notify (popBack w.waiters))
  | .notifyWaiters => some w.notifyWaiters
  | .fire k => w.notifiers[k]?.bind (w.fire k)

/-! ## What each step does -/

inductive Steps (w : World) : Label → World → Prop where
  | start : Steps w .start { w with futures := w.futures ++ [.new] }
  | pollYields {i f waker budget} (hi : w.futures[i]? = some f) (hl : f.status.isLive)
      (hp : f.pc = .idle) (hb : pollProceed budget = none) :
      Steps w (.poll i waker budget) (w.change i (.leave .pending))
  | pollReady {i f waker budget rest} (hi : w.futures[i]? = some f) (hl : f.status.isLive)
      (hp : f.pc = .idle) (hb : pollProceed budget = some rest) (hw : f.woken) :
      Steps w (.poll i waker budget) (w.change i (.leave .ready))
  | pollLocks {i f waker budget rest} (hi : w.futures[i]? = some f) (hl : f.status.isLive)
      (hp : f.pc = .idle) (hb : pollProceed budget = some rest) (hw : f.woken = false) :
      Steps w (.poll i waker budget) (w.change i (.setPc (.locking waker)))
  | enableReturns {i f} (hi : w.futures[i]? = some f) (hd : f.status.isDropped = false)
      (hp : f.pc = .idle) (hw : (f.woken || f.registered) = true) : Steps w (.enable i) w
  | enableLocks {i f} (hi : w.futures[i]? = some f) (hd : f.status.isDropped = false)
      (hp : f.pc = .idle) (hw : f.woken = false) (hr : f.registered = false) :
      Steps w (.enable i) (w.change i (.setPc .enabling))
  | registeredAlready {i f waker} (hi : w.futures[i]? = some f) (hp : f.pc = .locking waker)
      (hr : f.registered) : Steps w (.advance i) (w.change i (.setPc (.storing waker)))
  | takesPermit {i f waker} (hi : w.futures[i]? = some f) (hp : f.pc = .locking waker)
      (hr : f.registered = false) (hw : 0 < w.permits) :
      Steps w (.advance i) (change { w with permits := w.permits - 1 } i .takePermit)
  | registers {i f waker} (hi : w.futures[i]? = some f) (hp : f.pc = .locking waker)
      (hr : f.registered = false) (hw : w.permits = 0) :
      Steps w (.advance i)
        (change { w with waiters := w.waiters ++ [i] } i (.register (.storing waker)))
  | stores {i f waker} (hi : w.futures[i]? = some f) (hp : f.pc = .storing waker) :
      Steps w (.advance i) (w.change i (.store waker))
  | rechecks {i f} (hi : w.futures[i]? = some f) (hp : f.pc = .rechecking) :
      Steps w (.advance i) (w.change i (.leave (if f.woken then .ready else .pending)))
  | enableTakesPermit {i f} (hi : w.futures[i]? = some f) (hp : f.pc = .enabling)
      (hw : 0 < w.permits) :
      Steps w (.advance i) (change { w with permits := w.permits - 1 } i .enablePermit)
  | enableRegisters {i f} (hi : w.futures[i]? = some f) (hp : f.pc = .enabling)
      (hw : w.permits = 0) :
      Steps w (.advance i) (change { w with waiters := w.waiters ++ [i] } i (.register .idle))
  | drop {i f} (hi : w.futures[i]? = some f) (hl : f.status.isLive) (hp : f.pc = .idle) :
      Steps w (.drop i) (w.change i (.leave .dropped))
  | notifyOne : Steps w .notifyOne (w.notify (popFront w.waiters))
  | notifyLast : Steps w .notifyLast (w.notify (popBack w.waiters))
  | notifyWaiters : Steps w .notifyWaiters w.notifyWaiters
  | marks {k n e rest} (hk : w.notifiers[k]? = some n) (ht : n.todo = e :: rest)
      (hm : n.marked = false) :
      Steps w (.fire k)
        (change { w with notifiers := w.notifiers.set k ⟨n.taken, e :: rest, true⟩ } e .mark)
  | takesWaker {k n e rest} (hk : w.notifiers[k]? = some n) (ht : n.todo = e :: rest)
      (hm : n.marked) :
      Steps w (.fire k)
        (change { w with notifiers := w.notifiers.set k ⟨n.taken, rest, false⟩ } e .takeWaker)

variable {w v : World} {i : ℕ}

theorem steps_poll {waker : ℕ} {budget : Option ℕ}
    (h : w.step (.poll i waker budget) = some v) : Steps w (.poll i waker budget) v := by
  obtain ⟨f, hi, ⟨hl, hp⟩, rfl⟩ := bind_guard_eq_some.mp h
  rw [beginPoll]
  cases hb : pollProceed budget with
  | none => exact .pollYields hi hl hp hb
  | some b =>
    cases hw : f.woken with
    | true => exact .pollReady hi hl hp hb hw
    | false => exact .pollLocks hi hl hp hb hw

theorem steps_enable (h : w.step (.enable i) = some v) : Steps w (.enable i) v := by
  obtain ⟨f, hi, ⟨hd, hp⟩, rfl⟩ := bind_guard_eq_some.mp h
  cases hw : f.woken || f.registered with
  | true => exact .enableReturns hi hd hp hw
  | false =>
    obtain ⟨hw, hr⟩ := or_eq_false_iff.mp hw
    exact .enableLocks hi hd hp hw hr

theorem steps_advance (h : w.step (.advance i) = some v) : Steps w (.advance i) v := by
  obtain ⟨f, hi, h⟩ := bind_eq_some_iff.mp h
  rw [advance] at h
  cases hp : f.pc with
  | idle => simp [hp] at h
  | locking waker =>
    rw [hp] at h
    cases h
    rw [lockPoll]
    cases hr : f.registered with
    | true => exact .registeredAlready hi hp hr
    | false =>
      rw [if_neg Bool.false_ne_true]
      by_cases hw : 0 < w.permits
      · rw [if_pos hw]
        exact .takesPermit hi hp hr hw
      · rw [if_neg hw]
        exact .registers hi hp hr (Nat.eq_zero_of_not_pos hw)
  | storing waker =>
    rw [hp] at h
    exact some.inj h ▸ .stores hi hp
  | rechecking =>
    rw [hp] at h
    exact some.inj h ▸ .rechecks hi hp
  | enabling =>
    rw [hp] at h
    cases h
    rw [lockEnable]
    by_cases hw : 0 < w.permits
    · rw [if_pos hw]
      exact .enableTakesPermit hi hp hw
    · rw [if_neg hw]
      exact .enableRegisters hi hp (Nat.eq_zero_of_not_pos hw)

theorem steps_fire {k : ℕ} (h : w.step (.fire k) = some v) : Steps w (.fire k) v := by
  obtain ⟨n, hk, h⟩ := bind_eq_some_iff.mp h
  rw [fire] at h
  cases ht : n.todo with
  | nil => simp [ht] at h
  | cons e rest =>
    rw [ht] at h
    cases hm : n.marked with
    | true =>
      simp only [hm, if_true] at h
      exact some.inj h ▸ .takesWaker hk ht hm
    | false =>
      simp only [hm, false_eq_true, if_false] at h
      exact some.inj h ▸ .marks hk ht hm

theorem steps_of_step {l : Label} (h : w.step l = some v) : Steps w l v := by
  cases l with
  | start => exact some.inj h ▸ .start
  | poll i waker budget => exact steps_poll h
  | enable i => exact steps_enable h
  | advance i => exact steps_advance h
  | drop i =>
    obtain ⟨f, hi, ⟨hl, hp⟩, rfl⟩ := bind_guard_eq_some.mp h
    exact .drop hi hl hp
  | notifyOne => exact some.inj h ▸ .notifyOne
  | notifyLast => exact some.inj h ▸ .notifyLast
  | notifyWaiters => exact some.inj h ▸ .notifyWaiters
  | fire k => exact steps_fire h

end World

def notifySystem : System World Label where
  init := ⟨0, [], [], [], 0⟩
  step := World.step

end RustyTokio.Notify

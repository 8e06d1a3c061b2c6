import RustyTokio.Transition.Lot
import RustyTokio.Transition.System

/-!
# The `watch` channel

`src/sync/watch.rs`.  One lock guards the value, its version and the wakers of the futures of
`changed`.  Every update and the drop of the sender take the whole list of wakers under the lock and
wake them after it; a future pushes its waker once, on its first poll that has to wait.  The version
is a natural number here, not a `u64`: no run makes `2 ^ 64` updates.
-/

namespace RustyTokio.Watch

open Transition Option

variable {α : Type}

structure Inner (α : Type) where
  value : α
  version : ℕ
  wakers : List ℕ
  senderAlive : Bool
  receiversAlive : ℕ
  deriving DecidableEq

inductive RecvError where
  | mk
  deriving DecidableEq

structure SendError (α : Type) where
  value : α
  deriving DecidableEq

namespace Inner

def channel (initial : α) : Inner α := ⟨initial, 0, [], true, 1⟩

def send (s : Inner α) (value : α) : Inner α × Except (SendError α) (List ℕ) :=
  if s.receiversAlive = 0 then (s, .error ⟨value⟩)
  else ({ s with value := value, version := s.version + 1, wakers := [] }, .ok s.wakers)

def sendModify (s : Inner α) (modify : α → α) : Inner α × List ℕ :=
  ({ s with value := modify s.value, version := s.version + 1, wakers := [] }, s.wakers)

def dropSender (s : Inner α) : Inner α × List ℕ :=
  ({ s with senderAlive := false, wakers := [] }, s.wakers)

/-- One poll of `Receiver::changed`: the state, `seen_version` and `registered` after it, and
what it returns. -/
def pollChanged (s : Inner α) (seenVersion : ℕ) (registered : Bool) (waker : ℕ) :
    Inner α × ℕ × Bool × Poll (Except RecvError Unit) :=
  if s.version ≠ seenVersion then (s, s.version, registered, .ready (.ok ()))
  else if !s.senderAlive then (s, seenVersion, registered, .ready (.error .mk))
  else if !registered then
    ({ s with wakers := s.wakers ++ [waker] }, seenVersion, true, .pending)
  else (s, seenVersion, registered, .pending)

end Inner

structure Receiver where
  seenVersion : ℕ
  alive : Bool
  /-- How many updates there had been when it last marked one. -/
  marked : ℕ
  deriving DecidableEq

structure Changed where
  receiver : ℕ
  registered : Bool
  /-- The waker it has pushed, if it is registered. -/
  entry : ℕ
  deriving DecidableEq

structure World (α : Type) where
  inner : Inner α
  receivers : List Receiver
  futures : List (Sleeper Changed)
  hands : List (List ℕ)
  updates : ℕ
  deriving DecidableEq

/-- A call, or one wake of a call that has let go of the lock. -/
inductive Label (α : Type) where
  | send (value : α)
  | sendModify (modify : α → α)
  | dropSender
  | wakeNext (k : ℕ)
  | cloneReceiver (r : ℕ)
  | dropReceiver (r : ℕ)
  | borrowAndUpdate (r : ℕ)
  | changed (r : ℕ)
  | poll (i : ℕ) (waker : ℕ)
  | drop (i : ℕ)

namespace World

/-- A live future of `changed` borrows the receiver. -/
def busy (w : World α) (r : ℕ) : Bool :=
  w.futures.any fun f => f.phase.isLive && f.kind.receiver == r

def free (w : World α) (r : ℕ) : Option Receiver :=
  w.receivers[r]?.bind fun rcv => if rcv.alive ∧ w.busy r = false then some rcv else none

def poll (w : World α) (i : ℕ) (f : Sleeper Changed) (rcv : Receiver) (waker : ℕ) : World α :=
  match w.inner.pollChanged rcv.seenVersion f.kind.registered waker with
  | (s, seen, _, .ready (.ok _)) =>
    { w with
      inner := s
      receivers := w.receivers.set f.kind.receiver
        { rcv with seenVersion := seen, marked := w.updates }
      futures := w.futures.set i ⟨f.kind, waker, .finished⟩ }
  | (s, _, _, .ready (.error _)) =>
    { w with inner := s, futures := w.futures.set i ⟨f.kind, waker, .finished⟩ }
  | (s, _, registered, .pending) =>
    { w with
      inner := s
      futures := w.futures.set i
        ⟨{ f.kind with
            registered := registered
            entry := if f.kind.registered then f.kind.entry else waker }, waker, .parked false⟩ }

def reply (w : World α) (i waker : ℕ) : Option (Poll (Except RecvError Unit)) :=
  w.futures[i]?.bind fun f =>
    w.receivers[f.kind.receiver]?.map fun rcv =>
      (w.inner.pollChanged rcv.seenVersion f.kind.registered waker).2.2.2

def step (w : World α) : Label α → Option (World α)
  | .send value =>
    if w.inner.senderAlive then
      match w.inner.send value with
      | (s, .ok wakers) =>
        some { w with inner := s, hands := w.hands ++ [wakers], updates := w.updates + 1 }
      | (s, .error _) => some { w with inner := s }
    else none
  | .sendModify modify =>
    if w.inner.senderAlive then
      some
        { w with
          inner := (w.inner.sendModify modify).1
          hands := w.hands ++ [(w.inner.sendModify modify).2]
          updates := w.updates + 1 }
    else none
  | .dropSender =>
    if w.inner.senderAlive then
      some
        { w with
          inner := w.inner.dropSender.1
          hands := w.hands ++ [w.inner.dropSender.2] }
    else none
  | .wakeNext k =>
    (Lot.wakeNext w.futures w.hands k).map fun p => { w with futures := p.1, hands := p.2 }
  | .cloneReceiver r =>
    (w.free r).map fun rcv =>
      { w with
        inner := { w.inner with receiversAlive := w.inner.receiversAlive + 1 }
        receivers := w.receivers ++ [rcv] }
  | .dropReceiver r =>
    (w.free r).map fun rcv =>
      { w with
        inner := { w.inner with receiversAlive := w.inner.receiversAlive - 1 }
        receivers := w.receivers.set r { rcv with alive := false } }
  | .borrowAndUpdate r =>
    (w.free r).map fun rcv =>
      { w with
        receivers := w.receivers.set r
          { rcv with seenVersion := w.inner.version, marked := w.updates } }
  | .changed r =>
    (w.free r).map fun _ => { w with futures := w.futures ++ [⟨⟨r, false, 0⟩, 0, .fresh⟩] }
  | .poll i waker =>
    w.futures[i]?.bind fun f =>
      if f.phase.isLive then
        w.receivers[f.kind.receiver]?.map fun rcv => w.poll i f rcv waker
      else none
  | .drop i =>
    w.futures[i]?.bind fun f =>
      if f.phase.isLive then
        some { w with futures := w.futures.set i { f with phase := .dropped } }
      else none

/-! ## What a step can do -/

inductive Steps (w : World α) : Label α → World α → Prop where
  | update {l} (value : α) (ha : w.inner.senderAlive)
      (hl : l = .send value ∧ w.inner.receiversAlive ≠ 0 ∨
        ∃ modify, l = .sendModify modify ∧ value = modify w.inner.value) :
      Steps w l
        { w with
          inner := { w.inner with value := value, version := w.inner.version + 1, wakers := [] }
          hands := w.hands ++ [w.inner.wakers]
          updates := w.updates + 1 }
  | sendFails {value} (ha : w.inner.senderAlive) (hr : w.inner.receiversAlive = 0) :
      Steps w (.send value) w
  | dropSender (ha : w.inner.senderAlive) :
      Steps w .dropSender
        { w with
          inner := { w.inner with senderAlive := false, wakers := [] }
          hands := w.hands ++ [w.inner.wakers] }
  | wakeNext {k t hs} (hk : Lot.wakeNext w.futures w.hands k = some (t, hs)) :
      Steps w (.wakeNext k) { w with futures := t, hands := hs }
  | cloneReceiver {r rcv} (hr : w.receivers[r]? = some rcv) (ha : rcv.alive)
      (hb : w.busy r = false) :
      Steps w (.cloneReceiver r)
        { w with
          inner := { w.inner with receiversAlive := w.inner.receiversAlive + 1 }
          receivers := w.receivers ++ [rcv] }
  | dropReceiver {r rcv} (hr : w.receivers[r]? = some rcv) (ha : rcv.alive)
      (hb : w.busy r = false) :
      Steps w (.dropReceiver r)
        { w with
          inner := { w.inner with receiversAlive := w.inner.receiversAlive - 1 }
          receivers := w.receivers.set r { rcv with alive := false } }
  | borrowAndUpdate {r rcv} (hr : w.receivers[r]? = some rcv) (ha : rcv.alive)
      (hb : w.busy r = false) :
      Steps w (.borrowAndUpdate r)
        { w with
          receivers := w.receivers.set r
            { rcv with seenVersion := w.inner.version, marked := w.updates } }
  | changed {r rcv} (hr : w.receivers[r]? = some rcv) (ha : rcv.alive)
      (hb : w.busy r = false) :
      Steps w (.changed r) { w with futures := w.futures ++ [⟨⟨r, false, 0⟩, 0, .fresh⟩] }
  | marks {i waker f rcv} (hi : w.futures[i]? = some f) (hl : f.phase.isLive)
      (hr : w.receivers[f.kind.receiver]? = some rcv) (hv : w.inner.version ≠ rcv.seenVersion) :
      Steps w (.poll i waker)
        { w with
          receivers := w.receivers.set f.kind.receiver
            { rcv with seenVersion := w.inner.version, marked := w.updates }
          futures := w.futures.set i ⟨f.kind, waker, .finished⟩ }
  | refuses {i waker f rcv} (hi : w.futures[i]? = some f) (hl : f.phase.isLive)
      (hr : w.receivers[f.kind.receiver]? = some rcv) (hv : w.inner.version = rcv.seenVersion)
      (ha : w.inner.senderAlive = false) :
      Steps w (.poll i waker) { w with futures := w.futures.set i ⟨f.kind, waker, .finished⟩ }
  | registers {i waker f rcv} (hi : w.futures[i]? = some f) (hl : f.phase.isLive)
      (hr : w.receivers[f.kind.receiver]? = some rcv) (hv : w.inner.version = rcv.seenVersion)
      (ha : w.inner.senderAlive) (hg : f.kind.registered = false) :
      Steps w (.poll i waker)
        { w with
          inner := { w.inner with wakers := w.inner.wakers ++ [waker] }
          futures := w.futures.set i ⟨⟨f.kind.receiver, true, waker⟩, waker, .parked false⟩ }
  | repolls {i waker f rcv} (hi : w.futures[i]? = some f) (hl : f.phase.isLive)
      (hr : w.receivers[f.kind.receiver]? = some rcv) (hv : w.inner.version = rcv.seenVersion)
      (ha : w.inner.senderAlive) (hg : f.kind.registered) :
      Steps w (.poll i waker)
        { w with futures := w.futures.set i ⟨f.kind, waker, .parked false⟩ }
  | drop {i f} (hi : w.futures[i]? = some f) (hl : f.phase.isLive) :
      Steps w (.drop i) { w with futures := w.futures.set i { f with phase := .dropped } }

variable {w v : World α}

theorem free_eq_some {r : ℕ} {rcv : Receiver} (h : w.free r = some rcv) :
    w.receivers[r]? = some rcv ∧ rcv.alive ∧ w.busy r = false := by
  obtain ⟨_, hr, hfree, rfl⟩ := bind_guard_eq_some.mp h
  exact ⟨hr, hfree⟩

theorem steps_poll {i waker : ℕ} (h : w.step (.poll i waker) = some v) :
    Steps w (.poll i waker) v := by
  obtain ⟨f, hi, h⟩ := bind_eq_some_iff.mp h
  obtain ⟨hl, h⟩ := ite_none_right_eq_some.mp h
  obtain ⟨rcv, hr, rfl⟩ := map_eq_some_iff.mp h
  rw [poll, Inner.pollChanged]
  by_cases hv : w.inner.version = rcv.seenVersion
  · rw [if_neg (not_not.mpr hv)]
    by_cases ha : w.inner.senderAlive
    · rw [if_neg (by simp [ha])]
      by_cases hg : f.kind.registered
      · have hkind : f.kind = ⟨f.kind.receiver, f.kind.registered, f.kind.entry⟩ := rfl
        rw [if_neg (by simp [hg])]
        simp only [if_pos hg]
        rw [← hkind]
        exact .repolls hi hl hr hv ha hg
      · rw [if_pos (by simp [hg])]
        simp only [if_neg hg]
        exact .registers hi hl hr hv ha (by simpa using hg)
    · rw [if_pos (by simp [ha])]
      exact .refuses hi hl hr hv (by simpa using ha)
  · rw [if_pos hv]
    exact .marks hi hl hr hv

theorem steps_of_step {l : Label α} (h : w.step l = some v) : Steps w l v := by
  cases l with
  | send value =>
    obtain ⟨ha, h⟩ := ite_none_right_eq_some.mp h
    rw [Inner.send] at h
    by_cases hr : w.inner.receiversAlive = 0
    · rw [if_pos hr] at h
      exact some.inj h ▸ .sendFails ha hr
    · rw [if_neg hr] at h
      exact some.inj h ▸ .update value ha (.inl ⟨rfl, hr⟩)
  | sendModify modify =>
    obtain ⟨ha, rfl⟩ := of_guard h
    exact .update (modify w.inner.value) ha (.inr ⟨modify, rfl, rfl⟩)
  | dropSender =>
    obtain ⟨ha, rfl⟩ := of_guard h
    exact .dropSender ha
  | wakeNext k =>
    obtain ⟨⟨t, hs⟩, hk, rfl⟩ := map_eq_some_iff.mp h
    exact .wakeNext hk
  | cloneReceiver r =>
    obtain ⟨rcv, hf, rfl⟩ := map_eq_some_iff.mp h
    obtain ⟨hr, ha, hb⟩ := free_eq_some hf
    exact .cloneReceiver hr ha hb
  | dropReceiver r =>
    obtain ⟨rcv, hf, rfl⟩ := map_eq_some_iff.mp h
    obtain ⟨hr, ha, hb⟩ := free_eq_some hf
    exact .dropReceiver hr ha hb
  | borrowAndUpdate r =>
    obtain ⟨rcv, hf, rfl⟩ := map_eq_some_iff.mp h
    obtain ⟨hr, ha, hb⟩ := free_eq_some hf
    exact .borrowAndUpdate hr ha hb
  | changed r =>
    obtain ⟨rcv, hf, rfl⟩ := map_eq_some_iff.mp h
    obtain ⟨hr, ha, hb⟩ := free_eq_some hf
    exact .changed hr ha hb
  | poll i waker => exact steps_poll h
  | drop i =>
    obtain ⟨f, hi, hl, rfl⟩ := bind_guard_eq_some.mp h
    exact .drop hi hl

end World

def watch (initial : α) : System (World α) (Label α) where
  init := ⟨.channel initial, [⟨0, true, 0⟩], [], [], 0⟩
  step := World.step

end RustyTokio.Watch

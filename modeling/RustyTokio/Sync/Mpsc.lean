import RustyTokio.Task.Coop
import RustyTokio.Transition.Futures
import RustyTokio.Transition.System
import RustyTokio.Transition.Usize

/-!
# The bounded channel

`src/sync/mpsc.rs`, the bounded half.  Everything is behind one lock, so a call
is one step; the wakers it has popped are woken right after the lock is let go,
and that belongs to the step.
-/

namespace RustyTokio.Mpsc

open Transition Coop Option Bool

variable {T : Type}

/-- `Inner`.  Wakers are the numbers of the futures that handed them over. -/
structure Inner (T : Type) where
  queue : List T
  capacity : ℕ
  reserved : ℕ
  sendWaiters : List ℕ
  recvWaker : Option ℕ
  sendersAlive : ℕ
  receiverAlive : Bool
  deriving DecidableEq

inductive TrySendError (T : Type) where
  | full (value : T)
  | closed (value : T)
  deriving DecidableEq

def TrySendError.intoInner : TrySendError T → T
  | .full value => value
  | .closed value => value

def channel (T : Type) (capacity : UInt64) : Option (Inner T) :=
  if 0 < capacity.toNat then some ⟨[], capacity.toNat, 0, [], none, 1, true⟩ else none

namespace Inner

def used (c : Inner T) : ℕ := uadd c.queue.length c.reserved

def push (c : Inner T) (value : T) : Inner T :=
  { c with queue := c.queue ++ [value], recvWaker := none }

def pollSend (c : Inner T) (value : T) (me : ℕ) : Inner T × Poll Bool × Option ℕ :=
  if !c.receiverAlive then (c, .ready false, none)
  else if c.used < c.capacity then (c.push value, .ready true, c.recvWaker)
  else ({ c with sendWaiters := c.sendWaiters ++ [me] }, .pending, none)

def trySend (c : Inner T) (value : T) : Inner T × Except (TrySendError T) Unit × Option ℕ :=
  if !c.receiverAlive then (c, .error (.closed value), none)
  else if c.used < c.capacity then (c.push value, .ok (), c.recvWaker)
  else (c, .error (.full value), none)

def pollReserve (c : Inner T) (n me : ℕ) : Inner T × Poll Bool :=
  if !c.receiverAlive then (c, .ready false)
  else if uadd c.used n ≤ c.capacity then
    ({ c with reserved := uadd c.reserved n }, .ready true)
  else ({ c with sendWaiters := c.sendWaiters ++ [me] }, .pending)

def tryReserve (c : Inner T) : Inner T × Except (TrySendError Unit) Unit :=
  if !c.receiverAlive then (c, .error (.closed ()))
  else if c.used < c.capacity then ({ c with reserved := uadd c.reserved 1 }, .ok ())
  else (c, .error (.full ()))

/-- `Shared::release_reserved`, with the wakers of the senders it wakes. -/
def releaseReserved (c : Inner T) (n : ℕ) : Inner T × List ℕ :=
  ({ c with reserved := usub c.reserved n, sendWaiters := c.sendWaiters.drop n },
    c.sendWaiters.take n)

def fillReserved (c : Inner T) (value : T) : Inner T × Option ℕ :=
  ({ c with reserved := usub c.reserved 1 }.push value, c.recvWaker)

def pollRecv (c : Inner T) (me : ℕ) : Inner T × Poll (Option T) × List ℕ :=
  match c.queue with
  | value :: rest =>
    ({ c with queue := rest, sendWaiters := c.sendWaiters.drop 1 }, .ready (some value),
      c.sendWaiters.take 1)
  | [] =>
    if c.sendersAlive = 0 then (c, .ready none, [])
    else ({ c with recvWaker := some me }, .pending, [])

/-- `Sender::clone`, and the success of `WeakSender::upgrade`. -/
def cloneSender (c : Inner T) : Inner T := { c with sendersAlive := c.sendersAlive + 1 }

def dropSender (c : Inner T) : Inner T × Option ℕ :=
  if c.sendersAlive - 1 = 0 then
    ({ c with sendersAlive := c.sendersAlive - 1, recvWaker := none }, c.recvWaker)
  else ({ c with sendersAlive := c.sendersAlive - 1 }, none)

def dropReceiver (c : Inner T) : Inner T × List ℕ :=
  ({ c with receiverAlive := false, sendWaiters := [] }, c.sendWaiters)

end Inner

/-! ## The channel and those around it -/

inductive Sending (T : Type) where
  | send (value : T)
  | reserve
  | reserveMany (n : UInt64)
  | reserveOwned
  | sendTimeout (value : T)
  deriving DecidableEq

def Sending.slots : Sending T → ℕ
  | .send _ => 1
  | .reserve => 1
  | .reserveMany n => n.toNat
  | .reserveOwned => 1
  | .sendTimeout _ => 1

def Sending.isOwned : Sending T → Bool
  | .reserveOwned => true
  | _ => false

structure World (T : Type) where
  inner : Inner T
  sends : List (Future (Sending T))
  recvs : List (Future Unit)
  /-- The `Sender`s outside of futures and permits. -/
  handles : ℕ
  permits : ℕ
  ownedPermits : ℕ
  /-- The live `PermitIterator`s, each with what it has left. -/
  iterators : List ℕ
  /-- The calls of `send_timeout` that have their permit and have yet to fill its slot. -/
  timeouts : List T
  received : List T

/-- A call.  `Sender::send_timeout` takes the lock twice in its last poll, to reserve its
slot and to fill it, and others can get in between. -/
inductive Label (T : Type) where
  | start (k : Sending T)
  | poll (i : ℕ)
  | pollElapsed (i : ℕ)
  | drop (i : ℕ)
  | timeoutSend (k : ℕ)
  | trySend (value : T)
  | tryReserve
  | tryReserveOwned
  | permitSend (value : T)
  | permitDrop
  | ownedSend (value : T)
  | ownedRelease
  | ownedDrop
  | iteratorNext (k : ℕ)
  | iteratorDrop (k : ℕ)
  | startRecv
  | pollRecv (i : ℕ) (budget : Option ℕ)
  | dropRecv (i : ℕ)
  | cloneSender
  | upgrade
  | dropSender
  | dropReceiver

def phaseOf {α : Type} : Poll α → Phase
  | .pending => .parked false
  | .ready _ => .finished

def wakeRecv (recvs : List (Future Unit)) : Option ℕ → List (Future Unit)
  | none => recvs
  | some i => Table.wake recvs i

namespace World

def borrowed (w : World T) : Bool :=
  decide (0 < w.permits) || !w.iterators.isEmpty || !w.timeouts.isEmpty ||
    w.sends.any fun f => f.phase.isLive &&
      match f.kind with
      | .reserveOwned => false
      | _ => true

/-- A `Sender` can be moved: there are two of them, or the only one is not borrowed. -/
def spare (w : World T) : Bool :=
  decide (1 < w.handles) || (decide (w.handles = 1) && !w.borrowed)

/-- A `Sender` that was inside a future or a permit is dropped. -/
def loseSender (w : World T) : World T :=
  { w with inner := w.inner.dropSender.1, recvs := wakeRecv w.recvs w.inner.dropSender.2 }

def release (w : World T) (n : ℕ) : World T :=
  { w with
    inner := (w.inner.releaseReserved n).1
    sends := Table.wakeAll w.sends (w.inner.releaseReserved n).2 }

def fill (w : World T) (value : T) : World T :=
  { w with
    inner := (w.inner.fillReserved value).1
    recvs := wakeRecv w.recvs (w.inner.fillReserved value).2 }

def reserve (w : World T) (i n : ℕ) : World T :=
  { w with
    inner := (w.inner.pollReserve n i).1
    sends := Table.setPhase w.sends i (phaseOf (w.inner.pollReserve n i).2) }

/-- What a call has that was granted its slots; a `send` does not ask for them. -/
def hold (w : World T) : Sending T → World T
  | .send _ => w
  | .reserve => { w with permits := w.permits + 1 }
  | .reserveMany n => { w with iterators := w.iterators ++ [n.toNat] }
  | .reserveOwned => { w with ownedPermits := w.ownedPermits + 1 }
  | .sendTimeout value => { w with timeouts := w.timeouts ++ [value] }

/-- A future that reserves slots is polled; `reserve_owned` drops its `Sender` if it fails. -/
def pollReserving (w : World T) (i : ℕ) (k : Sending T) : World T :=
  match (w.inner.pollReserve k.slots i).2 with
  | .ready true => (w.reserve i k.slots).hold k
  | .ready false => if k.isOwned then (w.reserve i k.slots).loseSender else w.reserve i k.slots
  | .pending => w.reserve i k.slots

def pollSending (w : World T) (i : ℕ) : Sending T → World T
  | .send value =>
    { w with
      inner := (w.inner.pollSend value i).1
      sends := Table.setPhase w.sends i (phaseOf (w.inner.pollSend value i).2.1)
      recvs := wakeRecv w.recvs (w.inner.pollSend value i).2.2 }
  | k => w.pollReserving i k

/-- Future `i`, a `send_timeout`, is polled when its time is up: `reserve` is polled
first, and only if it is pending does the call time out. -/
def pollElapsed (w : World T) (i : ℕ) (value : T) : World T :=
  match (w.inner.pollReserve 1 i).2 with
  | .pending =>
    { w with
      inner := (w.inner.pollReserve 1 i).1
      sends := Table.setPhase w.sends i .finished }
  | .ready _ => w.pollSending i (.sendTimeout value)

def dropSending (w : World T) (i : ℕ) (k : Sending T) : World T :=
  match k with
  | .reserveOwned => { w with sends := Table.setPhase w.sends i .dropped }.loseSender
  | _ => { w with sends := Table.setPhase w.sends i .dropped }

def pollRecv (w : World T) (i : ℕ) (budget : Option ℕ) : World T :=
  match pollProceed budget with
  | none => { w with recvs := Table.setPhase w.recvs i (.parked true) }
  | some _ =>
    { w with
      inner := (w.inner.pollRecv i).1
      recvs := Table.setPhase w.recvs i (phaseOf (w.inner.pollRecv i).2.1)
      sends := Table.wakeAll w.sends (w.inner.pollRecv i).2.2
      received := match (w.inner.pollRecv i).2.1 with
        | .ready (some value) => w.received ++ [value]
        | _ => w.received }

def step (w : World T) : Label T → Option (World T)
  | .start k =>
    match k with
    | .reserveOwned =>
      if w.spare then
        some { w with sends := w.sends ++ [⟨k, .fresh⟩], handles := w.handles - 1 }
      else none
    | _ => if w.handles = 0 then none else some { w with sends := w.sends ++ [⟨k, .fresh⟩] }
  | .poll i =>
    w.sends[i]?.bind fun f => if f.phase.isLive then some (w.pollSending i f.kind) else none
  | .pollElapsed i =>
    match w.sends[i]? with
    | some ⟨.sendTimeout value, p⟩ => if p.isLive then some (w.pollElapsed i value) else none
    | _ => none
  | .drop i =>
    w.sends[i]?.bind fun f => if f.phase.isLive then some (w.dropSending i f.kind) else none
  | .timeoutSend k =>
    w.timeouts[k]?.map fun value => { w.fill value with timeouts := w.timeouts.eraseIdx k }
  | .trySend value =>
    if w.handles = 0 then none
    else some
      { w with
        inner := (w.inner.trySend value).1
        recvs := wakeRecv w.recvs (w.inner.trySend value).2.2 }
  | .tryReserve =>
    if w.handles = 0 then none
    else match w.inner.tryReserve with
    | (c, .ok _) => some { w with inner := c, permits := w.permits + 1 }
    | (c, .error _) => some { w with inner := c }
  | .tryReserveOwned =>
    if w.spare then
      match w.inner.tryReserve with
      | (c, .ok _) =>
        some { w with
          inner := c, handles := w.handles - 1, ownedPermits := w.ownedPermits + 1 }
      | (c, .error _) => some { w with inner := c }
    else none
  | .permitSend value =>
    if w.permits = 0 then none else some { w.fill value with permits := w.permits - 1 }
  | .permitDrop =>
    if w.permits = 0 then none else some { w.release 1 with permits := w.permits - 1 }
  | .ownedSend value =>
    if w.ownedPermits = 0 then none
    else some
      { w.fill value with ownedPermits := w.ownedPermits - 1, handles := w.handles + 1 }
  | .ownedRelease =>
    if w.ownedPermits = 0 then none
    else some
      { w.release 1 with ownedPermits := w.ownedPermits - 1, handles := w.handles + 1 }
  | .ownedDrop =>
    if w.ownedPermits = 0 then none
    else some { w.release 1 with ownedPermits := w.ownedPermits - 1 }.loseSender
  | .iteratorNext k =>
    match w.iterators[k]? with
    | some (n + 1) =>
      some { w with iterators := w.iterators.set k n, permits := w.permits + 1 }
    | some 0 => some w
    | none => none
  | .iteratorDrop k =>
    w.iterators[k]?.map fun n => { w.release n with iterators := w.iterators.eraseIdx k }
  | .startRecv =>
    if w.inner.receiverAlive && !w.recvs.any fun f => f.phase.isLive then
      some { w with recvs := w.recvs ++ [⟨(), .fresh⟩] }
    else none
  | .pollRecv i budget =>
    w.recvs[i]?.bind fun f => if f.phase.isLive then some (w.pollRecv i budget) else none
  | .dropRecv i =>
    w.recvs[i]?.bind fun f =>
      if f.phase.isLive then some { w with recvs := Table.setPhase w.recvs i .dropped } else none
  | .cloneSender =>
    if w.handles = 0 then none
    else some { w with inner := w.inner.cloneSender, handles := w.handles + 1 }
  | .upgrade =>
    if w.inner.sendersAlive = 0 then some w
    else some { w with inner := w.inner.cloneSender, handles := w.handles + 1 }
  | .dropSender =>
    if w.spare then some { w.loseSender with handles := w.handles - 1 } else none
  | .dropReceiver =>
    if w.inner.receiverAlive && !w.recvs.any fun f => f.phase.isLive then
      some
        { w with
          inner := w.inner.dropReceiver.1
          sends := Table.wakeAll w.sends w.inner.dropReceiver.2 }
    else none

end World

def mpsc (c : Inner T) : System (World T) (Label T) where
  init := ⟨c, [], [], 1, 0, 0, [], [], []⟩
  step := World.step

namespace World

variable (w : World T) (k : Sending T)

@[simp] theorem hold_inner : (w.hold k).inner = w.inner := by cases k <;> rfl

@[simp] theorem hold_sends : (w.hold k).sends = w.sends := by cases k <;> rfl

@[simp] theorem hold_recvs : (w.hold k).recvs = w.recvs := by cases k <;> rfl

@[simp] theorem hold_received : (w.hold k).received = w.received := by cases k <;> rfl

variable {k} in
theorem pollSending_eq (hk : ∀ value, k ≠ .send value) (i : ℕ) :
    w.pollSending i k = w.pollReserving i k := by
  cases k with
  | send value => exact absurd rfl (hk value)
  | _ => rfl

end World

/-! ## What a call can do -/

inductive World.Steps (w : World T) : Label T → World T → Prop where
  | start {k} (hk : k ≠ .reserveOwned) (hh : 0 < w.handles) :
      Steps w (.start k) { w with sends := w.sends ++ [⟨k, .fresh⟩] }
  | startOwned (hh : w.spare) :
      Steps w (.start .reserveOwned)
        { w with sends := w.sends ++ [⟨.reserveOwned, .fresh⟩], handles := w.handles - 1 }
  | poll {i f} (hi : w.sends[i]? = some f)
      (hp : f.phase.isLive) : Steps w (.poll i) (w.pollSending i f.kind)
  | pollElapsed {i value p}
      (hi : w.sends[i]? = some ⟨.sendTimeout value, p⟩) (hp : p.isLive) :
      Steps w (.pollElapsed i) (w.pollElapsed i value)
  | drop {i f} (hi : w.sends[i]? = some f)
      (hp : f.phase.isLive) : Steps w (.drop i) (w.dropSending i f.kind)
  | timeoutSend {k value} (hk : w.timeouts[k]? = some value) :
      Steps w (.timeoutSend k) { w.fill value with timeouts := w.timeouts.eraseIdx k }
  | trySend {value} (hh : 0 < w.handles) :
      Steps w (.trySend value)
        { w with
          inner := (w.inner.trySend value).1
          recvs := wakeRecv w.recvs (w.inner.trySend value).2.2 }
  | tryReserve {c} (hh : 0 < w.handles) (hc : w.inner.tryReserve = (c, .ok ())) :
      Steps w .tryReserve { w with inner := c, permits := w.permits + 1 }
  | tryReserveFails {c e}
      (hc : w.inner.tryReserve = (c, .error e)) : Steps w .tryReserve { w with inner := c }
  | tryReserveOwned {c} (hh : w.spare)
      (hc : w.inner.tryReserve = (c, .ok ())) :
      Steps w .tryReserveOwned
        { w with inner := c, handles := w.handles - 1, ownedPermits := w.ownedPermits + 1 }
  | tryReserveOwnedFails {c e}
      (hc : w.inner.tryReserve = (c, .error e)) : Steps w .tryReserveOwned { w with inner := c }
  | permitSend {value} (h0 : 0 < w.permits) :
      Steps w (.permitSend value) { w.fill value with permits := w.permits - 1 }
  | permitDrop (h0 : 0 < w.permits) :
      Steps w .permitDrop { w.release 1 with permits := w.permits - 1 }
  | ownedSend {value} (h0 : 0 < w.ownedPermits) :
      Steps w (.ownedSend value)
        { w.fill value with ownedPermits := w.ownedPermits - 1, handles := w.handles + 1 }
  | ownedRelease (h0 : 0 < w.ownedPermits) :
      Steps w .ownedRelease
        { w.release 1 with ownedPermits := w.ownedPermits - 1, handles := w.handles + 1 }
  | ownedDrop (h0 : 0 < w.ownedPermits) :
      Steps w .ownedDrop
        ({ w.release 1 with ownedPermits := w.ownedPermits - 1 } : World T).loseSender
  | iteratorNext {k n} (hk : w.iterators[k]? = some (n + 1)) :
      Steps w (.iteratorNext k)
        { w with iterators := w.iterators.set k n, permits := w.permits + 1 }
  | iteratorEnd {k} : Steps w (.iteratorNext k) w
  | iteratorDrop {k n} (hk : w.iterators[k]? = some n) :
      Steps w (.iteratorDrop k) { w.release n with iterators := w.iterators.eraseIdx k }
  | startRecv (hr : ∀ f ∈ w.recvs, f.phase.isLive = false) :
      Steps w .startRecv { w with recvs := w.recvs ++ [⟨(), .fresh⟩] }
  | pollRecv {i budget f} (hi : w.recvs[i]? = some f)
      (hp : f.phase.isLive) : Steps w (.pollRecv i budget) (w.pollRecv i budget)
  | dropRecv {i f} (hi : w.recvs[i]? = some f)
      (hp : f.phase.isLive) :
      Steps w (.dropRecv i) { w with recvs := Table.setPhase w.recvs i .dropped }
  | cloneSender (hh : 0 < w.handles) :
      Steps w .cloneSender { w with inner := w.inner.cloneSender, handles := w.handles + 1 }
  | upgrade (hs : w.inner.sendersAlive ≠ 0) :
      Steps w .upgrade { w with inner := w.inner.cloneSender, handles := w.handles + 1 }
  | upgradeFails (hs : w.inner.sendersAlive = 0) : Steps w .upgrade w
  | dropSender (hh : w.spare) :
      Steps w .dropSender { w.loseSender with handles := w.handles - 1 }
  | dropReceiver :
      Steps w .dropReceiver
        { w with
          inner := w.inner.dropReceiver.1
          sends := Table.wakeAll w.sends w.inner.dropReceiver.2 }

namespace World

variable {w v : World T}

theorem steps_start {k : Sending T} (hs : w.step (.start k) = some v) : w.Steps (.start k) v := by
  cases k with
  | reserveOwned =>
    obtain ⟨hh, rfl⟩ := of_guard hs
    exact .startOwned hh
  | _ =>
    obtain ⟨hh, rfl⟩ := of_guard_not hs
    exact .start (by simp) (Nat.pos_of_ne_zero hh)

theorem steps_tryReserve (hs : w.step .tryReserve = some v) : w.Steps .tryReserve v := by
  obtain ⟨hh, hv⟩ := ite_none_left_eq_some.mp hs
  split at hv
  next c _ hc =>
    cases hv
    exact .tryReserve (Nat.pos_of_ne_zero hh) hc
  next c e hc =>
    cases hv
    exact .tryReserveFails hc

theorem steps_tryReserveOwned (hs : w.step .tryReserveOwned = some v) :
    w.Steps .tryReserveOwned v := by
  obtain ⟨hh, hv⟩ := ite_none_right_eq_some.mp hs
  split at hv
  next c _ hc =>
    cases hv
    exact .tryReserveOwned hh hc
  next c e hc =>
    cases hv
    exact .tryReserveOwnedFails hc

theorem steps_iteratorNext {k : ℕ} (hs : w.step (.iteratorNext k) = some v) :
    w.Steps (.iteratorNext k) v := by
  rw [step] at hs
  split at hs
  next n hk =>
    cases hs
    exact .iteratorNext hk
  · cases hs
    exact .iteratorEnd
  · cases hs

theorem forall_not_live {recvs : List (Future Unit)} (alive : Bool)
    (h : (alive && !recvs.any fun f => f.phase.isLive)) : ∀ f ∈ recvs, f.phase.isLive = false := by
  intro f hf
  have hany := (and_eq_true_iff.mp h).2
  rw [not_eq_true'] at hany
  exact not_eq_true _ ▸ List.any_eq_false.mp hany f hf

theorem steps_of_step {l : Label T} (hs : w.step l = some v) : w.Steps l v := by
  cases l with
  | start k => exact steps_start hs
  | poll i =>
    obtain ⟨f, hi, hp, rfl⟩ := bind_guard_eq_some.mp hs
    exact .poll hi hp
  | pollElapsed i =>
    rw [step] at hs
    split at hs
    next value p hi =>
      obtain ⟨hp, rfl⟩ := of_guard hs
      exact .pollElapsed hi hp
    · cases hs
  | drop i =>
    obtain ⟨f, hi, hp, rfl⟩ := bind_guard_eq_some.mp hs
    exact .drop hi hp
  | timeoutSend k =>
    obtain ⟨value, hk, rfl⟩ := map_eq_some_iff.mp hs
    exact .timeoutSend hk
  | trySend value =>
    obtain ⟨hh, rfl⟩ := of_guard_not hs
    exact .trySend (Nat.pos_of_ne_zero hh)
  | tryReserve => exact steps_tryReserve hs
  | tryReserveOwned => exact steps_tryReserveOwned hs
  | permitSend value =>
    obtain ⟨h0, rfl⟩ := of_guard_not hs
    exact .permitSend (Nat.pos_of_ne_zero h0)
  | permitDrop =>
    obtain ⟨h0, rfl⟩ := of_guard_not hs
    exact .permitDrop (Nat.pos_of_ne_zero h0)
  | ownedSend value =>
    obtain ⟨h0, rfl⟩ := of_guard_not hs
    exact .ownedSend (Nat.pos_of_ne_zero h0)
  | ownedRelease =>
    obtain ⟨h0, rfl⟩ := of_guard_not hs
    exact .ownedRelease (Nat.pos_of_ne_zero h0)
  | ownedDrop =>
    obtain ⟨h0, rfl⟩ := of_guard_not hs
    exact .ownedDrop (Nat.pos_of_ne_zero h0)
  | iteratorNext k => exact steps_iteratorNext hs
  | iteratorDrop k =>
    obtain ⟨n, hk, rfl⟩ := map_eq_some_iff.mp hs
    exact .iteratorDrop hk
  | startRecv =>
    obtain ⟨hr, rfl⟩ := of_guard hs
    exact .startRecv (forall_not_live _ hr)
  | pollRecv i budget =>
    obtain ⟨f, hi, hp, rfl⟩ := bind_guard_eq_some.mp hs
    exact .pollRecv hi hp
  | dropRecv i =>
    obtain ⟨f, hi, hp, rfl⟩ := bind_guard_eq_some.mp hs
    exact .dropRecv hi hp
  | cloneSender =>
    obtain ⟨hh, rfl⟩ := of_guard_not hs
    exact .cloneSender (Nat.pos_of_ne_zero hh)
  | upgrade =>
    rw [step] at hs
    split at hs <;> rename_i h0
    · cases hs
      exact .upgradeFails h0
    · cases hs
      exact .upgrade h0
  | dropSender =>
    obtain ⟨hh, rfl⟩ := of_guard hs
    exact .dropSender hh
  | dropReceiver =>
    obtain ⟨-, rfl⟩ := of_guard hs
    exact .dropReceiver

end World

end RustyTokio.Mpsc

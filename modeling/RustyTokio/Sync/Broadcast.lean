import RustyTokio.Transition.Lot
import RustyTokio.Transition.System

/-!
# The `broadcast` channel

`src/sync/broadcast.rs`.  A ring buffer holds the last messages; each receiver has a position in the
sequence of all messages.  A receiver that was overtaken is told how many it missed and goes on at
the oldest one there is.  `next_seq` is a natural number here, not a `u64`: no run sends `2 ^ 64`
messages.
-/

namespace RustyTokio.Broadcast

open Transition Option

variable {α : Type}

structure Inner (α : Type) where
  buffer : List α
  capacity : ℕ
  nextSeq : ℕ
  waiters : List ℕ
  sendersAlive : ℕ
  receiversAlive : ℕ
  deriving DecidableEq

structure SendError (α : Type) where
  value : α
  deriving DecidableEq

inductive RecvError where
  | closed
  | lagged (n : ℕ)
  deriving DecidableEq

inductive TryRecvError where
  | empty
  | closed
  | lagged (n : ℕ)
  deriving DecidableEq

def toPoll : Except TryRecvError α → Poll (Except RecvError α)
  | .ok value => .ready (.ok value)
  | .error .empty => .pending
  | .error .closed => .ready (.error .closed)
  | .error (.lagged n) => .ready (.error (.lagged n))

namespace Inner

/-- `channel`, which panics if the capacity is zero. -/
def channel (capacity : ℕ) : Option (Inner α) :=
  if 0 < capacity then some ⟨[], capacity, 0, [], 1, 1⟩ else none

def send (s : Inner α) (value : α) : Inner α × Except (SendError α) (ℕ × List ℕ) :=
  if s.receiversAlive = 0 then (s, .error ⟨value⟩)
  else
    let buffer := if s.buffer.length = s.capacity then s.buffer.tail else s.buffer
    ({ s with buffer := buffer ++ [value], nextSeq := s.nextSeq + 1, waiters := [] },
      .ok (s.receiversAlive, s.waiters))

def subscribe (s : Inner α) : Inner α × ℕ :=
  ({ s with receiversAlive := s.receiversAlive + 1 }, s.nextSeq)

def dropSender (s : Inner α) : Inner α × List ℕ :=
  if s.sendersAlive - 1 = 0 then ({ s with sendersAlive := 0, waiters := [] }, s.waiters)
  else ({ s with sendersAlive := s.sendersAlive - 1 }, [])

def upgrade (s : Inner α) : Option (Inner α) :=
  if s.sendersAlive = 0 then none else some { s with sendersAlive := s.sendersAlive + 1 }

def baseSeq (s : Inner α) : ℕ := s.nextSeq - s.buffer.length

theorem index_lt {s : Inner α} {n : ℕ} (hb : ¬ n < s.baseSeq) (hn : n < s.nextSeq) :
    n - s.baseSeq < s.buffer.length := by
  rw [baseSeq] at hb ⊢
  omega

def pollRecv (s : Inner α) (nextToRead waker : ℕ) : Inner α × ℕ × Poll (Except RecvError α) :=
  if hb : nextToRead < s.baseSeq then
    (s, s.baseSeq, .ready (.error (.lagged (s.baseSeq - nextToRead))))
  else if hn : nextToRead < s.nextSeq then
    have := index_lt hb hn
    (s, nextToRead + 1, .ready (.ok s.buffer[nextToRead - s.baseSeq]))
  else if s.sendersAlive = 0 then (s, nextToRead, .ready (.error .closed))
  else ({ s with waiters := s.waiters ++ [waker] }, nextToRead, .pending)

def tryRecv (s : Inner α) (nextToRead : ℕ) : ℕ × Except TryRecvError α :=
  if hb : nextToRead < s.baseSeq then
    (s.baseSeq, .error (.lagged (s.baseSeq - nextToRead)))
  else if hn : nextToRead < s.nextSeq then
    have := index_lt hb hn
    (nextToRead + 1, .ok s.buffer[nextToRead - s.baseSeq])
  else if s.sendersAlive = 0 then (nextToRead, .error .closed)
  else (nextToRead, .error .empty)

inductive Reads (s : Inner α) (n : ℕ) : ℕ → Except TryRecvError α → Prop where
  | lagged (hb : n < s.baseSeq) : Reads s n s.baseSeq (.error (.lagged (s.baseSeq - n)))
  | ok {value} (hb : s.baseSeq ≤ n) (hv : s.buffer[n - s.baseSeq]? = some value)
      (hn : n < s.nextSeq) : Reads s n (n + 1) (.ok value)
  | closed (hn : s.nextSeq ≤ n) (ha : s.sendersAlive = 0) : Reads s n n (.error .closed)
  | empty (hn : s.nextSeq ≤ n) (ha : s.sendersAlive ≠ 0) : Reads s n n (.error .empty)

theorem reads_tryRecv (s : Inner α) (n : ℕ) : s.Reads n (s.tryRecv n).1 (s.tryRecv n).2 := by
  rw [tryRecv]
  by_cases hb : n < s.baseSeq
  · rw [dif_pos hb]
    exact .lagged hb
  · rw [dif_neg hb]
    by_cases hn : n < s.nextSeq
    · rw [dif_pos hn]
      exact .ok (Nat.le_of_not_lt hb) (List.getElem?_eq_getElem (index_lt hb hn)) hn
    · rw [dif_neg hn]
      by_cases ha : s.sendersAlive = 0
      · rw [if_pos ha]
        exact .closed (Nat.le_of_not_lt hn) ha
      · rw [if_neg ha]
        exact .empty (Nat.le_of_not_lt hn) ha

/-- **`recv` and `try_recv` agree.**  They leave the receiver at the same position and return
the same; where `try_recv` returns `Empty` the poll leaves its waker and is pending. -/
theorem pollRecv_eq (s : Inner α) (n waker : ℕ) : s.pollRecv n waker = ({ s with
          waiters := if (toPoll (s.tryRecv n).2).isPending then s.waiters ++ [waker]
            else s.waiters }, (s.tryRecv n).1, toPoll (s.tryRecv n).2) := by
  rw [pollRecv, tryRecv]
  by_cases hb : n < s.baseSeq
  · rw [dif_pos hb, dif_pos hb]
    rfl
  · rw [dif_neg hb, dif_neg hb]
    by_cases hn : n < s.nextSeq
    · rw [dif_pos hn, dif_pos hn]
      rfl
    · rw [dif_neg hn, dif_neg hn]
      by_cases ha : s.sendersAlive = 0
      · rw [if_pos ha, if_pos ha]
        rfl
      · rw [if_neg ha, if_neg ha]
        rfl

end Inner

structure Receiver (α : Type) where
  nextToRead : ℕ
  alive : Bool
  subscribed : ℕ
  /-- What its calls have returned so far, but for `Empty`. -/
  log : List (Except RecvError α)
  deriving DecidableEq

def Receiver.record (rcv : Receiver α) (nextToRead : ℕ) : Poll (Except RecvError α) → Receiver α
  | .pending => { rcv with nextToRead := nextToRead }
  | .ready result => { rcv with nextToRead := nextToRead, log := rcv.log ++ [result] }

structure World (α : Type) where
  inner : Inner α
  senders : ℕ
  weak : ℕ
  receivers : List (Receiver α)
  futures : List (Sleeper ℕ)
  hands : List (List ℕ)
  sent : List α
  deriving DecidableEq

inductive Label (α : Type) where
  | send (value : α)
  | subscribe
  | cloneSender
  | dropSender
  | downgrade
  | cloneWeak
  | dropWeak
  | upgrade
  | wakeNext (k : ℕ)
  | dropReceiver (r : ℕ)
  | tryRecv (r : ℕ)
  | recv (r : ℕ)
  | poll (i : ℕ) (waker : ℕ)
  | drop (i : ℕ)
  deriving DecidableEq

namespace World

/-- A live future of `recv` borrows the receiver. -/
def busy (w : World α) (r : ℕ) : Bool :=
  w.futures.any fun f => f.phase.isLive && f.kind == r

def free (w : World α) (r : ℕ) : Option (Receiver α) :=
  w.receivers[r]?.bind fun rcv => if rcv.alive ∧ w.busy r = false then some rcv else none

def poll (w : World α) (i : ℕ) (f : Sleeper ℕ) (rcv : Receiver α) (waker : ℕ) : World α :=
  match w.inner.pollRecv rcv.nextToRead waker with
  | (s, n, result) =>
    { w with
      inner := s
      receivers := w.receivers.set f.kind (rcv.record n result)
      futures := w.futures.set i
        ⟨f.kind, waker, if result.isPending then .parked false else .finished⟩ }

def step (w : World α) : Label α → Option (World α)
  | .send value =>
    if w.senders ≠ 0 then
      match w.inner.send value with
      | (s, .ok (_, wakers)) =>
        some { w with inner := s, hands := w.hands ++ [wakers], sent := w.sent ++ [value] }
      | (s, .error _) => some { w with inner := s }
    else none
  | .subscribe =>
    if w.senders ≠ 0 then
      some
        { w with
          inner := w.inner.subscribe.1
          receivers := w.receivers ++ [⟨w.inner.subscribe.2, true, w.inner.subscribe.2, []⟩] }
    else none
  | .cloneSender =>
    if w.senders ≠ 0 then
      some
        { w with
          inner := { w.inner with sendersAlive := w.inner.sendersAlive + 1 }
          senders := w.senders + 1 }
    else none
  | .dropSender =>
    if w.senders ≠ 0 then
      some
        { w with
          inner := w.inner.dropSender.1
          senders := w.senders - 1
          hands := w.hands ++ [w.inner.dropSender.2] }
    else none
  | .downgrade => if w.senders ≠ 0 then some { w with weak := w.weak + 1 } else none
  | .cloneWeak => if w.weak ≠ 0 then some { w with weak := w.weak + 1 } else none
  | .dropWeak => if w.weak ≠ 0 then some { w with weak := w.weak - 1 } else none
  | .upgrade =>
    if w.weak ≠ 0 then
      match w.inner.upgrade with
      | some s => some { w with inner := s, senders := w.senders + 1 }
      | none => some w
    else none
  | .wakeNext k =>
    (Lot.wakeNext w.futures w.hands k).map fun p => { w with futures := p.1, hands := p.2 }
  | .dropReceiver r =>
    (w.free r).map fun rcv =>
      { w with
        inner := { w.inner with receiversAlive := w.inner.receiversAlive - 1 }
        receivers := w.receivers.set r { rcv with alive := false } }
  | .tryRecv r =>
    (w.free r).map fun rcv =>
      match w.inner.tryRecv rcv.nextToRead with
      | (n, result) => { w with receivers := w.receivers.set r (rcv.record n (toPoll result)) }
  | .recv r =>
    (w.free r).map fun _ => { w with futures := w.futures ++ [⟨r, 0, .fresh⟩] }
  | .poll i waker =>
    w.futures[i]?.bind fun f =>
      if f.phase.isLive then w.receivers[f.kind]?.map fun rcv => w.poll i f rcv waker else none
  | .drop i =>
    w.futures[i]?.bind fun f =>
      if f.phase.isLive then
        some { w with futures := w.futures.set i { f with phase := .dropped } }
      else none

/-! ## What a step can do -/

inductive Steps (w : World α) : Label α → World α → Prop where
  | send {value} (hs : w.senders ≠ 0) (hr : w.inner.receiversAlive ≠ 0) :
      Steps w (.send value)
        { w with
          inner :=
            { w.inner with
              buffer :=
                (if w.inner.buffer.length = w.inner.capacity then w.inner.buffer.tail
                  else w.inner.buffer) ++ [value]
              nextSeq := w.inner.nextSeq + 1
              waiters := [] }
          hands := w.hands ++ [w.inner.waiters]
          sent := w.sent ++ [value] }
  | subscribe (hs : w.senders ≠ 0) :
      Steps w .subscribe
        { w with
          inner := { w.inner with receiversAlive := w.inner.receiversAlive + 1 }
          receivers := w.receivers ++ [⟨w.inner.nextSeq, true, w.inner.nextSeq, []⟩] }
  | cloneSender (hs : w.senders ≠ 0) :
      Steps w .cloneSender
        { w with
          inner := { w.inner with sendersAlive := w.inner.sendersAlive + 1 }
          senders := w.senders + 1 }
  | dropLast (hs : w.senders ≠ 0) (ha : w.inner.sendersAlive - 1 = 0) :
      Steps w .dropSender
        { w with
          inner := { w.inner with sendersAlive := 0, waiters := [] }
          senders := w.senders - 1
          hands := w.hands ++ [w.inner.waiters] }
  | dropSender (hs : w.senders ≠ 0) (ha : w.inner.sendersAlive - 1 ≠ 0) :
      Steps w .dropSender
        { w with
          inner := { w.inner with sendersAlive := w.inner.sendersAlive - 1 }
          senders := w.senders - 1
          hands := w.hands ++ [[]] }
  | weak {l} (n : ℕ) : Steps w l { w with weak := n }
  | upgrade (ha : w.inner.sendersAlive ≠ 0) :
      Steps w .upgrade
        { w with
          inner := { w.inner with sendersAlive := w.inner.sendersAlive + 1 }
          senders := w.senders + 1 }
  | fails {l} : Steps w l w
  | wakeNext {k t hs} (hk : Lot.wakeNext w.futures w.hands k = some (t, hs)) :
      Steps w (.wakeNext k) { w with futures := t, hands := hs }
  | dropReceiver {r rcv} (hr : w.receivers[r]? = some rcv) (ha : rcv.alive) :
      Steps w (.dropReceiver r)
        { w with
          inner := { w.inner with receiversAlive := w.inner.receiversAlive - 1 }
          receivers := w.receivers.set r { rcv with alive := false } }
  | tryRecv {r rcv n result} (hr : w.receivers[r]? = some rcv)
      (hn : w.inner.Reads rcv.nextToRead n result) :
      Steps w (.tryRecv r)
        { w with receivers := w.receivers.set r (rcv.record n (toPoll result)) }
  | recv {r} : Steps w (.recv r) { w with futures := w.futures ++ [⟨r, 0, .fresh⟩] }
  | finish {i waker f rcv n result} (hi : w.futures[i]? = some f)
      (hr : w.receivers[f.kind]? = some rcv) (hn : w.inner.Reads rcv.nextToRead n result)
      (hp : (toPoll result).isPending = false) :
      Steps w (.poll i waker)
        { w with
          receivers := w.receivers.set f.kind (rcv.record n (toPoll result))
          futures := w.futures.set i ⟨f.kind, waker, .finished⟩ }
  | park {i waker f rcv} (hi : w.futures[i]? = some f) (hr : w.receivers[f.kind]? = some rcv)
      (hn : w.inner.nextSeq ≤ rcv.nextToRead) (ha : w.inner.sendersAlive ≠ 0) :
      Steps w (.poll i waker)
        { w with
          inner := { w.inner with waiters := w.inner.waiters ++ [waker] }
          receivers := w.receivers.set f.kind rcv
          futures := w.futures.set i ⟨f.kind, waker, .parked false⟩ }
  | drop {i f} (hi : w.futures[i]? = some f) :
      Steps w (.drop i) { w with futures := w.futures.set i { f with phase := .dropped } }

variable {w v : World α}

theorem free_eq_some {r : ℕ} {rcv : Receiver α} (h : w.free r = some rcv) :
    w.receivers[r]? = some rcv ∧ rcv.alive := by
  obtain ⟨_, hr, ⟨ha, -⟩, rfl⟩ := bind_guard_eq_some.mp h
  exact ⟨hr, ha⟩

theorem steps_poll {i waker : ℕ} (h : w.step (.poll i waker) = some v) :
    Steps w (.poll i waker) v := by
  obtain ⟨f, hi, h⟩ := bind_eq_some_iff.mp h
  obtain ⟨-, h⟩ := ite_none_right_eq_some.mp h
  obtain ⟨rcv, hr, rfl⟩ := map_eq_some_iff.mp h
  have hreads := w.inner.reads_tryRecv rcv.nextToRead
  rw [poll, Inner.pollRecv_eq]
  generalize w.inner.tryRecv rcv.nextToRead = p at hreads
  obtain ⟨n, result⟩ := p
  cases hreads with
  | lagged hb => exact .finish hi hr (.lagged hb) rfl
  | ok hb hv hn => exact .finish hi hr (.ok hb hv hn) rfl
  | closed hn ha => exact .finish hi hr (.closed hn ha) rfl
  | empty hn ha => exact .park hi hr hn ha

theorem steps_dropSender (h : w.step .dropSender = some v) : Steps w .dropSender v := by
  obtain ⟨hs, rfl⟩ := of_guard h
  rw [Inner.dropSender]
  by_cases ha : w.inner.sendersAlive - 1 = 0
  · rw [if_pos ha]
    exact .dropLast hs ha
  · rw [if_neg ha]
    exact .dropSender hs ha

theorem steps_of_step {l : Label α} (h : w.step l = some v) : Steps w l v := by
  cases l with
  | send value =>
    obtain ⟨hs, h⟩ := ite_none_right_eq_some.mp h
    rw [Inner.send] at h
    by_cases hr : w.inner.receiversAlive = 0
    · rw [if_pos hr] at h
      cases h
      exact .fails
    · rw [if_neg hr] at h
      cases h
      exact .send hs hr
  | subscribe =>
    obtain ⟨hs, rfl⟩ := of_guard h
    exact .subscribe hs
  | cloneSender =>
    obtain ⟨hs, rfl⟩ := of_guard h
    exact .cloneSender hs
  | dropSender => exact steps_dropSender h
  | downgrade | cloneWeak | dropWeak =>
    obtain ⟨-, rfl⟩ := of_guard h
    exact .weak _
  | upgrade =>
    obtain ⟨-, h⟩ := ite_none_right_eq_some.mp h
    rw [Inner.upgrade] at h
    by_cases ha : w.inner.sendersAlive = 0
    · rw [if_pos ha] at h
      cases h
      exact .fails
    · rw [if_neg ha] at h
      cases h
      exact .upgrade ha
  | wakeNext k =>
    obtain ⟨p, hk, rfl⟩ := map_eq_some_iff.mp h
    exact .wakeNext hk
  | dropReceiver r =>
    obtain ⟨rcv, hr, rfl⟩ := map_eq_some_iff.mp h
    exact .dropReceiver (free_eq_some hr).1 (free_eq_some hr).2
  | tryRecv r =>
    obtain ⟨rcv, hr, rfl⟩ := map_eq_some_iff.mp h
    exact .tryRecv (free_eq_some hr).1 (w.inner.reads_tryRecv rcv.nextToRead)
  | recv r =>
    obtain ⟨rcv, hr, rfl⟩ := map_eq_some_iff.mp h
    exact .recv
  | poll i waker => exact steps_poll h
  | drop i =>
    obtain ⟨f, hi, -, rfl⟩ := bind_guard_eq_some.mp h
    exact .drop hi

end World

def broadcast (inner : Inner α) : System (World α) (Label α) where
  init := ⟨inner, 1, 0, [⟨0, true, 0, []⟩], [], [], []⟩
  step := World.step

end RustyTokio.Broadcast

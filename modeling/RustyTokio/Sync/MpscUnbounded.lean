import RustyTokio.Sync.MpscLedger

/-!
# The unbounded channel

`src/sync/mpsc.rs`, the unbounded half: a queue, the waker of the receiver and the count of
the senders behind one lock.  Nobody waits to send, so `send` is a plain call.
-/

namespace RustyTokio.Mpsc

open Transition Coop

variable {T : Type}

structure UnboundedInner (T : Type) where
  queue : List T
  recvWaker : Option ℕ
  sendersAlive : ℕ
  receiverAlive : Bool
  deriving DecidableEq

def unboundedChannel (T : Type) : UnboundedInner T := ⟨[], none, 1, true⟩

namespace UnboundedInner

def send (c : UnboundedInner T) (value : T) :
    UnboundedInner T × Except (SendError T) Unit × Option ℕ :=
  if !c.receiverAlive then (c, .error ⟨value⟩, none)
  else ({ c with queue := c.queue ++ [value], recvWaker := none }, .ok (), c.recvWaker)

def cloneSender (c : UnboundedInner T) : UnboundedInner T :=
  { c with sendersAlive := c.sendersAlive + 1 }

def dropSender (c : UnboundedInner T) : UnboundedInner T × Option ℕ :=
  if c.sendersAlive - 1 = 0 then
    ({ c with sendersAlive := c.sendersAlive - 1, recvWaker := none }, c.recvWaker)
  else ({ c with sendersAlive := c.sendersAlive - 1 }, none)

def pollRecv (c : UnboundedInner T) (me : ℕ) : UnboundedInner T × Poll (Option T) :=
  match c.queue with
  | value :: rest => ({ c with queue := rest }, .ready (some value))
  | [] =>
    if c.sendersAlive = 0 then (c, .ready none)
    else ({ c with recvWaker := some me }, .pending)

def dropReceiver (c : UnboundedInner T) : UnboundedInner T := { c with receiverAlive := false }

end UnboundedInner

structure UnboundedWorld (T : Type) where
  inner : UnboundedInner T
  recvs : List (Future Unit)
  handles : ℕ
  committed : List T
  received : List T

inductive UnboundedLabel (T : Type) where
  | send (value : T)
  | startRecv
  | pollRecv (i : ℕ) (budget : Option ℕ)
  | dropRecv (i : ℕ)
  | cloneSender
  | upgrade
  | dropSender
  | dropReceiver

namespace UnboundedWorld

def send (w : UnboundedWorld T) (value : T) : UnboundedWorld T :=
  { w with
    inner := (w.inner.send value).1
    recvs := wakeRecv w.recvs (w.inner.send value).2.2
    committed := match (w.inner.send value).2.1 with
      | .ok _ => w.committed ++ [value]
      | .error _ => w.committed }

def pollRecv (w : UnboundedWorld T) (i : ℕ) (budget : Option ℕ) : UnboundedWorld T :=
  match pollProceed budget with
  | none => { w with recvs := Table.setPhase w.recvs i (.parked true) }
  | some _ =>
    { w with
      inner := (w.inner.pollRecv i).1
      recvs := Table.setPhase w.recvs i (phaseOf (w.inner.pollRecv i).2)
      received := match (w.inner.pollRecv i).2 with
        | .ready (some value) => w.received ++ [value]
        | _ => w.received }

def step (w : UnboundedWorld T) : UnboundedLabel T → Option (UnboundedWorld T)
  | .send value => if w.handles = 0 then none else some (w.send value)
  | .startRecv =>
    if w.inner.receiverAlive && !w.recvs.any fun f => f.phase.isLive then
      some { w with recvs := w.recvs ++ [⟨(), .fresh⟩] }
    else none
  | .pollRecv i budget =>
    w.recvs[i]?.bind fun f => if f.phase.isLive then some (w.pollRecv i budget) else none
  | .dropRecv i =>
    w.recvs[i]?.bind fun f =>
      if f.phase.isLive then some { w with recvs := Table.setPhase w.recvs i .dropped } else none
  | .cloneSender =>
    if w.handles = 0 then none
    else some { w with inner := w.inner.cloneSender, handles := w.handles + 1 }
  | .upgrade =>
    if w.inner.sendersAlive = 0 then some w
    else some { w with inner := w.inner.cloneSender, handles := w.handles + 1 }
  | .dropSender =>
    if w.handles = 0 then none
    else some
      { w with
        inner := w.inner.dropSender.1
        recvs := wakeRecv w.recvs w.inner.dropSender.2
        handles := w.handles - 1 }
  | .dropReceiver =>
    if w.inner.receiverAlive && !w.recvs.any fun f => f.phase.isLive then
      some { w with inner := w.inner.dropReceiver }
    else none

end UnboundedWorld

def unboundedMpsc (T : Type) : System (UnboundedWorld T) (UnboundedLabel T) where
  init := ⟨unboundedChannel T, [], 1, [], []⟩
  step := UnboundedWorld.step

namespace UnboundedWorld

def Counted (w : UnboundedWorld T) : Prop := w.inner.sendersAlive = w.handles

def pipe (w : UnboundedWorld T) : Pipe T :=
  ⟨w.inner.queue, w.committed, w.received, w.inner.sendersAlive, w.inner.recvWaker, w.recvs⟩

variable {w v : UnboundedWorld T} {l : UnboundedLabel T}

theorem wakeTaker_pipe (w : UnboundedWorld T) :
    w.pipe.wakeTaker = wakeRecv w.recvs w.inner.recvWaker := by
  rw [Pipe.wakeTaker, pipe]
  cases w.inner.recvWaker <;> rfl

theorem moves_send (h : 0 < w.inner.sendersAlive) (value : T) :
    w.pipe.Moves (w.send value).pipe := by
  cases ha : w.inner.receiverAlive with
  | false =>
    have hsend : w.send value = w := by
      simp only [send, UnboundedInner.send, ha, Bool.not_false, if_true, wakeRecv]
    rw [hsend]
    exact .quiet
  | true =>
    have hmove := Pipe.Moves.push (p := w.pipe) h value
    rw [wakeTaker_pipe] at hmove
    simpa only [pipe, send, UnboundedInner.send, ha, Bool.not_true, Bool.false_eq_true, if_false]
      using hmove

theorem moves_pollRecv {i : ℕ} {budget : Option ℕ} {f : Future Unit}
    (hi : w.recvs[i]? = some f) (hp : f.phase.isLive) :
    w.pipe.Moves (w.pollRecv i budget).pipe := by
  rw [pollRecv]
  split
  · exact .yield hi hp
  · cases hq : w.inner.queue with
    | cons value rest =>
      have hmove := Pipe.Moves.take (p := w.pipe) (i := i) hq
      simpa only [pipe, UnboundedInner.pollRecv, hq, phaseOf] using hmove
    | nil =>
      by_cases h0 : w.inner.sendersAlive = 0
      · have hmove := Pipe.Moves.finish (p := w.pipe) (i := i) hq h0
        simpa only [pipe, UnboundedInner.pollRecv, hq, h0, phaseOf, if_true] using hmove
      · have hmove := Pipe.Moves.park (p := w.pipe) hi hp hq h0
        simpa only [pipe, UnboundedInner.pollRecv, hq, if_neg h0, phaseOf] using hmove

theorem moves_dropSender (h : 0 < w.inner.sendersAlive) : w.pipe.Moves (pipe { w with
      inner := w.inner.dropSender.1
      recvs := wakeRecv w.recvs w.inner.dropSender.2
      handles := w.handles - 1 }) := by
  by_cases hlast : w.inner.sendersAlive - 1 = 0
  · have hmove := Pipe.Moves.last (p := w.pipe) (show w.inner.sendersAlive = 1 by omega)
    rw [wakeTaker_pipe] at hmove
    simp only [pipe, UnboundedInner.dropSender, hlast, if_true] at hmove ⊢
    exact hmove
  · have hmove := Pipe.Moves.leave (p := w.pipe) (show 1 < w.inner.sendersAlive by omega)
    simpa only [pipe, UnboundedInner.dropSender, if_neg hlast, wakeRecv] using hmove

theorem moves_of_step (h : w.Counted) (hs : w.step l = some v) :
    v.Counted ∧ w.pipe.Moves v.pipe := by
  have hcount : w.inner.sendersAlive = w.handles := h
  cases l with
  | send value =>
    obtain ⟨hh, rfl⟩ := of_guard_not hs
    refine ⟨?_, moves_send (by omega) value⟩
    rw [Counted, send, UnboundedInner.send]
    split <;> exact h
  | startRecv =>
    obtain ⟨hr, rfl⟩ := of_guard hs
    exact ⟨h, .start (World.forall_not_live _ hr)⟩
  | pollRecv i budget =>
    obtain ⟨f, hi, hp, rfl⟩ := bind_guard_eq_some.mp hs
    refine ⟨?_, moves_pollRecv hi hp⟩
    rw [Counted, pollRecv]
    split
    · exact h
    · rw [UnboundedInner.pollRecv]
      split
      · exact h
      · split <;> exact h
  | dropRecv i =>
    obtain ⟨f, -, -, rfl⟩ := bind_guard_eq_some.mp hs
    exact ⟨h, .drop⟩
  | cloneSender =>
    obtain ⟨hh, rfl⟩ := of_guard_not hs
    exact ⟨congrArg (· + 1) hcount, .join (show 0 < w.inner.sendersAlive by omega)⟩
  | upgrade =>
    rw [step] at hs
    split at hs
    · cases hs
      exact ⟨h, .quiet⟩
    next h0 =>
      cases hs
      exact ⟨congrArg (· + 1) hcount, .join (Nat.pos_of_ne_zero h0)⟩
  | dropSender =>
    obtain ⟨hh, rfl⟩ := of_guard_not hs
    refine ⟨?_, moves_dropSender (by omega)⟩
    rw [Counted, UnboundedInner.dropSender]
    split <;> exact congrArg (· - 1) hcount
  | dropReceiver =>
    obtain ⟨-, rfl⟩ := of_guard hs
    exact ⟨h, .quiet⟩

end UnboundedWorld

end RustyTokio.Mpsc

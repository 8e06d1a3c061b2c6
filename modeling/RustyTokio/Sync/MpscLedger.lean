import RustyTokio.Sync.MpscSenders
import RustyTokio.Transition.Pipe

/-!
# What was sent through a bounded channel

A value is committed by the call that says so: a `send`, `try_send` or `send_timeout`
that returns `Ok`, or the `send` of a permit.  The ledger of a channel writes the
committed values down in that order, next to the channel itself.
-/

namespace RustyTokio.Mpsc

open Transition Coop List Option World

variable {T : Type} {b : Poll Bool}

/-! ## What the three sends hand back -/

structure SendError (T : Type) where
  value : T
  deriving DecidableEq

inductive SendTimeoutError (T : Type) where
  | timeout (value : T)
  | closed (value : T)
  deriving DecidableEq

def SendTimeoutError.intoInner : SendTimeoutError T → T
  | .timeout value => value
  | .closed value => value

inductive Rejection (T : Type) where
  | send (e : SendError T)
  | trySend (e : TrySendError T)
  | sendTimeout (e : SendTimeoutError T)
  deriving DecidableEq

def Rejection.intoInner : Rejection T → T
  | .send e => e.value
  | .trySend e => e.intoInner
  | .sendTimeout e => e.intoInner

/-- The value a send was given, and what it hands back. -/
structure Reply (T : Type) where
  given : T
  result : Poll (Except (Rejection T) Unit)

def sendResult (value : T) : Poll Bool → Poll (Except (Rejection T) Unit)
  | .pending => .pending
  | .ready true => .ready (.ok ())
  | .ready false => .ready (.error (.send ⟨value⟩))

def trySendResult : Except (TrySendError T) Unit → Poll (Except (Rejection T) Unit)
  | .ok () => .ready (.ok ())
  | .error e => .ready (.error (.trySend e))

/-- `Sender::send_timeout`, after `reserve` was polled; nothing yet when it got its permit,
for then it goes on to fill the slot. -/
def sendTimeoutResult (value : T) (elapsed : Bool) :
    Poll Bool → Option (Poll (Except (Rejection T) Unit))
  | .ready true => none
  | .ready false => some (.ready (.error (.sendTimeout (.closed value))))
  | .pending => some (if elapsed then .ready (.error (.sendTimeout (.timeout value))) else .pending)

namespace World

/-- What a send hands back, when the call is a poll of one or a `try_send`. -/
def reply (w : World T) : Label T → Option (Reply T)
  | .poll i =>
    match w.sends[i]? with
    | some ⟨.send value, _⟩ => some ⟨value, sendResult value (w.inner.pollSend value i).2.1⟩
    | some ⟨.sendTimeout value, _⟩ =>
      (sendTimeoutResult value false (w.inner.pollReserve 1 i).2).map (Reply.mk value)
    | _ => none
  | .pollElapsed i =>
    match w.sends[i]? with
    | some ⟨.sendTimeout value, _⟩ =>
      (sendTimeoutResult value true (w.inner.pollReserve 1 i).2).map (Reply.mk value)
    | _ => none
  | .timeoutSend k => w.timeouts[k]?.map fun value => ⟨value, .ready (.ok ())⟩
  | .trySend value => some ⟨value, trySendResult (w.inner.trySend value).2.1⟩
  | _ => none

def commits (w : World T) : Label T → List T
  | .permitSend value => [value]
  | .ownedSend value => [value]
  | l =>
    match w.reply l with
    | some ⟨value, .ready (.ok _)⟩ => [value]
    | _ => []

end World

def ledger (c : Inner T) : System (World T × List T) (Label T) where
  init := ((mpsc c).init, [])
  step s l := (s.1.step l).map fun v => (v, s.2 ++ s.1.commits l)

theorem ledger_step {c : Inner T} {s t : World T × List T} {l : Label T}
    (h : (ledger c).step s l = some t) : s.1.step l = some t.1 ∧ t.2 = s.2 ++ s.1.commits l := by
  obtain ⟨v, hv, rfl⟩ := map_eq_some_iff.mp h
  exact ⟨hv, rfl⟩

/-! ## A send that is turned away -/

theorem intoInner_of_sendTimeoutResult {value : T} {elapsed : Bool}
    {result : Poll (Except (Rejection T) Unit)}
    (h : sendTimeoutResult value elapsed b = some result) :
    result ≠ .ready (.ok ()) ∧ b ≠ .ready true ∧
      ∀ e, result = .ready (.error e) → e.intoInner = value := by
  cases b with
  | pending =>
    cases h
    cases elapsed with
    | true =>
      refine ⟨by simp, by simp, fun e he => ?_⟩
      cases he
      rfl
    | false => exact ⟨by simp, by simp, by simp⟩
  | ready sent =>
    cases sent with
    | true => simp [sendTimeoutResult] at h
    | false =>
      cases h
      refine ⟨by simp, by simp, fun e he => ?_⟩
      cases he
      rfl

theorem sendResult_eq_ok {value : T} : sendResult value b = .ready (.ok ()) ↔ b = .ready true := by
  cases b with
  | pending => simp [sendResult]
  | ready sent => cases sent <;> simp [sendResult]

namespace World

variable {w v : World T} {l : Label T} {r : Reply T} {i : ℕ} {value : T}

theorem reply_cases (hr : w.reply l = some r) :
    (∃ i p, l = .poll i ∧ w.sends[i]? = some ⟨.send r.given, p⟩ ∧
        r.result = sendResult r.given (w.inner.pollSend r.given i).2.1) ∨
      (∃ i p, l = .poll i ∧ w.sends[i]? = some ⟨.sendTimeout r.given, p⟩ ∧
        sendTimeoutResult r.given false (w.inner.pollReserve 1 i).2 = some r.result) ∨
      (∃ i p, l = .pollElapsed i ∧ w.sends[i]? = some ⟨.sendTimeout r.given, p⟩ ∧
        sendTimeoutResult r.given true (w.inner.pollReserve 1 i).2 = some r.result) ∨
      (∃ k, l = .timeoutSend k ∧ r.result = .ready (.ok ())) ∨
      (l = .trySend r.given ∧ r.result = trySendResult (w.inner.trySend r.given).2.1) := by
  unfold reply at hr
  split at hr
  · split at hr
    next i _ value p hi =>
      cases hr
      exact .inl ⟨i, p, rfl, hi, rfl⟩
    next i _ value p hi =>
      obtain ⟨result, hres, rfl⟩ := map_eq_some_iff.mp hr
      exact .inr (.inl ⟨i, p, rfl, hi, hres⟩)
    · cases hr
  · split at hr
    next i _ value p hi =>
      obtain ⟨result, hres, rfl⟩ := map_eq_some_iff.mp hr
      exact .inr (.inr (.inl ⟨i, p, rfl, hi, hres⟩))
    · cases hr
  next k =>
    obtain ⟨value, -, rfl⟩ := map_eq_some_iff.mp hr
    exact .inr (.inr (.inr (.inl ⟨k, rfl, rfl⟩)))
  · cases hr
    exact .inr (.inr (.inr (.inr ⟨rfl, rfl⟩)))
  · cases hr

theorem intoInner_of_reply (hr : w.reply l = some r) {e : Rejection T}
    (he : r.result = .ready (.error e)) : e.intoInner = r.given := by
  rcases reply_cases hr with ⟨i, p, -, -, hres⟩ | ⟨i, p, -, -, hres⟩ | ⟨i, p, -, -, hres⟩ |
    ⟨k, -, hres⟩ | ⟨-, hres⟩
  · rw [he] at hres
    cases hb : (w.inner.pollSend r.given i).2.1 with
    | pending => simp [hb, sendResult] at hres
    | ready sent =>
      rw [hb] at hres
      cases sent with
      | true => simp [sendResult] at hres
      | false =>
        cases hres
        rfl
  · exact (intoInner_of_sendTimeoutResult hres).2.2 e he
  · exact (intoInner_of_sendTimeoutResult hres).2.2 e he
  · cases he.symm.trans hres
  · rcases w.inner.trySend_outcome r.given with ⟨d, hd, hp⟩ | hp
    · rw [he, hp] at hres
      cases hres
      exact hd
    · exact absurd (he.symm.trans hres) (by simp [hp, trySendResult])

theorem pollReserve_of_not_ready {n : ℕ} (h : (w.inner.pollReserve n i).2 ≠ .ready true) :
    (w.inner.pollReserve n i).1.queue = w.inner.queue ∧
      (w.inner.pollReserve n i).1.reserved = w.inner.reserved := by
  rcases w.inner.pollReserve_outcome n i with ⟨s, b, -, hp⟩ | hp
  · rw [hp]
    exact ⟨rfl, rfl⟩
  · exact absurd (by rw [hp]) h

theorem pollSending_sendTimeout (h : (w.inner.pollReserve 1 i).2 ≠ .ready true) :
    w.pollSending i (.sendTimeout value) = w.reserve i 1 := by
  rw [pollSending_eq _ nofun, pollReserving]
  split
  next hb => exact absurd hb h
  · rfl
  · rfl

theorem pollElapsed_inner (h : (w.inner.pollReserve 1 i).2 ≠ .ready true) :
    (w.pollElapsed i value).inner = (w.inner.pollReserve 1 i).1 := by
  rw [pollElapsed]
  split
  · rfl
  · rw [pollSending_sendTimeout h]
    rfl

theorem unchanged_of_reply (hr : w.reply l = some r) (hn : r.result ≠ .ready (.ok ()))
    (hs : w.step l = some v) :
    v.inner.queue = w.inner.queue ∧ v.inner.reserved = w.inner.reserved := by
  rcases reply_cases hr with ⟨i, p, rfl, hi, hres⟩ | ⟨i, p, rfl, hi, hres⟩ |
    ⟨i, p, rfl, hi, hres⟩ | ⟨k, -, hres⟩ | ⟨rfl, hres⟩
  · obtain ⟨f, hf, -, rfl⟩ := bind_guard_eq_some.mp hs
    cases hf.symm.trans hi
    rw [hres, Ne, sendResult_eq_ok] at hn
    rcases w.inner.pollSend_outcome r.given i with ⟨s, b, -, hp⟩ | hp
    · simp only [pollSending, hp, and_self]
    · exact absurd (by rw [hp]) hn
  · obtain ⟨f, hf, -, rfl⟩ := bind_guard_eq_some.mp hs
    cases hf.symm.trans hi
    have hb := (intoInner_of_sendTimeoutResult hres).2.1
    rw [pollSending_sendTimeout hb]
    exact pollReserve_of_not_ready hb
  · have hb := (intoInner_of_sendTimeoutResult hres).2.1
    cases steps_of_step hs with
    | pollElapsed =>
      rw [pollElapsed_inner hb]
      exact pollReserve_of_not_ready hb
  · exact absurd hres hn
  · cases steps_of_step hs with
    | trySend hh =>
      rcases w.inner.trySend_outcome r.given with ⟨e, -, hp⟩ | hp
      · simp only [hp, and_self]
      · exact absurd (by rw [hres, hp]; rfl) hn

end World

namespace World

/-! ## The pipe of a channel -/

def pipe (w : World T) (log : List T) : Pipe T :=
  ⟨w.inner.queue, log, w.received, w.inner.sendersAlive, w.inner.recvWaker, w.recvs⟩

section Moves

variable {w v : World T} {l : Label T} {log : List T} {reserved : ℕ} {f : Future (Sending T)}
  {p : Phase} {value : T} {i : ℕ}

theorem wakeTaker_pipe (w : World T) (log : List T) :
    (w.pipe log).wakeTaker = wakeRecv w.recvs w.inner.recvWaker := by
  rw [Pipe.wakeTaker, pipe]
  cases w.inner.recvWaker <;> rfl

theorem moves_of_same {waiters : List ℕ} {alive : Bool} (hinner : v.inner =
      { w.inner with reserved := reserved, sendWaiters := waiters, receiverAlive := alive })
    (hrecvs : v.recvs = w.recvs) (hreceived : v.received = w.received) :
    (w.pipe log).Moves (v.pipe (log ++ [])) := by
  have hpipe : v.pipe (log ++ []) = w.pipe log := by
    rw [append_nil, pipe, pipe, hinner, hrecvs, hreceived]
  rw [hpipe]
  exact .quiet

theorem moves_of_push (h : 0 < w.inner.sendersAlive)
    (hinner : v.inner = { w.inner with reserved := reserved }.push value)
    (hrecvs : v.recvs = wakeRecv w.recvs w.inner.recvWaker) (hreceived : v.received = w.received) :
    (w.pipe log).Moves (v.pipe (log ++ [value])) := by
  have hpush := Pipe.Moves.push (p := w.pipe log) h value
  have hpipe : v.pipe (log ++ [value]) = { w.pipe log with
      queue := w.inner.queue ++ [value], sent := log ++ [value], waker := none,
      takers := (w.pipe log).wakeTaker } := by
    rw [wakeTaker_pipe, pipe, hinner, hrecvs, hreceived]
    rfl
  rwa [hpipe]

theorem moves_of_loseSender {u : World T} (h : 0 < u.inner.sendersAlive)
    (hpipe : u.pipe log = w.pipe log) : (w.pipe log).Moves (u.loseSender.pipe (log ++ [])) := by
  rw [append_nil, ← hpipe]
  by_cases hlast : u.inner.sendersAlive - 1 = 0
  · have hmove := Pipe.Moves.last (p := u.pipe log) (show u.inner.sendersAlive = 1 by omega)
    have hu : u.loseSender.pipe log = { u.pipe log with
        senders := 0, waker := none, takers := (u.pipe log).wakeTaker } := by
      rw [wakeTaker_pipe]
      simp only [pipe, loseSender, Inner.dropSender, hlast, if_true]
    rwa [hu]
  · have hmove := Pipe.Moves.leave (p := u.pipe log) (show 1 < u.inner.sendersAlive by omega)
    have hu : u.loseSender.pipe log = { u.pipe log with senders := u.inner.sendersAlive - 1 } := by
      simp only [pipe, loseSender, Inner.dropSender, if_neg hlast, wakeRecv]
    rwa [hu]

theorem moves_of_reserve {n : ℕ} (hinner : v.inner = (w.inner.pollReserve n i).1)
    (hrecvs : v.recvs = w.recvs) (hreceived : v.received = w.received) :
    (w.pipe log).Moves (v.pipe (log ++ [])) := by
  rcases w.inner.pollReserve_outcome n i with ⟨s, b, -, hp⟩ | hp <;> rw [hp] at hinner
  · exact moves_of_same hinner hrecvs hreceived
  · exact moves_of_same hinner hrecvs hreceived

theorem pipe_reserve (w : World T) (i n : ℕ) (log : List T) :
    (w.reserve i n).pipe log = w.pipe log := by
  rcases w.inner.pollReserve_outcome n i with ⟨s, b, -, hp⟩ | hp <;> simp only [pipe, reserve, hp]

theorem commits_eq_nil (hl : l = .poll i ∨ l = .pollElapsed i)
    (hi : w.sends[i]? = some f) (hk : ∀ value, f.kind ≠ .send value) : w.commits l = [] := by
  unfold commits
  split
  · simp at hl
  · simp at hl
  · split
    next value _ hr =>
      rcases reply_cases hr with ⟨j, p, rfl, hj, -⟩ | ⟨j, p, -, -, hres⟩ | ⟨j, p, -, -, hres⟩ |
        ⟨k, rfl, -⟩ | ⟨rfl, -⟩
      · obtain rfl : j = i := by simpa using hl
        cases hi.symm.trans hj
        exact absurd rfl (hk value)
      · exact absurd rfl (intoInner_of_sendTimeoutResult hres).1
      · exact absurd rfl (intoInner_of_sendTimeoutResult hres).1
      · simp at hl
      · simp at hl
    · rfl

theorem commits_poll_send (hi : w.sends[i]? = some ⟨.send value, p⟩) :
    w.commits (.poll i) = if (w.inner.pollSend value i).2.1 = .ready true then [value] else [] := by
  have hr : w.reply (.poll i) =
      some ⟨value, sendResult value (w.inner.pollSend value i).2.1⟩ := by
    rw [reply, hi]
  rw [commits, hr]
  · cases (w.inner.pollSend value i).2.1 with
    | pending => rfl
    | ready sent => cases sent <;> rfl
  · simp
  · simp

section

variable (h : 0 < w.inner.sendersAlive)

include h

theorem moves_pollSending (hi : w.sends[i]? = some f) :
    (w.pipe log).Moves ((w.pollSending i f.kind).pipe (log ++ w.commits (.poll i))) := by
  obtain ⟨k, p⟩ := f
  cases k with
  | send value =>
    rw [commits_poll_send hi]
    rcases w.inner.pollSend_outcome value i with ⟨s, b, hb, hp⟩ | hp
    · simp only [pollSending, hp, if_neg hb]
      exact moves_of_same rfl rfl rfl
    · simp only [pollSending, hp, if_true]
      exact moves_of_push h rfl rfl rfl
  | _ =>
    rw [commits_eq_nil (.inl rfl) hi (by simp), pollSending_eq _ (by simp), pollReserving]
    split
    · exact moves_of_reserve (hold_inner _ _) (hold_recvs _ _) (hold_received _ _)
    · split
      · refine moves_of_loseSender ?_ (w.pipe_reserve i _ log)
        rwa [w.reserve_sendersAlive]
      · exact moves_of_reserve rfl rfl rfl
    · exact moves_of_reserve rfl rfl rfl

theorem moves_pollElapsed (hi : w.sends[i]? = some ⟨.sendTimeout value, p⟩) :
    (w.pipe log).Moves ((w.pollElapsed i value).pipe (log ++ w.commits (.pollElapsed i))) := by
  rw [commits_eq_nil (.inr rfl) hi (by simp), pollElapsed]
  split
  · exact moves_of_reserve rfl rfl rfl
  · have hmove : (w.pipe log).Moves
        ((w.pollSending i (.sendTimeout value)).pipe (log ++ w.commits (.poll i))) :=
      moves_pollSending h hi
    rwa [commits_eq_nil (.inl rfl) hi (by simp)] at hmove

theorem moves_dropSending : (w.pipe log).Moves ((w.dropSending i f.kind).pipe (log ++ [])) := by
  unfold dropSending
  split
  · exact moves_of_loseSender h rfl
  · exact moves_of_same rfl rfl rfl

theorem moves_trySend : (w.pipe log).Moves (pipe { w with
      inner := (w.inner.trySend value).1
      recvs := wakeRecv w.recvs (w.inner.trySend value).2.2 }
      (log ++ w.commits (.trySend value))) := by
  rcases w.inner.trySend_outcome value with ⟨e, -, hp⟩ | hp
  · simp only [commits, reply, hp, trySendResult]
    exact moves_of_same rfl rfl rfl
  · simp only [commits, reply, hp, trySendResult]
    exact moves_of_push h rfl rfl rfl

end

theorem moves_tryReserve {c : Inner T} {r : Except (TrySendError Unit) Unit}
    (hc : w.inner.tryReserve = (c, r)) (hinner : v.inner = c) (hrecvs : v.recvs = w.recvs)
    (hreceived : v.received = w.received) : (w.pipe log).Moves (v.pipe (log ++ [])) := by
  rcases w.inner.tryReserve_outcome with ⟨e, hp⟩ | hp <;> cases hc.symm.trans hp
  · exact moves_of_same hinner hrecvs hreceived
  · exact moves_of_same hinner hrecvs hreceived

theorem moves_pollRecv {budget : Option ℕ} {f : Future Unit}
    (hi : w.recvs[i]? = some f) (hp : f.phase.isLive) :
    (w.pipe log).Moves ((w.pollRecv i budget).pipe (log ++ [])) := by
  rw [append_nil, World.pollRecv]
  split
  · exact .yield hi hp
  · cases hq : w.inner.queue with
    | cons value rest =>
      have hmove := Pipe.Moves.take (p := w.pipe log) (i := i) hq
      simpa only [pipe, Inner.pollRecv, hq, phaseOf] using hmove
    | nil =>
      by_cases h0 : w.inner.sendersAlive = 0
      · have hmove := Pipe.Moves.finish (p := w.pipe log) (i := i) hq h0
        simpa only [pipe, Inner.pollRecv, hq, h0, phaseOf, if_true] using hmove
      · have hmove := Pipe.Moves.park (p := w.pipe log) hi hp hq h0
        simpa only [pipe, Inner.pollRecv, hq, if_neg h0, phaseOf] using hmove

theorem moves_of_step (h : w.Owners) (hs : w.step l = some v) (log : List T) :
    (w.pipe log).Moves (v.pipe (log ++ w.commits l)) := by
  have hcount := h.count
  -- whoever makes a call on the sending side has a `Sender`
  have hhandle : 0 < w.handles → 0 < w.inner.sendersAlive := by
    intro hpos
    simp only [senders] at hcount
    omega
  have hloan : 0 < w.loans → 0 < w.inner.sendersAlive := fun hl => hhandle (h.lent hl)
  have hfuture : ∀ {i : ℕ} {f : Future (Sending T)}, w.sends[i]? = some f →
      f.phase.isLive → 0 < w.inner.sendersAlive := by
    intro i f hi hp
    cases hk : f.kind.isOwned with
    | true =>
      have hpos := Table.live_pos Sending.isOwned hi hp hk
      simp only [senders, ownedFutures] at hcount
      omega
    | false =>
      exact hloan (Nat.lt_of_lt_of_le (counts_of_lent hi hp hk .dropped).2 (Nat.le_add_left _ _))
  cases steps_of_step hs with
  | start hk hh | startOwned hh | permitDrop h0 | ownedRelease h0 | iteratorNext hk
  | iteratorEnd | iteratorDrop hk | upgradeFails h0 | dropReceiver =>
    exact moves_of_same rfl rfl rfl
  | poll hi hp => exact moves_pollSending (hfuture hi hp) hi
  | pollElapsed hi hp => exact moves_pollElapsed (hfuture hi hp) hi
  | drop hi hp => exact moves_dropSending (hfuture hi hp)
  | timeoutSend hk =>
    have hlen := Pool.length_eraseIdx_add_one hk
    have hpos : 0 < w.loans := by
      simp only [loans]
      omega
    simp only [commits, reply, hk, map_some]
    exact moves_of_push (hloan hpos) rfl rfl rfl
  | trySend hh => exact moves_trySend (hhandle hh)
  | tryReserve hh hc | tryReserveFails hc | tryReserveOwned hh hc | tryReserveOwnedFails hc =>
    exact moves_tryReserve hc rfl rfl rfl
  | permitSend h0 =>
    have hpos : 0 < w.loans := by
      simp only [loans]
      omega
    exact moves_of_push (hloan hpos) rfl rfl rfl
  | ownedSend h0 =>
    have hpos : 0 < w.inner.sendersAlive := by
      simp only [senders] at hcount
      omega
    exact moves_of_push hpos rfl rfl rfl
  | ownedDrop h0 =>
    have hpos : 0 < w.inner.sendersAlive := by
      simp only [senders] at hcount
      omega
    exact moves_of_loseSender hpos rfl
  | startRecv hr =>
    have hmove := Pipe.Moves.start (p := w.pipe log) hr
    simpa only [commits, reply, append_nil, pipe] using hmove
  | pollRecv hi hp => exact moves_pollRecv hi hp
  | @dropRecv i f hi hp =>
    have hmove := Pipe.Moves.drop (p := w.pipe log) (i := i)
    simpa only [commits, reply, append_nil, pipe] using hmove
  | cloneSender hh =>
    have hmove := Pipe.Moves.join (p := w.pipe log) (hhandle hh)
    simpa only [commits, reply, append_nil, pipe, Inner.cloneSender] using hmove
  | upgrade h0 =>
    have hmove := Pipe.Moves.join (p := w.pipe log) (Nat.pos_of_ne_zero h0)
    simpa only [commits, reply, append_nil, pipe, Inner.cloneSender] using hmove
  | dropSender hh =>
    have hpos := hhandle ((spare_iff w).mp hh).1
    exact moves_of_loseSender (w := w) (u := { w with handles := w.handles - 1 }) hpos rfl

end Moves

end World

/-! ## The ledger -/

section Ledger

variable {capacity : UInt64} {c : Inner T} {s : World T × List T}

def Kept (s : World T × List T) : Prop := s.1.Owners ∧ (s.1.pipe s.2).Sound

theorem kept_init (hc : channel T capacity = some c) : Kept (ledger c).init := by
  obtain ⟨-, rfl⟩ := of_guard hc
  exact ⟨⟨rfl, fun h => absurd h (Nat.lt_irrefl 0)⟩, Pipe.sound_new 1⟩

theorem kept_of_step {t : World T × List T} {l : Label T} (h : Kept s)
    (hs : (ledger c).step s l = some t) : Kept t := by
  obtain ⟨hstep, hlog⟩ := ledger_step hs
  refine ⟨owners_of_step h.1 hstep, ?_⟩
  rw [hlog]
  exact h.2.moves (moves_of_step h.1 hstep s.2)

theorem kept_of_reachable (hc : channel T capacity = some c)
    (hs : (ledger c).Reachable s) : Kept s :=
  System.inv_of_reachable (I := Kept) (kept_init hc) (fun _ _ _ h hs => kept_of_step h hs) hs

theorem accounted_of_ledger (hc : channel T capacity = some c)
    (hs : (ledger c).ReachableUnder (fun s l => s.1.overflows l = false) s) : s.1.Accounted := by
  refine System.inv_of_reachableUnder (I := fun s => s.1.Accounted) (accounted_init hc)
    (fun s l t h hn hstep => ?_) hs
  exact (lawful_of_step h hn (ledger_step hstep).1).accounted

/-- **A bounded channel is a lossless bounded queue.**  As long as no sum of `poll_reserve`
overflows, the values received and then the queue are the committed ones in order; the reserved
slots are those of permits and iterators; the slots in use fit the capacity; and a send that is
turned away returns its value and, as a pending one, touches nothing. -/
theorem lossless_fifo (hc : channel T capacity = some c) {w : World T} {log : List T}
    (hw : (ledger c).ReachableUnder (fun s l => s.1.overflows l = false) (w, log)) :
    w.received ++ w.inner.queue = log ∧ w.inner.reserved =
        w.permits + w.ownedPermits + w.timeouts.length + w.iterators.sum ∧
      w.inner.queue.length + w.inner.reserved ≤ w.inner.capacity ∧
      ∀ (l : Label T) (v : World T) (r : Reply T), w.step l = some v → w.reply l = some r →
        r.result ≠ .ready (.ok ()) → (∀ e, r.result = .ready (.error e) → e.intoInner = r.given) ∧
            v.inner.queue = w.inner.queue ∧ v.inner.reserved = w.inner.reserved := by
  have haccounted := accounted_of_ledger hc hw
  have hkept := kept_of_reachable hc hw.reachable
  refine ⟨hkept.2.fifo, haccounted.reserved, haccounted.fits.bounded, fun l v r hs hr hn => ?_⟩
  exact ⟨fun e he => intoInner_of_reply hr he, unchanged_of_reply hr hn hs⟩

theorem lossless_fifo_when_full : ∃ (c : Inner ℕ) (w : World ℕ), channel ℕ 2 = some c ∧
    (ledger c).Reachable (w, [5, 6]) ∧ w.permits = 1 ∧
    w.reply (.trySend 7) = some ⟨7, .ready (.error (.trySend (.full 7)))⟩ ∧
    w.received ++ w.inner.queue = [5, 6] ∧ w.inner.reserved = 1 ∧
    w.inner.queue.length + w.inner.reserved ≤ w.inner.capacity ∧ ∀ v, w.step (.trySend 7) = some v →
      v.inner.queue = w.inner.queue ∧ v.inner.reserved = w.inner.reserved := by
  have hc : channel ℕ 2 = some ⟨[], 2, 0, [], none, 1, true⟩ := rfl
  have hw : (ledger ⟨[], 2, 0, [], none, 1, true⟩).ReachableUnder
      (fun s l => s.1.overflows l = false)
      ((⟨⟨[6], 2, 1, [], none, 1, true⟩, [⟨.send 5, .finished⟩], [⟨(), .finished⟩], 1, 1, 0, [],
        [], [5]⟩ : World ℕ), [5, 6]) :=
    ⟨[.start (.send 5), .poll 0, .startRecv, .pollRecv 0 none, .trySend 6, .tryReserve], rfl,
      by decide⟩
  obtain ⟨hfifo, hreserved, hbound, hreply⟩ := lossless_fifo hc hw
  exact ⟨_, _, hc, hw.reachable, rfl, rfl, hfifo, hreserved, hbound,
    fun v hs => (hreply _ v ⟨7, .ready (.error (.trySend (.full 7)))⟩ hs rfl (by simp)).2⟩

end Ledger

end RustyTokio.Mpsc

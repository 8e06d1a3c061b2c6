import RustyTokio.Reactor.Source

/-!
# When a connect resolves

`TcpStream::connect_addr` and `TcpSocket::connect` of `src/io/tcp.rs`, with the system calls of
`src/io/socket/posix.rs`.  The socket is told to connect, then registered, and the future waits for
it to become writable to read `SO_ERROR`.
-/

namespace RustyTokio.Reactor

open Transition Coop Option Bool Source

/-! ## The kernel's side -/

/-- The connection attempt of a socket.  A failure leaves its error in `SO_ERROR`,
until it is read. -/
inductive Attempt where
  | unstarted
  | inProgress
  | established
  | failed (soError : Option Errno)
  deriving DecidableEq

def einprogress : Errno := 115

/-- What `connect(2)` leaves when it sets this error number, 0 for none. -/
def Attempt.ofConnect (errno : Errno) : Attempt :=
  if errno = 0 then .established else if errno = einprogress then .inProgress else .unstarted

/-- `getsockopt(SO_ERROR)`, which clears what it reads. -/
def Attempt.soError : Attempt → Errno × Attempt
  | .failed (some e) => (e, .failed none)
  | a => (0, a)

/-- The events that announce the state of the attempt: writability when it is
done, and everything when it has failed. -/
def Attempt.events : Attempt → List Event
  | .established => [⟨false, true, false, false, false⟩]
  | .failed _ => [⟨true, true, true, true, true⟩]
  | _ => []

def connect (errno : Errno) : Except Errno Unit :=
  if errno = 0 then .ok () else if errno = einprogress then .ok () else .error errno

/-- `take_error`; `fault` is the error of a `getsockopt` that fails. -/
def takeError (a : Attempt) (fault : Option Errno) : Except Errno (Option Errno) × Attempt :=
  match fault with
  | some e => (.error e, a)
  | none => (.ok (if a.soError.1 = 0 then none else some a.soError.1), a.soError.2)

def takeSocketError (a : Attempt) (fault : Option Errno) : Except Errno Unit × Attempt :=
  match takeError a fault with
  | (.error e, a') => (.error e, a')
  | (.ok none, a') => (.ok (), a')
  | (.ok (some e), a') => (.error e, a')

inductive Progress where
  | establish
  | fail (e : Errno)
  deriving DecidableEq

/-- The attempt as a device: it ends once, and is announced when it does.
`getsockopt` does not fail with `WouldBlock`. -/
def attempt : Device Attempt (Option Errno) Progress Unit where
  op a fault := if fault.any isWouldBlock then none else some (takeSocketError a fault)
  kernel a x :=
    match a, x with
    | .inProgress, .establish => some (.established, Attempt.established.events)
    | .inProgress, .fail e =>
      if e = 0 then none else some (.failed (some e), (Attempt.failed (some e)).events)
    | _, _ => none

/-! ## The future -/

inductive Stage where
  | socket
  | connect
  | register
  | waiting
  | failed (e : Errno)
  deriving DecidableEq

structure Connect where
  stage : Stage
  source : Source Attempt Unit

/-- What happens around the future.  The system calls are given by the error
number they set, 0 for none. -/
inductive ConnectLabel where
  | newTcpSocket (errno : Errno)
  | connect (errno : Errno)
  | register (errno : Errno)
  /-- The kernel ends the attempt while the socket is not registered. -/
  | unregistered (x : Progress)
  | registered (l : Label (Option Errno) Progress)

namespace Connect

def resolved (s : Connect) : Option (Except Errno Unit) :=
  match s.stage, s.source.pc with
  | .failed e, _ => some (.error e)
  | .waiting, .returned (.result r) => some r
  | _, _ => none

/-- A label of the registered socket that the future can take part in: it polls
with `poll_io` only, and not once it has resolved. -/
def allows (s : Connect) : Label (Option Errno) Progress → Bool
  | .call (.pollIo _) => s.resolved.isNone
  | .call _ => false
  | _ => true

def step (me : ℕ) (s : Connect) : ConnectLabel → Option Connect
  | .newTcpSocket errno =>
    if s.stage = .socket then
      some { s with stage := if errno = 0 then .connect else .failed errno }
    else none
  | .connect errno =>
    if s.stage = .connect then
      match Reactor.connect errno with
      | .ok _ =>
        some ⟨.register, { s.source with device := .ofConnect errno }⟩
      | .error e => some { s with stage := .failed e }
    else none
  | .register errno =>
    if s.stage = .register then
      if errno = 0 then some ⟨.waiting, .registered s.source.device s.source.device.events⟩
      else some { s with stage := .failed errno }
    else none
  | .unregistered x =>
    if s.stage = .register then
      (attempt.kernel s.source.device x).map fun p =>
        { s with source := { s.source with device := p.1 } }
    else none
  | .registered l =>
    if s.stage = .waiting ∧ s.allows l then
      (s.source.step attempt .write me l).map fun source => { s with source := source }
    else none

end Connect

inductive Entry where
  | connectAddr
  | tcpSocketConnect
  deriving DecidableEq

def Entry.stage : Entry → Stage
  | .connectAddr => .socket
  | .tcpSocketConnect => .connect

def connecting (entry : Entry) (me : ℕ) : System Connect ConnectLabel where
  init := ⟨entry.stage, .registered .unstarted []⟩
  step := Connect.step me

namespace Connect

variable {me : ℕ} {s t : Connect}

/-! ## What a step does -/

inductive Steps (me : ℕ) (s : Connect) : ConnectLabel → Connect → Prop where
  | newTcpSocket {errno} (hst : s.stage = .socket) : Steps me s (.newTcpSocket errno)
      { s with stage := if errno = 0 then .connect else .failed errno }
  | connect {errno} (hst : s.stage = .connect) (he : errno = 0 ∨ errno = einprogress) :
      Steps me s (.connect errno) ⟨.register, { s.source with device := .ofConnect errno }⟩
  | refused {errno} (hst : s.stage = .connect) :
      Steps me s (.connect errno) { s with stage := .failed errno }
  | register {errno} (hst : s.stage = .register) : Steps me s (.register errno)
      ⟨.waiting, .registered s.source.device s.source.device.events⟩
  | turnedDown {errno} (hst : s.stage = .register) :
      Steps me s (.register errno) { s with stage := .failed errno }
  | unregistered {x a evs} (hst : s.stage = .register)
      (hk : attempt.kernel s.source.device x = some (a, evs)) :
      Steps me s (.unregistered x) { s with source := { s.source with device := a } }
  | registered {l source} (hst : s.stage = .waiting) (hal : s.allows l)
      (hs : s.source.step attempt .write me l = some source) :
      Steps me s (.registered l) { s with source := source }

theorem steps_of_step {l : ConnectLabel} (h : s.step me l = some t) : Steps me s l t := by
  cases l with
  | newTcpSocket errno =>
    obtain ⟨hst, rfl⟩ := of_guard h
    exact .newTcpSocket hst
  | connect errno =>
    obtain ⟨hst, h⟩ := ite_none_right_eq_some.mp h
    by_cases he : errno = 0 ∨ errno = einprogress
    · have hc : Reactor.connect errno = .ok () := by
        rcases he with rfl | rfl <;> rfl
      rw [hc] at h
      exact some.inj h ▸ .connect hst he
    · have hc : Reactor.connect errno = .error errno := by
        obtain ⟨h0, h1⟩ := not_or.mp he
        rw [Reactor.connect, if_neg h0, if_neg h1]
      rw [hc] at h
      exact some.inj h ▸ .refused hst
  | register errno =>
    obtain ⟨hst, h⟩ := ite_none_right_eq_some.mp h
    split at h
    · exact some.inj h ▸ .register hst
    · exact some.inj h ▸ .turnedDown hst
  | unregistered x =>
    obtain ⟨hst, h⟩ := ite_none_right_eq_some.mp h
    obtain ⟨⟨a, evs⟩, hk, rfl⟩ := map_eq_some_iff.mp h
    exact .unregistered hst hk
  | registered l' =>
    obtain ⟨⟨hst, hal⟩, h⟩ := ite_none_right_eq_some.mp h
    obtain ⟨source, hs, rfl⟩ := map_eq_some_iff.mp h
    exact .registered hst hal hs

end Connect

variable {a a' : Attempt}

theorem attempt_kernel {x : Progress} {evs : List Event} (h : attempt.kernel a x = some (a', evs)) :
    a = .inProgress ∧ (x = .establish ∧ a' = .established ∨
      ∃ e, x = .fail e ∧ e ≠ 0 ∧ a' = .failed (some e)) := by
  cases a with
  | inProgress =>
    cases x with
    | establish =>
      obtain ⟨rfl, -⟩ := pair_of_some h
      exact ⟨rfl, .inl ⟨rfl, rfl⟩⟩
    | fail e =>
      simp only [attempt, ite_none_left_eq_some, some.injEq, Prod.mk.injEq] at h
      exact ⟨rfl, .inr ⟨e, rfl, h.1, h.2.1.symm⟩⟩
  | _ => exact absurd h (by cases x <;> simp [attempt])

theorem takeSocketError_failed {e : Errno} (he : e ≠ 0) :
    takeSocketError (.failed (some e)) none = (.error e, .failed none) := by
  simp [takeSocketError, takeError, Attempt.soError, he]

theorem attempt_op {fault : Option Errno} {r : Except Errno Unit}
    (h : attempt.op a fault = some (r, a')) :
    (∃ e, r = .error e ∧ isWouldBlock e = false ∧ a' = a) ∨
      (∃ e, a = .failed (some e) ∧ a' = .failed none ∧ (r = .error e ∨ e = 0)) ∨
      (r = .ok () ∧ a' = a ∧ ∀ e, a ≠ .failed (some e)) := by
  cases fault with
  | some e =>
    simp only [attempt, any_some, ite_none_left_eq_some, some.injEq] at h
    obtain ⟨he, h⟩ := h
    cases h
    exact .inl ⟨e, rfl, by simpa using he, rfl⟩
  | none =>
    simp only [attempt, any_none, false_eq_true, if_false, some.injEq] at h
    cases a with
    | failed soError =>
      cases soError with
      | some e =>
        refine .inr (.inl ⟨e, rfl, ?_⟩)
        obtain rfl | he := eq_or_ne e 0
        · cases h
          exact ⟨rfl, .inr rfl⟩
        · rw [takeSocketError_failed he] at h
          cases h
          exact ⟨rfl, .inl rfl⟩
      | none =>
        cases h
        exact .inr (.inr ⟨rfl, rfl, by simp⟩)
    | _ =>
      cases h
      exact .inr (.inr ⟨rfl, rfl, by simp⟩)

theorem device_step {me : ℕ} {s t : Source Attempt Unit} {l : Label (Option Errno) Progress}
    (hs : s.step attempt .write me l = some t) :
    t.device = s.device ∨ ((∃ e, s.device = .failed (some e)) ∧ t.device = .failed none) ∨
      (s.device = .inProgress ∧ (t.device = .established ∨
        ∃ e, l = .kernel (.fail e) ∧ e ≠ 0 ∧ t.device = .failed (some e))) := by
  cases steps_of_step hs with
  | @call c =>
    refine .inl ?_
    cases c with
    | pollIo budget => cases hb : pollProceed budget <;> simp [Source.call, hb]
    | pollReady | tryIo => rfl
  | op hpc hop =>
    rcases attempt_op hop with ⟨-, -, -, rfl⟩ | ⟨e, ha, rfl, -⟩ | ⟨-, rfl, -⟩
    · exact .inl rfl
    · exact .inr (.inl ⟨⟨e, ha⟩, rfl⟩)
    · exact .inl rfl
  | kernel hk =>
    obtain ⟨ha, ⟨-, rfl⟩ | ⟨e, rfl, he, rfl⟩⟩ := attempt_kernel hk
    · exact .inr (.inr ⟨ha, .inl rfl⟩)
    · exact .inr (.inr ⟨ha, .inr ⟨e, rfl, he, rfl⟩⟩)
  | _ => exact .inl rfl

def Pc.waits {α : Type} : Pc α → Bool
  | .returned .pending => true
  | .returned .ready => true
  | _ => false

/-! ## The flag of a socket that is connecting -/

/-- Until its error is read, the socket is flagged writable. -/
structure Fresh (s : Source Attempt Unit) : Prop where
  flag : s.device ≠ .failed none → s.io.flag .write = true ∧
    (s.pc = .load true ∨ s.pc = .op true ∨ ∃ r, s.pc = .returned r)
  quiet : s.device = .inProgress → s.events = [] ∧ s.reactor = .waiting

namespace Fresh

variable {me : ℕ} {s t : Source Attempt Unit}

theorem registered {a : Attempt} {evs : List Event} (h : a = .inProgress → evs = []) :
    Fresh (.registered a evs) :=
  ⟨fun _ => ⟨rfl, .inr (.inr ⟨.ready, rfl⟩)⟩, fun ha => ⟨h ha, rfl⟩⟩

theorem step (h : Fresh s) {l : Label (Option Errno) Progress}
    (hl : ∀ c, l = .call c → ∃ budget, c = .pollIo budget)
    (hs : s.step attempt .write me l = some t) : Fresh t := by
  cases steps_of_step hs with
  | @call c =>
    obtain ⟨budget, rfl⟩ := hl c rfl
    cases hb : pollProceed budget <;> simp only [Source.call, hb]
    · exact ⟨fun hd => ⟨(h.flag hd).1, .inr (.inr ⟨_, rfl⟩)⟩, h.quiet⟩
    · exact ⟨fun hd => ⟨(h.flag hd).1, .inl rfl⟩, h.quiet⟩
  | @load _ loop hpc =>
    refine ⟨fun hd => ⟨(h.flag hd).1, ?_⟩, h.quiet⟩
    have hf := (h.flag hd).1
    rcases (h.flag hd).2 with hl | hl | ⟨r, hl⟩
    · obtain rfl : loop := by simpa [hpc] using hl
      exact .inr (.inl (by simp [hf, Pc.afterReady]))
    · simp [hpc] at hl
    · simp [hpc] at hl
  | store hpc | reload hpc | park hpc | clear hpc =>
    exact ⟨fun hd => absurd (h.flag hd).2 (by simp [hpc]), h.quiet⟩
  | op hpc hop =>
    rcases attempt_op hop with ⟨e, rfl, he, rfl⟩ | ⟨e, -, rfl, -⟩ | ⟨rfl, rfl, -⟩
    · refine ⟨fun hd => ⟨(h.flag hd).1, .inr (.inr ⟨.result (.error e), ?_⟩)⟩, h.quiet⟩
      simp [Pc.afterOp, he]
    · exact ⟨fun hd => absurd rfl hd, by simp⟩
    · exact ⟨fun hd => ⟨(h.flag hd).1, .inr (.inr ⟨_, rfl⟩)⟩, h.quiet⟩
  | kernel hk =>
    obtain ⟨ha, hd⟩ := attempt_kernel hk
    have hflag := h.flag (by simp [ha])
    refine ⟨fun _ => hflag, fun hin => ?_⟩
    rcases hd with ⟨-, rfl⟩ | ⟨e, -, -, rfl⟩ <;> cases hin
  | epollWait hr he => exact ⟨h.flag, fun hd => absurd (h.quiet hd).1 (by simp [he])⟩
  | @mark j rest hr =>
    refine ⟨fun hd => ⟨?_, (h.flag hd).2⟩, fun hd => absurd (h.quiet hd).2 (by simp [hr])⟩
    have hf := (h.flag hd).1
    cases j with
    | read => exact hf
    | write => rfl
  | take hr =>
    refine ⟨fun hd => ⟨?_, (h.flag hd).2⟩, fun hd => absurd (h.quiet hd).2 (by simp [hr])⟩
    simpa using (h.flag hd).1

end Fresh

namespace Connect

variable {entry : Entry} {me : ℕ} {s t : Connect} {l : ConnectLabel}

structure Begun (s : Connect) : Prop where
  plain : s.stage ≠ .waiting → s.source = .registered s.source.device [] ∧
    s.source.device ≠ .failed none
  started : s.stage = .register ∨ s.stage = .waiting → s.source.device ≠ .unstarted
  fresh : Fresh s.source

theorem ofConnect_ne {errno : Errno} (h : errno = 0 ∨ errno = einprogress) :
    Attempt.ofConnect errno ≠ .unstarted ∧ ∀ e, Attempt.ofConnect errno ≠ .failed e := by
  rcases h with rfl | rfl
  · exact ⟨by decide, fun e => by simp [Attempt.ofConnect]⟩
  · exact ⟨by decide, fun e => by simp [Attempt.ofConnect, einprogress]⟩

theorem pollIo_of_allows {l : Label (Option Errno) Progress} (h : s.allows l) (c : Call)
    (hc : l = .call c) : ∃ budget, c = .pollIo budget := by
  subst hc
  cases c with
  | pollIo budget => exact ⟨budget, rfl⟩
  | _ => simp [allows] at h

theorem Begun.step (h : Begun s) (hs : s.step me l = some t) : Begun t := by
  cases steps_of_step hs with
  | newTcpSocket hst =>
    exact ⟨fun _ => h.plain (by simp [hst]), by split <;> simp, h.fresh⟩
  | refused hst | turnedDown hst =>
    exact ⟨fun _ => h.plain (by simp [hst]), by simp, h.fresh⟩
  | connect hst he =>
    obtain ⟨hsrc, -⟩ := h.plain (by simp [hst])
    refine ⟨fun _ => ⟨?_, (ofConnect_ne he).2 none⟩, fun _ => (ofConnect_ne he).1, ?_⟩ <;> rw [hsrc]
    · rfl
    · exact .registered fun _ => rfl
  | register hst =>
    refine ⟨fun hne => absurd rfl hne, fun _ => h.started (.inl hst), .registered fun ha => ?_⟩
    rw [ha]
    rfl
  | unregistered hst hk =>
    obtain ⟨hsrc, -⟩ := h.plain (by simp [hst])
    obtain ⟨-, ⟨-, rfl⟩ | ⟨e, -, -, rfl⟩⟩ := attempt_kernel hk <;> rw [hsrc]
    · exact ⟨fun _ => ⟨rfl, by simp⟩, fun _ => by simp, .registered fun _ => rfl⟩
    · exact ⟨fun _ => ⟨rfl, by simp⟩, fun _ => by simp, .registered fun _ => rfl⟩
  | registered hst hal hs' =>
    refine ⟨fun hne => absurd hst hne, fun _ hu => ?_, h.fresh.step (pollIo_of_allows hal) hs'⟩
    rcases device_step hs' with hd | ⟨-, hd⟩ | ⟨-, hd | ⟨e, -, -, hd⟩⟩
    · exact h.started (.inr hst) (hd.symm.trans hu)
    · cases hd.symm.trans hu
    · cases hd.symm.trans hu
    · cases hd.symm.trans hu

theorem begun_init (entry : Entry) (me : ℕ) : Begun (connecting entry me).init where
  plain _ := ⟨rfl, by simp [connecting, Source.registered]⟩
  started h := by cases entry <;> simp [connecting, Entry.stage] at h
  fresh := .registered fun _ => rfl

theorem begun_of_reachable (h : (connecting entry me).Reachable s) : Begun s :=
  System.inv_of_reachable (I := Begun) (begun_init entry me)
    (fun _ _ _ hI hs => Begun.step hI hs) h

/-! ## Polls that misread the socket -/

/-- A poll goes ahead while the attempt is in progress, when `SO_ERROR` reads as
success; or the attempt fails with an error that `poll_io` takes for `WouldBlock`
and drops. -/
def misreads (s : Connect) : ConnectLabel → Bool
  | .registered (.call (.pollIo budget)) =>
    (pollProceed budget).isSome && s.source.device == .inProgress
  | .registered (.kernel (.fail e)) => isWouldBlock e && s.resolved.isNone
  | .unregistered (.fail e) => isWouldBlock e
  | _ => false

/-- Nobody polls before the connect is decided. -/
structure Prompt (s : Source Attempt Unit) : Prop where
  begun : s.pc.waits = false → s.device ≠ .inProgress
  ok : s.pc = .returned (.result (.ok ())) → s.device = .established
  errno : ∀ e, s.device = .failed (some e) → e ≠ 0 ∧ isWouldBlock e = false
  read : s.device = .failed none → ∃ e, s.pc = .returned (.result (.error e))

namespace Prompt

variable {u v : Source Attempt Unit}

theorem goOn (h : Prompt u) (hw : u.pc.waits = false) (hr : ∀ r, u.pc ≠ .returned r)
    (hd : v.device = u.device) (ho : v.pc ≠ .returned (.result (.ok ()))) : Prompt v := by
  refine ⟨fun _ => hd ▸ h.begun hw, fun hok => absurd hok ho, hd ▸ h.errno, fun hnone => ?_⟩
  -- an error that has been read leaves nothing to poll
  obtain ⟨e, he⟩ := h.read (hd ▸ hnone)
  exact absurd he (hr _)

theorem poll (h : Prompt u) (hne : u.device ≠ .unstarted) {fault : Option Errno}
    (hs : u.step attempt .write me (.poll fault) = some v) : Prompt v := by
  cases Source.steps_of_step hs with
  | @load _ loop hpc =>
    refine h.goOn (by simp [hpc, Pc.waits]) (by simp [hpc]) rfl ?_
    cases u.io.flag .write <;> cases loop <;> simp [Pc.afterReady]
  | store hpc | park hpc =>
    exact h.goOn (by simp [hpc, Pc.waits]) (by simp [hpc]) rfl (by simp)
  | @reload _ loop hpc =>
    refine h.goOn (by simp [hpc, Pc.waits]) (by simp [hpc]) rfl ?_
    cases loop <;> simp [Pc.afterReady]
  | @clear _ loop e hpc =>
    refine h.goOn (by simp [hpc, Pc.waits]) (by simp [hpc]) rfl ?_
    cases loop <;> simp [Pc.afterClear]
  | @op _ loop a d hpc hop =>
    have hw : u.pc.waits = false := by simp [hpc, Pc.waits]
    have hr : ∀ r, u.pc ≠ .returned r := by simp [hpc]
    rcases attempt_op hop with ⟨e, rfl, he, rfl⟩ | ⟨e, ha, rfl, hor⟩ | ⟨rfl, rfl, ha⟩
    · exact h.goOn hw hr rfl (by simp [Pc.afterOp, he])
    · obtain ⟨h0, he⟩ := h.errno e ha
      obtain rfl : a = .error e := hor.resolve_right h0
      exact ⟨fun _ => by simp, by simp [Pc.afterOp, he], by simp,
        fun _ => ⟨e, by simp [Pc.afterOp, he]⟩⟩
    · -- neither in progress, nor failed, nor unstarted
      have hin := h.begun hw
      refine ⟨fun _ => hin, fun _ => ?_, h.errno, fun hd => ?_⟩
      · cases hd : u.device with
        | unstarted => exact absurd hd hne
        | inProgress => exact absurd hd hin
        | established => rfl
        | failed soError =>
          cases soError with
          | none => exact absurd (h.read hd).choose_spec (hr _)
          | some e => exact absurd hd (ha e)
      · exact absurd (h.read hd).choose_spec (hr _)

theorem kernel (h : Prompt u) {x : Progress} (hx : ∀ e, x = .fail e → u.pc.waits →
      isWouldBlock e = false) (hs : u.step attempt .write me (.kernel x) = some v) : Prompt v := by
  obtain ⟨⟨d, evs⟩, hk, rfl⟩ := map_eq_some_iff.mp hs
  obtain ⟨ha, hor⟩ := attempt_kernel hk
  -- the attempt was in progress, so that no poll has gone ahead
  have hw : u.pc.waits := by
    by_contra hw
    exact h.begun (by simpa using hw) ha
  have hpc : ∀ r, u.pc ≠ .returned (.result r) := fun r hr => by simp [hr, Pc.waits] at hw
  refine ⟨fun hf => absurd (hw.symm.trans hf) (by simp), fun ho => absurd ho (hpc _), ?_, ?_⟩
  · intro e he
    rcases hor with ⟨-, rfl⟩ | ⟨e', rfl, h0, rfl⟩
    · cases he
    · obtain rfl : e' = e := by simpa using he
      exact ⟨h0, hx e' rfl hw⟩
  · intro hd
    rcases hor with ⟨-, rfl⟩ | ⟨e', -, -, rfl⟩ <;> cases hd

end Prompt

theorem prompt_step (h : Prompt s.source) (hb : Begun s)
    (hc : s.misreads l = false) (hs : s.step me l = some t) : Prompt t.source := by
  cases steps_of_step hs with
  | newTcpSocket | refused | turnedDown => exact h
  | connect hst he =>
    obtain ⟨hsrc, -⟩ := hb.plain (by simp [hst])
    have hne := (ofConnect_ne he).2
    rw [hsrc]
    exact ⟨by simp [Source.registered, Pc.waits],
      by simp [Source.registered], fun e hd => absurd hd (hne _),
      fun hd => absurd hd (hne _)⟩
  | register hst =>
    exact ⟨by simp [Source.registered, Pc.waits],
      by simp [Source.registered], h.errno,
      fun hd => absurd hd (hb.plain (by simp [hst])).2⟩
  | unregistered hst hk =>
    obtain ⟨hsrc, -⟩ := hb.plain (by simp [hst])
    rw [hsrc]
    refine ⟨by simp [Source.registered, Pc.waits],
      by simp [Source.registered], fun e hd => ?_, fun hd => ?_⟩
    · rcases (attempt_kernel hk).2 with ⟨-, rfl⟩ | ⟨e', rfl, h0, rfl⟩
      · cases hd
      · obtain rfl : e' = e := by simpa using hd
        exact ⟨h0, hc⟩
    · rcases (attempt_kernel hk).2 with ⟨-, rfl⟩ | ⟨e', rfl, h0, rfl⟩ <;> cases hd
  | @registered l' source hst hal hs' =>
    cases l' with
    | call c =>
      obtain ⟨budget, rfl⟩ := pollIo_of_allows hal c rfl
      cases Source.steps_of_step hs'
      -- the future has not resolved, so no error has been read
      have hread : s.source.device ≠ .failed none := by
        intro hd
        obtain ⟨e, hpc⟩ := h.read hd
        simp [allows, resolved, hst, hpc] at hal
      cases hp : pollProceed budget with
      | none =>
        simp only [Source.call, hp]
        exact ⟨by simp [Pc.waits], by simp, h.errno,
          fun hd => absurd hd hread⟩
      | some left =>
        have hin : s.source.device ≠ .inProgress := by simpa [misreads, hp] using hc
        simp only [Source.call, hp]
        exact ⟨fun _ => hin, by simp, h.errno, fun hd => absurd hd hread⟩
    | poll fault => exact h.poll (hb.started (.inr hst)) hs'
    | kernel x =>
      refine h.kernel (fun e hx hw => ?_) hs'
      subst hx
      have hres : s.resolved = none := by
        cases hpc : s.source.pc with
        | returned r =>
          cases r with
          | result r => simp [hpc, Pc.waits] at hw
          | _ => simp [resolved, hst, hpc]
        | _ => simp [resolved, hst, hpc]
      simpa [misreads, hres] using hc
    | epollWait | mark =>
      cases Source.steps_of_step hs' <;> exact ⟨h.begun, h.ok, h.errno, h.read⟩

theorem established_of_prompt (h : Prompt s.source) (hr : s.resolved = some (.ok ())) :
    s.source.device = .established := by
  refine h.ok ?_
  unfold resolved at hr
  split at hr
  · cases hr
  next r hst hpc =>
    cases hr
    exact hpc
  · cases hr

/-! ## What a misreading leads to -/

/-- The future has resolved to `Ok`, and the connection is not established. -/
def Mistaken (s : Connect) : Prop := s.resolved = some (.ok ()) ∧ s.source.device ≠ .established

theorem leads_of_source {l : Label (Option Errno) Progress} {u : Source Attempt Unit}
    (hst : s.stage = .waiting) (hal : s.allows l) (hs : s.source.step attempt .write me l = some u)
    (h : (connecting entry me).LeadsTo (fun _ => True) Mistaken ⟨.waiting, u⟩) :
    (connecting entry me).LeadsTo (fun _ => True) Mistaken s := by
  have hstep : (connecting entry me).step s (.registered l) = some ⟨.waiting, u⟩ := by
    simp [connecting, step, hst, hal, hs]
  exact .of_step trivial hstep h

theorem mistaken_of_load {u : Source Attempt Unit} (hf : Fresh u) (hd : u.device = .inProgress)
    (hpc : u.pc = .load true) :
    (connecting entry me).LeadsTo (fun _ => True) Mistaken ⟨.waiting, u⟩ := by
  have hflag := (hf.flag (by simp [hd])).1
  have h1 : u.step attempt .write me (.poll none) = some { u with pc := .op true } := by
    simp [Source.step, Source.poll, hpc, hflag, Pc.afterReady]
  have h2 : Source.step attempt .write me { u with pc := .op true } (.poll none) =
      some { u with device := .inProgress, pc := .returned (.result (.ok ())) } := by
    simp only [Source.step, Source.poll, hd]
    rfl
  refine leads_of_source rfl rfl h1 (leads_of_source rfl rfl h2 (.now ?_))
  exact ⟨rfl, by simp⟩

theorem mistaken_of_op {u : Source Attempt Unit} (hf : u.io.flag .write)
    (hd : u.device = .failed (some eagain)) (hev : u.events = (Attempt.failed none).events)
    (hr : u.reactor = .waiting) (hpc : u.pc = .op true) :
    (connecting entry me).LeadsTo (fun _ => True) Mistaken ⟨.waiting, u⟩ := by
  obtain ⟨⟨rb, wb, rw', ww⟩, d, evs, reactor, pc, lp, wk⟩ := u
  obtain rfl : wb := hf
  obtain rfl : d = _ := hd
  obtain rfl : evs = _ := hev
  obtain rfl : reactor = _ := hr
  obtain rfl : pc = _ := hpc
  refine ⟨[.poll none, .poll none, .poll none, .poll none, .poll none, .epollWait, .mark, .mark,
    .mark, .mark, .call (.pollIo none), .poll none, .poll none].map .registered,
    ⟨.waiting, ⟨⟨true, true, none, none⟩, .failed none, [], .waiting,
      .returned (.result (.ok ())), false, false⟩⟩, by simp, rfl, rfl, by simp⟩

theorem mistaken_of_wouldBlock {u : Source Attempt Unit} (hf : u.io.flag .write)
    (hd : u.device = .failed (some eagain)) (hev : u.events = (Attempt.failed none).events)
    (hr : u.reactor = .waiting)
    (hpc : u.pc = .load true ∨ u.pc = .op true ∨ ∃ r, u.pc = .returned r)
    (hres : Connect.resolved ⟨.waiting, u⟩ = none) :
    (connecting entry me).LeadsTo (fun _ => True) Mistaken ⟨.waiting, u⟩ := by
  have hload : ∀ v : Source Attempt Unit, v.io.flag .write →
      v.device = .failed (some eagain) → v.events = (Attempt.failed none).events →
      v.reactor = .waiting → v.pc = .load true →
      (connecting entry me).LeadsTo (fun _ => True) Mistaken ⟨.waiting, v⟩ := by
    intro v hf hd hev hr hpc
    have h1 : v.step attempt .write me (.poll none) = some { v with pc := .op true } := by
      simp [Source.step, Source.poll, hpc, hf, Pc.afterReady]
    exact leads_of_source rfl rfl h1 (mistaken_of_op hf hd hev hr rfl)
  rcases hpc with hpc | hpc | ⟨r, hpc⟩
  · exact hload u hf hd hev hr hpc
  · exact mistaken_of_op hf hd hev hr hpc
  · have h1 : u.step attempt .write me (.call (.pollIo none)) =
        some { u with pc := .load true, lastPending := false, woken := false } := by
      simp [Source.step, hpc, Source.call, pollProceed]
    exact leads_of_source rfl (by simp [allows, hres]) h1 (hload _ hf hd hev hr rfl)

theorem mistaken_of_misreads (hb : Begun s) (hc : s.misreads l) (hs : s.step me l = some t) :
    (connecting entry me).LeadsTo (fun _ => True) Mistaken t := by
  cases steps_of_step hs with
  | @unregistered x a evs hst hk =>
    cases x with
    | establish => simp [misreads] at hc
    | fail e =>
      obtain rfl : e = eagain := by simpa [misreads, isWouldBlock] using hc
      obtain ⟨-, ⟨hx, -⟩ | ⟨e, he, -, rfl⟩⟩ := attempt_kernel hk
      · cases hx
      · cases he
        -- the socket is registered next
        have hreg : (connecting entry me).step
            { s with source := { s.source with device := .failed (some eagain) } } (.register 0) =
            some ⟨.waiting, .registered (.failed (some eagain)) (Attempt.failed none).events⟩ := by
          simp [connecting, step, hst, Attempt.events]
        exact .of_step trivial hreg
          (mistaken_of_wouldBlock rfl rfl rfl rfl (.inr (.inr ⟨_, rfl⟩)) rfl)
  | @registered l' source hst hal hs' =>
    rw [hst]
    cases Source.steps_of_step hs' with
    | @call c =>
      obtain ⟨budget, rfl⟩ := pollIo_of_allows hal c rfl
      simp only [misreads, and_eq_true, beq_iff_eq] at hc
      obtain ⟨left, hp⟩ := isSome_iff_exists.mp hc.1
      have hfresh := hb.fresh.step (pollIo_of_allows hal) hs'
      have hcall : s.source.call (.pollIo budget) =
          { s.source with pc := .load true, lastPending := false, woken := false } := by
        simp [Source.call, hp]
      rw [hcall] at hfresh ⊢
      exact mistaken_of_load hfresh hc.2 rfl
    | @kernel x d evs hk =>
      cases x with
      | establish => simp [misreads] at hc
      | fail e =>
        simp only [misreads, and_eq_true, isWouldBlock, beq_iff_eq, isNone_iff_eq_none] at hc
        obtain ⟨rfl, hres⟩ := hc
        have hin := (attempt_kernel hk).1
        rw [hin] at hk
        cases hk
        obtain ⟨hev, hr⟩ := hb.fresh.quiet hin
        obtain ⟨hflag, hpc⟩ := hb.fresh.flag (by simp [hin])
        refine mistaken_of_wouldBlock hflag rfl ?_ hr hpc ?_
        · simp [hev, Attempt.events]
        · rw [← hres]
          simp [resolved, hst]
    | _ => simp [misreads] at hc
  | _ => simp [misreads] at hc

theorem prompt_init (entry : Entry) (me : ℕ) : Prompt (connecting entry me).init.source := by
  refine ⟨fun hw => ?_, fun ho => ?_, fun e he => ?_, fun hd => ?_⟩
  · simp [connecting, Source.registered, Pc.waits] at hw
  · simp [connecting, Source.registered] at ho
  · simp [connecting, Source.registered] at he
  · simp [connecting, Source.registered] at hd

theorem prompt_of_reachableUnder
    (h : (connecting entry me).ReachableUnder (fun s l => s.misreads l = false) s) :
    Prompt s.source := by
  exact h.inv (I := fun s => Prompt s.source) (prompt_init entry me) fun _ _ _ hr hI hc hs =>
    prompt_step hI (begun_of_reachable hr) hc hs

/-- **A connect resolves to `Ok` only for an established connection, unless a step
misreads the socket.**  In every run without such a step, whatever resolved to `Ok` is
established; and after any such step the run can go on to an `Ok` for a connection that
is not. -/
theorem established_unless_misreads (entry : Entry) (me : ℕ) :
    (∀ s, (connecting entry me).ReachableUnder (fun s l => s.misreads l = false) s →
      s.resolved = some (.ok ()) → s.source.device = .established) ∧
    ∀ s l t, (connecting entry me).Reachable s → s.misreads l = true → s.step me l = some t →
      (connecting entry me).LeadsTo (fun _ => True) Mistaken t := by
  refine ⟨fun s hs hr => ?_, fun s l t hs hc ht => ?_⟩
  · exact established_of_prompt (prompt_of_reachableUnder hs) hr
  · exact mistaken_of_misreads (begun_of_reachable hs) hc ht

/-- The connect is told to proceed, the socket is registered, and the first poll
resolves to `Ok` at once. -/
theorem exists_ok_in_progress :
    (∃ s, (connecting .connectAddr 0).Reachable s ∧ s.resolved = some (.ok ()) ∧
      s.source.device = .inProgress) ∧
    ∃ s, (connecting .tcpSocketConnect 0).Reachable s ∧ s.resolved = some (.ok ()) ∧
      s.source.device = .inProgress := by
  constructor
  · exact ⟨_, ⟨[.newTcpSocket 0, .connect einprogress, .register 0,
      .registered (.call (.pollIo (some 128))), .registered (.poll none),
      .registered (.poll none)], rfl⟩, rfl, rfl⟩
  · exact ⟨_, ⟨[.connect einprogress, .register 0, .registered (.call (.pollIo (some 128))),
      .registered (.poll none), .registered (.poll none)], rfl⟩, rfl, rfl⟩

theorem established_before_poll :
    (∃ s, (connecting .connectAddr 0).Reachable s ∧ s.resolved = some (.ok ()) ∧
      s.source.device = .established) ∧ ∃ s t, (connecting .connectAddr 0).Reachable s ∧
      s.step 0 (.registered (.call (.pollIo none))) = some t ∧
      (connecting .connectAddr 0).LeadsTo (fun _ => True) Mistaken t := by
  constructor
  · have hr : (connecting .connectAddr 0).ReachableUnder (fun s l => s.misreads l = false) _ :=
      ⟨[.newTcpSocket 0, .connect einprogress, .unregistered .establish, .register 0,
        .registered (.call (.pollIo none)), .registered (.poll none), .registered (.poll none)],
        rfl, by decide⟩
    exact ⟨_, hr.reachable, rfl, (established_unless_misreads .connectAddr 0).1 _ hr rfl⟩
  · have hr : (connecting .connectAddr 0).Reachable _ :=
      ⟨[.newTcpSocket 0, .connect einprogress, .register 0], rfl⟩
    exact ⟨_, _, hr, rfl, (established_unless_misreads .connectAddr 0).2 _
      (.registered (.call (.pollIo none))) _ hr rfl rfl⟩

end Connect

end RustyTokio.Reactor

import RustyTokio.Reactor.ScheduledIo
import RustyTokio.Transition.System

/-!
# One file descriptor, its poller and the reactor

The steps of `src/io/reactor/mod.rs`, one atomic access at a time.  A task polls one direction of a
registered file descriptor, through `poll_io`, or through `readiness::try_io` and
`readiness::poll_ready` (`src/io/readiness.rs`).
-/

namespace RustyTokio.Reactor

open Transition Coop Option

inductive Ret (α : Type) where
  | pending
  | ready
  | result (r : Except Errno α)

/-- The next access of the poller.  The flag `loop` says whether the access
belongs to the loop of `poll_io`; the others belong to `poll_ready` and `try_io`. -/
inductive Pc (α : Type) where
  | load (loop : Bool)
  | store (loop : Bool)
  | reload (loop : Bool)
  | op (loop : Bool)
  /-- The operation has answered `WouldBlock`; the flag is about to be cleared. -/
  | clear (loop : Bool) (e : Errno)
  /-- No call is going on; the last one handed this back. -/
  | returned (r : Ret α)

def Pc.afterReady {α : Type} (loop : Bool) : Pc α := if loop then .op true else .returned .ready

def Pc.afterOp {α : Type} (loop : Bool) : Except Errno α → Pc α
  | .ok v => .returned (.result (.ok v))
  | .error e => if isWouldBlock e then .clear loop e else .returned (.result (.error e))

def Pc.afterClear {α : Type} (loop : Bool) (e : Errno) : Pc α :=
  if loop then .load true else .returned (.result (.error e))

inductive ReactorPc where
  | waiting
  | store (i : Interest) (rest : List Interest)
  | take (i : Interest) (rest : List Interest)
  deriving DecidableEq

def ReactorPc.next : List Interest → ReactorPc
  | [] => .waiting
  | i :: rest => .store i rest

/-- What is behind a file descriptor.  A label `κ` of the operation and a label
`ι` of the kernel settle what is open. -/
structure Device (δ κ ι α : Type) where
  op : δ → κ → Option (Except Errno α × δ)
  kernel : δ → ι → Option (δ × List Event)

structure Source (δ α : Type) where
  io : ScheduledIo
  device : δ
  events : List Event
  reactor : ReactorPc
  pc : Pc α
  lastPending : Bool
  /-- The poller has been woken since its last poll began. -/
  woken : Bool

inductive Call where
  | pollIo (budget : Option ℕ)
  | pollReady
  | tryIo
  deriving DecidableEq

inductive Label (κ ι : Type) where
  | call (c : Call)
  | poll (choice : κ)
  | kernel (x : ι)
  | epollWait
  | mark

def Label.isKernel {κ ι : Type} : Label κ ι → Bool
  | .kernel _ => true
  | _ => false

namespace Source

variable {δ κ ι α : Type}

def call (s : Source δ α) : Call → Source δ α
  | .pollIo budget =>
    match pollProceed budget with
    | none => { s with pc := .returned .pending, lastPending := true, woken := true }
    | some _ => { s with pc := .load true, lastPending := false, woken := false }
  | .pollReady => { s with pc := .load false, lastPending := false, woken := false }
  | .tryIo => { s with pc := .op false }

def poll (D : Device δ κ ι α) (i : Interest) (me : ℕ) (s : Source δ α) (choice : κ) :
    Option (Source δ α) :=
  match s.pc with
  | .load loop => some { s with pc := if s.io.flag i then .afterReady loop else .store loop }
  | .store loop => some { s with io := s.io.setWaker i (some me), pc := .reload loop }
  | .reload loop =>
    if s.io.flag i then some { s with pc := .afterReady loop }
    else some { s with pc := .returned .pending, lastPending := true }
  | .op loop =>
    (D.op s.device choice).map fun p => { s with device := p.2, pc := .afterOp loop p.1 }
  | .clear loop e => some { s with io := s.io.setFlag i false, pc := .afterClear loop e }
  | .returned _ => none

def mark (me : ℕ) (s : Source δ α) : Option (Source δ α) :=
  match s.reactor with
  | .waiting => none
  | .store j rest => some { s with io := s.io.setFlag j true, reactor := .take j rest }
  | .take j rest =>
    some { s with
      io := s.io.setWaker j none, reactor := .next rest
      woken := s.woken || s.io.waker j == some me }

def step (D : Device δ κ ι α) (i : Interest) (me : ℕ) (s : Source δ α) :
    Label κ ι → Option (Source δ α)
  | .call c =>
    match s.pc with
    | .returned _ => some (s.call c)
    | _ => none
  | .poll choice => s.poll D i me choice
  | .kernel x =>
    (D.kernel s.device x).map fun p => { s with device := p.1, events := s.events ++ p.2 }
  | .epollWait =>
    match s.reactor, s.events with
    | .waiting, ev :: events => some { s with reactor := .next ev.interests, events := events }
    | _, _ => none
  | .mark => s.mark me

/-- What `Reactor::register` leaves: a fresh `ScheduledIo`, and the events that the
kernel has queued at once. -/
def registered (device : δ) (events : List Event) : Source δ α :=
  ⟨.new, device, events, .waiting, .returned .ready, false, false⟩

end Source

def source {δ κ ι α : Type} (D : Device δ κ ι α) (i : Interest) (me : ℕ) (device : δ)
    (events : List Event) : System (Source δ α) (Label κ ι) where
  init := .registered device events
  step := Source.step D i me

namespace Source

variable {δ κ ι α : Type} {D : Device δ κ ι α} {i : Interest} {me : ℕ} {s t : Source δ α}

/-! ## What a step does -/

inductive Steps (D : Device δ κ ι α) (i : Interest) (me : ℕ) (s : Source δ α) :
    Label κ ι → Source δ α → Prop where
  | call {c r} (hpc : s.pc = .returned r) : Steps D i me s (.call c) (s.call c)
  | load {k loop} (hpc : s.pc = .load loop) : Steps D i me s (.poll k)
      { s with pc := if s.io.flag i then .afterReady loop else .store loop }
  | store {k loop} (hpc : s.pc = .store loop) : Steps D i me s (.poll k)
      { s with io := s.io.setWaker i (some me), pc := .reload loop }
  | reload {k loop} (hpc : s.pc = .reload loop) (hf : s.io.flag i) :
      Steps D i me s (.poll k) { s with pc := .afterReady loop }
  | park {k loop} (hpc : s.pc = .reload loop) (hf : s.io.flag i = false) :
      Steps D i me s (.poll k) { s with pc := .returned .pending, lastPending := true }
  | op {k loop a d} (hpc : s.pc = .op loop) (hop : D.op s.device k = some (a, d)) :
      Steps D i me s (.poll k) { s with device := d, pc := .afterOp loop a }
  | clear {k loop e} (hpc : s.pc = .clear loop e) : Steps D i me s (.poll k)
      { s with io := s.io.setFlag i false, pc := .afterClear loop e }
  | kernel {x d evs} (hk : D.kernel s.device x = some (d, evs)) :
      Steps D i me s (.kernel x) { s with device := d, events := s.events ++ evs }
  | epollWait {ev events} (hr : s.reactor = .waiting) (he : s.events = ev :: events) :
      Steps D i me s .epollWait { s with reactor := .next ev.interests, events := events }
  | mark {j rest} (hr : s.reactor = .store j rest) : Steps D i me s .mark
      { s with io := s.io.setFlag j true, reactor := .take j rest }
  | take {j rest} (hr : s.reactor = .take j rest) : Steps D i me s .mark
      { s with
        io := s.io.setWaker j none, reactor := .next rest
        woken := s.woken || s.io.waker j == some me }

theorem steps_of_poll {k : κ} (h : s.poll D i me k = some t) : Steps D i me s (.poll k) t := by
  rw [poll] at h
  split at h
  next loop hpc => exact some.inj h ▸ .load hpc
  next loop hpc => exact some.inj h ▸ .store hpc
  next loop hpc =>
    split at h <;> rename_i hf
    · exact some.inj h ▸ .reload hpc hf
    · exact some.inj h ▸ .park hpc ((Bool.not_eq_true _).mp hf)
  next loop hpc =>
    obtain ⟨⟨a, d⟩, hop, rfl⟩ := map_eq_some_iff.mp h
    exact .op hpc hop
  next loop e hpc => exact some.inj h ▸ .clear hpc
  · cases h

theorem steps_of_step {l : Label κ ι} (h : s.step D i me l = some t) : Steps D i me s l t := by
  cases l with
  | call c =>
    rw [step] at h
    split at h
    next r hpc => exact some.inj h ▸ .call hpc
    · cases h
  | poll k => exact steps_of_poll h
  | kernel x =>
    obtain ⟨⟨d, evs⟩, hk, rfl⟩ := map_eq_some_iff.mp h
    exact .kernel hk
  | epollWait =>
    rw [step] at h
    split at h
    next ev events hr he => exact some.inj h ▸ .epollWait hr he
    · cases h
  | mark =>
    rw [step, mark] at h
    split at h
    · cases h
    next j rest hr => exact some.inj h ▸ .mark hr
    next j rest hr => exact some.inj h ▸ .take hr

/-! ## Steps in a row -/

section Run

variable {r : Ret α} {k : κ} {a : Except Errno α} {d d₀ : δ} {evs : List Event}

theorem run_park (s : Source δ α) {loop : Bool} (hpc : s.pc = .load loop)
    (hf : s.io.flag i = false) : (source D i me d₀ evs).run s [.poll k, .poll k, .poll k] =
      some { s with
        io := s.io.setWaker i (some me), pc := .returned .pending, lastPending := true } := by
  simp [System.run, source, step, poll, hpc, hf]

end Run

end Source

end RustyTokio.Reactor

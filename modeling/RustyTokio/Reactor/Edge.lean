import RustyTokio.Reactor.Source

/-!
# Whether a readiness edge can be lost

The registrations of `src/io/reactor/epoll.rs` are edge-triggered: the kernel queues one event when
a file descriptor becomes ready, and does not repeat it.  The flag of `ScheduledIo` has to keep the
edge until an operation has answered `WouldBlock`.
-/

namespace RustyTokio.Reactor

open Transition Coop List Bool ScheduledIo ReactorPc Pc

variable {α : Type} {a : Except Errno α}

/-! ## The file descriptor -/

inductive Outcome (α : Type) where
  | drain (v : α)
  | leave (v : α)
  | fail (e : Errno)

def fdOp (ready : Bool) : Outcome α → Option (Except Errno α × Bool)
  | .drain v => some (if ready then (.ok v, false) else (.error eagain, false))
  | .leave v => some (if ready then (.ok v, true) else (.error eagain, false))
  | .fail e => if isWouldBlock e then none else some (.error e, ready)

/-- A file descriptor polled in direction `i`.  Every arrival is announced by an
event that reports the direction. -/
def fd (α : Type) (i : Interest) : Device Bool (Outcome α) Event α where
  op := fdOp
  kernel ready ev := some (ready || ev.reports i, [ev])

theorem fdOp_spec {ready ready' : Bool} {x : Outcome α} (h : fdOp ready x = some (a, ready')) :
    (ready' → ready) ∧
      ∀ e, a = .error e → isWouldBlock e → ready' = false := by
  cases x with
  | drain v =>
    have h2 : ready' = false := by cases ready <;> simp_all [fdOp]
    exact ⟨fun h1 => absurd (h1.symm.trans h2) (by simp), fun _ _ _ => h2⟩
  | leave v =>
    cases ready with
    | false =>
      obtain ⟨-, rfl⟩ := pair_of_some h
      exact ⟨id, fun _ _ _ => rfl⟩
    | true =>
      cases h
      exact ⟨id, by simp⟩
  | fail e =>
    simp only [fdOp, Option.ite_none_left_eq_some, Option.some.injEq, Prod.mk.injEq] at h
    obtain ⟨he, rfl, rfl⟩ := h
    refine ⟨id, fun e' he' hw => ?_⟩
    cases he'
    exact absurd hw he

/-! ## Edges on their way -/

def ReactorPc.owes (i : Interest) : ReactorPc → Bool
  | .waiting => false
  | .store j rest => j == i || rest.contains i
  | .take _ rest => rest.contains i

def ReactorPc.marks (i : Interest) : ReactorPc → Bool
  | .waiting => false
  | .store j rest => j == i || rest.contains i
  | .take j rest => j == i || rest.contains i

theorem ReactorPc.owes_next (i : Interest) (l : List Interest) :
    (ReactorPc.next l).owes i = l.contains i := by
  cases l with
  | nil => rfl
  | cons j rest =>
    rw [ReactorPc.next, ReactorPc.owes, contains_cons]
    cases i <;> cases j <;> rfl

theorem ReactorPc.marks_next (i : Interest) (l : List Interest) :
    (ReactorPc.next l).marks i = l.contains i := by
  cases l with
  | nil => rfl
  | cons j rest =>
    rw [ReactorPc.next, ReactorPc.marks, contains_cons]
    cases i <;> cases j <;> rfl

def Pc.clearing : Pc α → Bool
  | .clear _ _ => true
  | _ => false

@[simp] theorem Pc.clearing_afterReady (loop : Bool) :
    (Pc.afterReady loop : Pc α).clearing = false := by
  cases loop <;> rfl

theorem Pc.afterReady_ne_reload (loop loop' : Bool) :
    (Pc.afterReady loop : Pc α) ≠ .reload loop' := by
  cases loop <;> simp [Pc.afterReady]

theorem Pc.afterClear_ne_reload (loop : Bool) (e : Errno) (loop' : Bool) :
    (Pc.afterClear loop e : Pc α) ≠ .reload loop' := by
  cases loop <;> simp [Pc.afterClear]

theorem Pc.afterOp_ne_reload (loop : Bool) (a : Except Errno α) (loop' : Bool) :
    Pc.afterOp loop a ≠ .reload loop' := by
  cases a with
  | ok v => simp [Pc.afterOp]
  | error e => cases he : isWouldBlock e <;> simp [Pc.afterOp, he]

theorem Pc.clearing_afterOp {loop : Bool}
    (h : (Pc.afterOp loop a).clearing) : ∃ e, a = .error e ∧ isWouldBlock e := by
  cases a with
  | ok v => simp [Pc.afterOp, Pc.clearing] at h
  | error e =>
    cases he : isWouldBlock e with
    | false => simp [Pc.afterOp, Pc.clearing, he] at h
    | true => exact ⟨e, rfl, he⟩

namespace Source

def queued (i : Interest) (s : Source Bool α) : Bool := s.events.any fun ev => ev.reports i

/-- The flag of direction `i` will still be set for an event that has come. -/
def owed (i : Interest) (s : Source Bool α) : Bool := s.queued i || s.reactor.owes i

/-- The poller sleeps over a ready source, and nothing is on its way to it. -/
structure Stranded (i : Interest) (s : Source Bool α) : Prop where
  idle : ∃ r, s.pc = .returned r
  pending : s.lastPending
  ready : s.device
  delivered : s.queued i = false ∧ s.reactor.marks i = false
  asleep : s.woken = false

/-- The reactor sets the flag for the last edge on its way while the poller is
between a `WouldBlock` and its `clear`, and the file descriptor has become ready
in the meantime. -/
def erases (i : Interest) (s : Source Bool α) : Label (Outcome α) Event → Bool
  | .mark =>
    match s.reactor with
    | .store j rest =>
      j == i && !rest.contains i && s.pc.clearing && s.device && !s.queued i
    | _ => false
  | _ => false

/-- A ready source is flagged, or its edge is on the way; a pending poller has its waker there. -/
structure EdgeInv (i : Interest) (me : ℕ) (s : Source Bool α) : Prop where
  edge : s.device = true → s.owed i = true ∨ (s.io.flag i = true ∧ s.pc.clearing = false)
  parked : s.lastPending = true → s.woken = false →
    s.io.waker i = some me ∧ (s.io.flag i = true → ∃ rest, s.reactor = .take i rest)
  stored : ∀ loop, s.pc = .reload loop → s.woken = false → s.io.waker i = some me

namespace EdgeInv

variable {i : Interest} {me : ℕ} {s t : Source Bool α} {j : Interest} {rest : List Interest}

theorem registered (i : Interest) (me : ℕ) (ready : Bool) (events : List Event) :
    EdgeInv i me (Source.registered ready events : Source Bool α) where
  edge _ := .inr ⟨flag_new i, rfl⟩
  parked h := absurd h (by simp [Source.registered])
  stored _ h := absurd h (by simp [Source.registered])

theorem call (h : EdgeInv i me s) (c : Call) (hpc : ∃ r, s.pc = .returned r) :
    EdgeInv i me (s.call c) := by
  obtain ⟨r, hr⟩ := hpc
  have hedge : s.device → s.owed i ∨ s.io.flag i := fun hd =>
    (h.edge hd).imp id And.left
  cases c with
  | pollIo budget =>
    cases hb : pollProceed budget with
    | none =>
      simp only [Source.call, hb]
      exact ⟨fun hd => (hedge hd).imp id (⟨·, rfl⟩), by simp,
        by simp⟩
    | some left =>
      simp only [Source.call, hb]
      exact ⟨fun hd => (hedge hd).imp id (⟨·, rfl⟩), by simp,
        by simp⟩
  | pollReady =>
    exact ⟨fun hd => (hedge hd).imp id (⟨·, rfl⟩), by simp [Source.call],
      by simp [Source.call]⟩
  | tryIo =>
    exact ⟨fun hd => (hedge hd).imp id (⟨·, rfl⟩), h.parked, by simp [Source.call]⟩

theorem poll (h : EdgeInv i me s) {x : Outcome α}
    (hs : s.step (fd α i) i me (.poll x) = some t) : EdgeInv i me t := by
  cases steps_of_step hs with
  | @load _ loop hpc =>
    refine ⟨fun hd => (h.edge hd).imp id fun hf => ⟨hf.1, ?_⟩, h.parked, fun loop' hl => ?_⟩
    · simp [hf.1]
    · cases hf : s.io.flag i with
      | true => exact absurd (by simpa [hf] using hl) (afterReady_ne_reload loop loop')
      | false => simp [hf] at hl
  | store hpc =>
    refine ⟨fun hd => (h.edge hd).imp id fun hf => ⟨by simpa using hf.1, rfl⟩, fun hl hw => ?_,
      fun loop' _ _ => by simp⟩
    exact ⟨by simp, fun hf => (h.parked hl hw).2 (by simpa using hf)⟩
  | @reload _ loop hpc hf =>
    exact ⟨fun hd => (h.edge hd).imp id fun hf => ⟨hf.1, by simp⟩, h.parked,
      fun loop' hl => absurd hl (afterReady_ne_reload loop loop')⟩
  | park hpc hf =>
    -- the poll returns pending: its waker is stored and the flag was clear
    refine ⟨fun hd => (h.edge hd).imp id fun hf => ⟨hf.1, rfl⟩, fun _ hw => ?_, by simp⟩
    exact ⟨h.stored _ hpc hw, fun hf' => absurd (hf.symm.trans hf') (by simp)⟩
  | @op _ loop a d hpc hop =>
    have hspec := fdOp_spec hop
    refine ⟨fun hd => (h.edge (hspec.1 hd)).imp id fun hf => ⟨hf.1, ?_⟩, h.parked,
      fun loop' hl => absurd hl (afterOp_ne_reload loop a loop')⟩
    by_contra hc
    obtain ⟨e, ha, he⟩ := clearing_afterOp (by simpa using hc)
    cases hd.symm.trans (hspec.2 e ha he)
  | @clear _ loop e hpc =>
    refine ⟨fun hd => ?_, fun hl hw => ?_, fun loop' hl => absurd hl
      (afterClear_ne_reload loop e loop')⟩
    · rcases h.edge hd with ho | ⟨-, hc⟩
      · exact .inl ho
      · simp [hpc, Pc.clearing] at hc
    · exact ⟨by simpa using (h.parked hl hw).1, by simp⟩

theorem kernel (h : EdgeInv i me s) {ev : Event}
    (hs : s.step (fd α i) i me (.kernel ev) = some t) : EdgeInv i me t := by
  cases hs
  refine ⟨fun hd => ?_, h.parked, h.stored⟩
  cases hr : ev.reports i with
  | true => exact .inl (by simp [Source.owed, Source.queued, hr])
  | false =>
    have hd' : s.device := by simpa [hr] using hd
    refine (h.edge hd').imp (fun ho => ?_) id
    simpa [Source.owed, Source.queued, hr] using ho

theorem epollWait (h : EdgeInv i me s) {ev : Event} {events : List Event}
    (hw : s.reactor = .waiting) (he : s.events = ev :: events) :
    EdgeInv i me { s with reactor := .next ev.interests, events := events } := by
  -- the event moves from the queue to the pass that the reactor begins
  have hint : ev.interests.contains i = ev.reports i := by
    rw [Bool.eq_iff_iff, contains_iff_mem, Event.mem_interests]
  have howed : Source.owed i
      { s with reactor := .next ev.interests, events := events } = s.owed i := by
    unfold Source.owed Source.queued
    rw [he, hw, owes_next, hint, any_cons, ReactorPc.owes, Bool.or_false, Bool.or_comm]
  refine ⟨fun hd => (h.edge hd).imp howed.trans id, fun hl hwk => ?_, h.stored⟩
  refine ⟨(h.parked hl hwk).1, fun hf => ?_⟩
  obtain ⟨rest, hrest⟩ := (h.parked hl hwk).2 hf
  cases hw.symm.trans hrest

theorem markStore (h : EdgeInv i me s)
    (hr : s.reactor = .store j rest) (hc : s.erases i .mark = false) :
    EdgeInv i me { s with io := s.io.setFlag j true, reactor := .take j rest } := by
  obtain rfl | hj := eq_or_ne j i
  · refine ⟨fun hd => ?_, fun hl hw => ?_, fun loop hl hw => ?_⟩
    · by_cases hclr : s.pc.clearing = false
      · exact .inr ⟨by simp, hclr⟩
      · -- the flag is about to be cleared, so another edge must be on its way
        have hd' : s.device := hd
        refine .inl ?_
        change (s.queued j || rest.contains j)
        by_contra hno
        obtain ⟨hq, hrest⟩ := or_eq_false_iff.mp (not_eq_true _ ▸ hno)
        have hclr' : s.pc.clearing := by simpa using hclr
        rw [Source.erases, hr] at hc
        simp only [hq, hrest, hclr', hd'] at hc
        simp at hc
    · exact ⟨by simpa using (h.parked hl hw).1, fun _ => ⟨rest, rfl⟩⟩
    · simpa using h.stored loop hl hw
  · have hflag : (s.io.setFlag j true).flag i = s.io.flag i :=
      flag_setFlag_of_ne _ (Ne.symm hj) _
    have howed : Source.owed i
        { s with io := s.io.setFlag j true, reactor := .take j rest } = s.owed i := by
      unfold Source.owed Source.queued
      rw [hr, ReactorPc.owes, ReactorPc.owes, beq_false_of_ne hj, Bool.false_or]
    refine ⟨fun hd => ?_, fun hl hw => ?_, fun loop hl hw => ?_⟩
    · rcases h.edge hd with ho | ⟨hf, hclr⟩
      · exact .inl (howed.trans ho)
      · exact .inr ⟨hflag.trans hf, hclr⟩
    · refine ⟨by simpa using (h.parked hl hw).1, fun hf => ?_⟩
      obtain ⟨rest', hrest⟩ := (h.parked hl hw).2 (hflag.symm.trans hf)
      cases hr.symm.trans hrest
    · simpa using h.stored loop hl hw

theorem markTake (h : EdgeInv i me s) (hr : s.reactor = .take j rest) : EdgeInv i me { s with
      io := s.io.setWaker j none, reactor := .next rest
      woken := s.woken || s.io.waker j == some me } := by
  -- a waker of the poller that is still in the slot was in another slot than this
  have hkeep : (s.woken || s.io.waker j == some me) = false → s.io.waker i = some me →
      j ≠ i ∧ (s.io.setWaker j none).waker i = some me := by
    intro hw hm
    have hj : j ≠ i := by
      rintro rfl
      simp [hm] at hw
    exact ⟨hj, (waker_setWaker_of_ne _ (Ne.symm hj) _).trans hm⟩
  have hwoken : (s.woken || s.io.waker j == some me) = false → s.woken = false :=
    fun hw => (or_eq_false_iff.mp hw).1
  refine ⟨fun hd => ?_, fun hl hw => ?_, fun loop hl hw => ?_⟩
  · rcases h.edge hd with ho | ⟨hf, hclr⟩
    · refine .inl ?_
      unfold Source.owed at ho ⊢
      rw [hr] at ho
      rw [owes_next]
      exact ho
    · exact .inr ⟨by simpa using hf, hclr⟩
  · obtain ⟨hm, hf⟩ := h.parked hl (hwoken hw)
    obtain ⟨hj, hm'⟩ := hkeep hw hm
    refine ⟨hm', fun hf' => ?_⟩
    obtain ⟨rest', hrest⟩ := hf (by simpa using hf')
    rw [hr] at hrest
    exact absurd (ReactorPc.take.inj hrest).1 hj
  · exact (hkeep hw (h.stored loop hl (hwoken hw))).2

theorem step (h : EdgeInv i me s) {l : Label (Outcome α) Event} (hc : s.erases i l = false)
    (hs : s.step (fd α i) i me l = some t) : EdgeInv i me t := by
  cases steps_of_step hs with
  | call hpc => exact h.call _ ⟨_, hpc⟩
  | load | store | reload | park | op | clear => exact h.poll hs
  | kernel => exact h.kernel hs
  | epollWait hr he => exact h.epollWait hr he
  | mark hr => exact h.markStore hr hc
  | take hr => exact h.markTake hr

theorem not_stranded (h : EdgeInv i me s) : ¬ s.Stranded i := by
  rintro ⟨-, hl, hd, ⟨hq, hm⟩, hw⟩
  rcases h.edge hd with ho | ⟨hf, -⟩
  · -- an edge on its way has not been delivered
    have howes : s.reactor.owes i := by simpa [Source.owed, hq] using ho
    cases hr : s.reactor with
    | waiting => simp [hr, ReactorPc.owes] at howes
    | store j rest | take j rest => simp_all [ReactorPc.owes, ReactorPc.marks]
  · obtain ⟨rest, hr⟩ := (h.parked hl hw).2 hf
    simp [hr, ReactorPc.marks] at hm

end EdgeInv

/-! ## After an edge is erased -/

section Erased

variable (me : ℕ) (ready : Bool) (events : List Event) {i : Interest} {s t : Source Bool α}
  {loop : Bool}

/-- The poller and the reactor alone can get it stranded. -/
def Doomed (i : Interest) (me : ℕ) (ready : Bool) (events : List Event) (s : Source Bool α) :
    Prop :=
  (source (fd α i) i me ready events).LeadsTo (fun l => l.isKernel = false) (Stranded i) s

theorem doomed_of_load (hpc : s.pc = .load loop) (hl : s.woken = false)
    (hf : s.io.flag i = false) (hd : s.device) (hq : s.queued i = false)
    (hm : s.reactor.marks i = false) : Doomed i me ready events s := by
  refine .of_run (by simp [Label.isKernel])
    (run_park (k := .fail 0) s hpc hf) (.now ?_)
  exact ⟨⟨_, rfl⟩, rfl, hd, ⟨hq, hm⟩, hl⟩

theorem doomed_of_idle {r : Ret α} (hpc : s.pc = .returned r) (hf : s.io.flag i = false)
    (hd : s.device) (hq : s.queued i = false) (hm : s.reactor.marks i = false) :
    Doomed i me ready events s := by
  have hcall : (source (fd α i) i me ready events).step s (.call (.pollIo none)) =
      some { s with pc := .load true, lastPending := false, woken := false } := by
    simp [source, step, hpc, call, pollProceed]
  exact .of_step (by simp [Label.isKernel]) hcall
    (doomed_of_load me ready events rfl rfl hf hd hq hm)

theorem doomed_of_clear {e : Errno} (hpc : s.pc = .clear loop e)
    (hd : s.device) (hq : s.queued i = false) (hm : s.reactor.marks i = false) :
    Doomed i me ready events s := by
  have hclear : (source (fd α i) i me ready events).step s (.poll (.fail 0)) =
      some { s with io := s.io.setFlag i false, pc := .afterClear loop e } := by
    simp [source, step, poll, hpc]
  refine .of_step (by simp [Label.isKernel]) hclear ?_
  cases loop with
  | false => exact doomed_of_idle me ready events rfl (by simp) hd hq hm
  | true =>
    refine .of_run (by simp [Label.isKernel])
      (run_park (k := .fail 0) { s with io := s.io.setFlag i false, pc := .load true } rfl
        (by simp)) ?_
    exact doomed_of_idle me ready events rfl (by simp) hd hq hm

theorem doomed_of_erases {l : Label (Outcome α) Event} (he : s.erases i l)
    (hs : s.step (fd α i) i me l = some t) : Doomed i me ready events t := by
  cases steps_of_step hs with
  | mark hr =>
    simp only [Source.erases, hr, and_eq_true, not_eq_true', beq_iff_eq] at he
    obtain ⟨⟨⟨⟨rfl, hrest⟩, hclr⟩, hd⟩, hq⟩ := he
    obtain ⟨loop, e, hpc⟩ : ∃ loop e, s.pc = .clear loop e := by
      cases hpc : s.pc with
      | clear loop e => exact ⟨loop, e, rfl⟩
      | _ => simp [hpc, Pc.clearing] at hclr
    -- the reactor takes whatever waker there is, and has done its part
    refine .of_step (e := .mark) rfl rfl ?_
    refine doomed_of_clear me ready events hpc hd hq ?_
    rw [marks_next, hrest]
  | take hr => simp [Source.erases, hr] at he
  | _ => simp [Source.erases] at he

end Erased

/-- **A poller is stranded only when an edge was erased.**  In every run without a
step that erases an edge no reached state is stranded; and from every such step
on, the poller and the reactor alone can get to a stranded state. -/
theorem not_stranded_unless_erases (i : Interest) (me : ℕ) (ready : Bool) (events : List Event) :
    (∀ s, (source (fd α i) i me ready events).ReachableUnder (fun s l => s.erases i l = false) s →
      ¬ s.Stranded i) ∧ ∀ (s t : Source Bool α) (l : Label (Outcome α) Event), s.erases i l = true →
      s.step (fd α i) i me l = some t → Doomed i me ready events t := by
  refine ⟨fun s hs => ?_, fun s t l he hs => doomed_of_erases me ready events he hs⟩
  have hinv : EdgeInv i me s := System.inv_of_reachableUnder (I := EdgeInv i me)
    (EdgeInv.registered i me ready events) (fun s l t h hc hs => h.step hc hs) hs
  exact hinv.not_stranded

/-- Data arrives, and is announced, between the `WouldBlock` of a first poll and
its `clear`. -/
theorem exists_stranded_poller :
    ∃ s : Source Bool Unit, (source (fd Unit .read) .read 0 false []).Reachable s ∧
      s.Stranded .read := by
  refine ⟨_, ⟨[.call (.pollIo none), .poll (.drain ()), .poll (.drain ()),
      .kernel ⟨true, false, false, false, false⟩, .epollWait, .mark, .mark, .poll (.drain ()),
      .poll (.drain ()), .poll (.drain ()), .poll (.drain ())], rfl⟩, ?_⟩
  exact ⟨⟨_, rfl⟩, rfl, rfl, ⟨rfl, rfl⟩, rfl⟩

theorem not_stranded_after_arrival :
    (∃ s : Source Bool Unit, (source (fd Unit .read) .read 0 false []).Reachable s ∧
      s.lastPending = true ∧ s.device = true ∧ s.events = [] ∧ s.reactor = .waiting ∧
      ¬ s.Stranded .read) ∧
    ∃ s t : Source Bool Unit, (source (fd Unit .read) .read 0 false []).Reachable s ∧
      s.step (fd Unit .read) .read 0 .mark = some t ∧ Doomed .read 0 false [] t := by
  constructor
  · have hr : (source (fd Unit .read) .read 0 false []).ReachableUnder
        (fun s l => s.erases .read l = false) _ :=
      ⟨[.call (.pollIo none), .poll (.drain ()), .poll (.drain ()), .poll (.drain ()),
        .poll (.drain ()), .poll (.drain ()), .poll (.drain ()),
        .kernel ⟨true, false, false, false, false⟩, .epollWait, .mark, .mark], rfl, by decide⟩
    exact ⟨_, hr.reachable, rfl, rfl, rfl, rfl,
      (not_stranded_unless_erases .read 0 false []).1 _ hr⟩
  · have hst : ∃ s t, (source (fd Unit .read) .read 0 false []).Reachable s ∧
        s.erases .read .mark ∧ s.step (fd Unit .read) .read 0 .mark = some t :=
      ⟨_, _, ⟨[.call (.pollIo none), .poll (.drain ()), .poll (.drain ()),
        .kernel ⟨true, false, false, false, false⟩, .epollWait], rfl⟩, rfl, rfl⟩
    obtain ⟨s, t, hr, he, hs⟩ := hst
    exact ⟨s, t, hr, hs, (not_stranded_unless_erases .read 0 false []).2 s t .mark he hs⟩

end Source

end RustyTokio.Reactor

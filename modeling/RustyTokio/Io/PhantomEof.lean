import RustyTokio.Fs.File
import RustyTokio.Io.Buffered
import RustyTokio.Io.CopyBidirectional

/-!
# Ends of stream that no reader has reported

An adapter learns of the end of a stream from a read that gives no bytes.  A read that asks for no
bytes gives none either, and says nothing about the end.
-/

namespace RustyTokio

/-! ## `fill_buf` -/

namespace AsyncIo

/-- The last read had room for a byte and gave none: the reader has said that it is at its end, and
was not asked again. -/
def Ended (reader : Reader) : Prop :=
  ∃ earlier room, 0 < room ∧ reader.log = earlier ++ [(room, .ready (.ok []))]

theorem ended_of_pollRead {reader reader' : Reader} {room : ℕ} (hroom : 0 < room)
    (h : reader.pollRead room = (reader', .ready (.ok []))) : Ended reader' := by
  have hlog := reader.log_pollRead room
  rw [h] at hlog
  exact ⟨reader.log, room, hroom, hlog⟩

namespace BufReader

variable {r : BufReader} {delivered : List UInt8}

theorem ended_of_pollFillBuf (h : r.Sound delivered) (hroom : 0 < r.buf.length)
    (hnone : r.pollFillBuf.2 = .ready (.ok [])) : Ended r.pollFillBuf.1.inner := by
  rcases hfill : r.pollFillBuf with ⟨r', answer⟩
  rw [hfill] at hnone
  obtain rfl : answer = .ready (.ok []) := hnone
  generalize hgiven : ([] : List UInt8) = given at hfill
  cases fillsBuf_of_pollFillBuf hfill with
  | buffered hmore =>
    have hlen := unread_length h.cap_le
    rw [← hgiven, List.length_nil] at hlen
    omega
  | filled _ hread => exact ended_of_pollRead hroom (hgiven ▸ hread)
  | stopped _ _ _ hstop => exact absurd rfl (hstop _)

end BufReader
end AsyncIo

/-! ## The relay -/

namespace CopyBidirectional

open Transition
open AsyncIo (Ended Reader Writer Error ended_of_pollRead)

variable {d d' : Direction} {t : TransferState} {reader : Reader} {writer : Writer}
  {answer : Script.Poll Error Unit} {result : Option (Answer ℕ)}

/-- The writer of a direction is shut down only after its reader has said that it is at its end. -/
structure Honest (d : Direction) : Prop where
  room : 0 < d.buffer.buf.length
  ended : d.buffer.readDone = true → Ended d.reader
  shut : ∀ answer, .shutdown answer ∈ d.writer.log → d.buffer.readDone = true

theorem shutdown_mem_of_pollWrite {bytes : List UInt8}
    (h : .shutdown answer ∈ (writer.pollWrite bytes).1.log) : .shutdown answer ∈ writer.log := by
  rw [Script.Sink.pollWrite] at h
  split at h <;> simpa using h

theorem Honest.refill (h : Honest d) (hmore : d.buffer.readDone = false)
    (hpass : d.refill = (d', result)) : Honest d' ∧ ∀ amt, result ≠ some (.ready (.ok amt)) := by
  have hopen : d.buffer.readDone ≠ true := by simp [hmore]
  rw [Direction.refill] at hpass
  rcases hread : d.reader.pollRead d.buffer.buf.length with ⟨reader, _ | e | _ | ⟨x, bytes⟩⟩ <;>
    rw [hread] at hpass <;> cases hpass
  · exact ⟨⟨h.room, fun hd => absurd hd hopen, h.shut⟩, by simp⟩
  · exact ⟨⟨h.room, fun hd => absurd hd hopen, h.shut⟩, by simp⟩
  · exact ⟨⟨h.room, fun _ => ended_of_pollRead h.room hread, fun _ _ => rfl⟩, by simp⟩
  · refine ⟨⟨?_, fun hd => absurd hd hopen, h.shut⟩, by simp⟩
    simp [CopyBuffer.filled]

theorem Honest.drain (h : Honest d) (hpass : d.drain = (d', result)) :
    Honest d' ∧ ∀ amt, result ≠ some (.ready (.ok amt)) := by
  rw [Direction.drain] at hpass
  split at hpass
  · cases hpass
    exact ⟨h, by simp⟩
  next bytes _ =>
    have hshut : ∀ answer, .shutdown answer ∈ (d.writer.pollWrite bytes).1.log →
        d.buffer.readDone = true :=
      fun answer hmem => h.shut answer (shutdown_mem_of_pollWrite hmem)
    rcases hwrite : d.writer.pollWrite bytes with ⟨writer, _ | e | _ | n⟩ <;>
      rw [hwrite] at hpass hshut <;> cases hpass <;>
      exact ⟨⟨h.room, h.ended, hshut⟩, by simp⟩

theorem Honest.pass (h : Honest d) (hpass : d.pass = (d', result)) :
    Honest d' ∧ ∀ amt, result = some (.ready (.ok amt)) → d'.buffer.readDone = true := by
  rw [Direction.pass] at hpass
  split at hpass
  · obtain ⟨h', hne⟩ := h.drain hpass
    exact ⟨h', fun amt hok => absurd hok (hne amt)⟩
  · split at hpass
    · split at hpass
      next hdone =>
        -- the writer is shut down
        rw [Direction.finish] at hpass
        rcases hclose : d.writer.pollShutdown with ⟨writer, _ | e | _⟩ <;>
          rw [hclose] at hpass <;> cases hpass <;>
          exact ⟨⟨h.room, h.ended, fun _ _ => hdone⟩, fun _ _ => hdone⟩
      next hmore =>
        obtain ⟨h', hne⟩ := h.refill (Bool.eq_false_iff.mpr hmore) hpass
        exact ⟨h', fun amt hok => absurd hok (hne amt)⟩
    · cases hpass
      exact ⟨h, by simp⟩

theorem Honest.poll (h : Honest d) :
    Honest d.poll.1 ∧ ∀ amt, d.poll.2 = .ready (.ok amt) → d.poll.1.buffer.readDone = true := by
  refine Loop.passes_inv (I := Honest)
    (Q := fun d answer => Honest d ∧ ∀ amt, answer = .ready (.ok amt) → d.buffer.readDone = true)
    (fun _ _ h hpass => (h.pass hpass).1) (fun _ _ answer h hpass => ?_)
    (fun _ h => ⟨h, by simp⟩) _ h
  obtain ⟨h', hdone⟩ := h.pass hpass
  exact ⟨h', fun amt hok => hdone amt (congrArg some hok)⟩

/-- A direction of the relay whose writer is not shut down before its reader is at its end. -/
inductive Reports (reader : Reader) (writer : Writer) : TransferState → Prop where
  | running {b : CopyBuffer} (h : Honest ⟨b, reader, writer⟩) : Reports reader writer (.running b)
  | done {amt} (h : Ended reader) : Reports reader writer (.done amt)

theorem Reports.ended (h : Reports reader writer t) (hmem : .shutdown answer ∈ writer.log) :
    Ended reader := by
  cases h with
  | running h => exact h.ended (h.shut answer hmem)
  | done h => exact h

theorem Reports.poll (h : Reports reader writer t) : Reports (t.poll reader writer).2.1
    (t.poll reader writer).2.2.1 (t.poll reader writer).1 := by
  cases h with
  | @running b h =>
    obtain ⟨hhonest, hdone⟩ := h.poll
    rw [TransferState.poll]
    rcases hpoll : Direction.poll ⟨b, reader, writer⟩ with ⟨d, _ | e | amt⟩ <;>
      rw [hpoll] at hhonest hdone
    · exact .running hhonest
    · exact .running hhonest
    · exact .done (hhonest.ended (hdone amt rfl))
  | done h => exact .done h

theorem Relay.run_inv {I : Relay → Prop} (hpoll : ∀ s, I s → I s.poll.1) (polls : ℕ) {s : Relay}
    (h : I s) : I (s.run polls).1 := by
  induction polls generalizing s with
  | zero => exact h
  | succ polls ih =>
    have hnext := hpoll s h
    rw [run]
    rcases hp : s.poll with ⟨s', _ | answer⟩ <;> rw [hp] at hnext
    · exact ih hnext
    · exact hnext

theorem reports_withCapacity {size : ℕ} (hsize : 0 < size) (hlog : writer.log = []) :
    Reports reader writer (.running (.withCapacity size)) := by
  refine .running ⟨?_, nofun, fun answer hmem => ?_⟩
  · simpa [CopyBuffer.withCapacity] using hsize
  · rw [hlog] at hmem
    cases hmem

theorem Direction.exists_finish (d : Direction) :
    ∃ answer, d.finish = ({ d with writer := d.writer.pollShutdown.1 }, some answer) := by
  rw [Direction.finish]
  rcases hclose : d.writer.pollShutdown with ⟨writer, _ | e | _⟩ <;> exact ⟨_, rfl⟩

/-- A buffer without room: the first pass takes a chunk for the end, and the second one shuts the
writer down. -/
theorem Direction.poll_zero (x : UInt8) (xs : List UInt8)
    (rest : List (Script.Poll Error (List UInt8))) (writer : Writer) : ∃ answer, Direction.poll
      ⟨.withCapacity 0, .ofScript (.ready (.ok (x :: xs)) :: rest), writer⟩ =
        (⟨⟨true, 0, 0, 0, []⟩, ⟨.ready (.ok (x :: xs)) :: rest, [(0, .ready (.ok []))]⟩,
          writer.pollShutdown.1⟩, answer) := by
  obtain ⟨answer, hfinish⟩ := Direction.exists_finish ⟨⟨true, 0, 0, 0, []⟩,
    ⟨.ready (.ok (x :: xs)) :: rest, [(0, .ready (.ok []))]⟩, writer⟩
  have hpass : Direction.pass
      ⟨.withCapacity 0, .ofScript (.ready (.ok (x :: xs)) :: rest), writer⟩ =
        (⟨⟨true, 0, 0, 0, []⟩, ⟨.ready (.ok (x :: xs)) :: rest, [(0, .ready (.ok []))]⟩, writer⟩,
          none) := rfl
  obtain ⟨n, hn⟩ : ∃ n, Direction.left
      ⟨.withCapacity 0, .ofScript (.ready (.ok (x :: xs)) :: rest), writer⟩ = n + 1 := ⟨_, rfl⟩
  rw [Direction.poll, Loop.poll, hn, Loop.passes, hpass]
  refine ⟨answer, ?_⟩
  change Loop.passes Direction.pass (n + 1) _ = _
  rw [Loop.passes, Direction.pass, if_neg (Nat.lt_irrefl 0), if_pos rfl, if_pos rfl, hfinish]

theorem TransferState.poll_zero (x : UInt8) (xs : List UInt8)
    (rest : List (Script.Poll Error (List UInt8))) (writer : Writer) :
    ((running (.withCapacity 0)).poll
        (.ofScript (.ready (.ok (x :: xs)) :: rest)) writer).2.1.script =
      .ready (.ok (x :: xs)) :: rest ∧
    ∃ answer, .shutdown answer ∈ ((running (.withCapacity 0)).poll
      (.ofScript (.ready (.ok (x :: xs)) :: rest)) writer).2.2.1.log := by
  obtain ⟨answer, hpoll⟩ := Direction.poll_zero x xs rest writer
  rw [TransferState.poll, hpoll]
  rcases answer with _ | e | amt <;>
    exact ⟨rfl, _, List.mem_append_right _ (List.mem_singleton.mpr rfl)⟩

end CopyBidirectional

/-! ## `File::poll_read` -/

namespace Fs

open Transition Transition.Leftover List Option Handle

def want : Request → ℕ
  | .read remaining maxBufSize => min remaining maxBufSize
  | _ => 0

def silent : Progress Op → Bool
  | .done op => op == .read (.ok [])
  | .crashed => false
  | _ => true

def empties (maxBufSize : ℕ) : Slot Request Op → Bool
  | .idle => maxBufSize == 0
  | .busy _ _ .crashed => false
  | .busy _ job progress =>
    if job.kind = .read then want job == 0 && silent progress else maxBufSize == 0
  | .poisoned => false

variable {job : Request} {progress : Progress Op} {f : OsFile} {s : State OsFile Request Op}
  {maxBufSize owner number remaining : ℕ} {t : State OsFile Request Op} {l : Label Request Choice}

theorem empties_busy (h : progress ≠ .crashed) : empties maxBufSize (.busy owner job progress) =
      if job.kind = .read then want job == 0 && silent progress else maxBufSize == 0 := by
  cases progress with
  | crashed => exact absurd rfl h
  | waiting | running | done op => rfl

/-- A read with room for a byte is made that may end so. -/
def hollow (s : State OsFile Request Op) : Label Request Choice → Bool
  | .call (.read remaining maxBufSize) => decide (0 < remaining) && empties maxBufSize s.slot
  | _ => false

/-- No read that asked for bytes gets an empty answer from one that did not. -/
structure Heard (s : State OsFile Request Op) : Prop where
  call : ∀ c, s.call = some c → ∀ remaining maxBufSize, c.request = .read remaining maxBufSize →
    0 < remaining → empties maxBufSize s.slot = false
  results : ∀ x ∈ s.results, ∀ remaining maxBufSize, x.request = .read remaining maxBufSize →
    0 < remaining → ∀ owner job, x.outcome = .answered owner job (.read (.ok [])) → 0 < want job

theorem heard_of_step
    (h : Heard s) (hl : hollow s l = false) (hs : (file f).Steps s l t) : Heard t := by
  -- the job goes on, and says no more than it did
  have same : ∀ {owner : ℕ} {job : Request} {p q : Progress Op}, s.slot = .busy owner job p →
      (∀ maxBufSize, empties maxBufSize (.busy owner job p) = false →
        empties maxBufSize (.busy owner job q) = false) →
      ∀ c, s.call = some c → ∀ remaining maxBufSize, c.request = .read remaining maxBufSize →
        0 < remaining → empties maxBufSize (.busy owner job q) = false := by
    intro owner job p q hslot hq c hc remaining maxBufSize hreq hpos
    exact hq maxBufSize (hslot ▸ h.call c hc remaining maxBufSize hreq hpos)
  cases hs with
  | call request hc =>
    refine ⟨fun c hc' remaining maxBufSize hreq hpos => ?_, h.results⟩
    rw [← some.inj hc'] at hreq
    change request = _ at hreq
    rw [hreq] at hl
    simpa [hollow, hpos] using hl
  | start hslot hc =>
    refine ⟨fun c hc' remaining maxBufSize hreq hpos => ?_, h.results⟩
    have hidle := h.call c hc' remaining maxBufSize hreq hpos
    cases hc.symm.trans hc'
    obtain rfl := hreq
    rw [hslot] at hidle
    have hmax : maxBufSize ≠ 0 := by simpa [empties] using hidle
    have hwant : want (.read remaining maxBufSize) ≠ 0 := by
      rw [want]
      omega
    simp [empties, Handle.started, file, Request.kind, hwant]
  | launch hslot => exact ⟨same hslot fun _ hp => hp, h.results⟩
  | crash hslot => exact ⟨same hslot fun _ _ => rfl, h.results⟩
  | @work owner job choice g op hslot he =>
    refine ⟨same hslot fun maxBufSize hp => ?_, h.results⟩
    by_cases hkind : job.kind = .read
    · have hwant : want job ≠ 0 := by simpa [empties, hkind, silent] using hp
      simp [empties, hkind, hwant]
    · simpa [empties, hkind] using hp
  | @taken owner number job request op hslot hc ha =>
    refine ⟨by simp, forall_mem_append.mpr ⟨h.results, ?_⟩⟩
    refine forall_mem_singleton.mpr fun remaining maxBufSize hreq hpos owner' job' ho => ?_
    obtain ⟨rfl, rfl, rfl, -⟩ := of_outcome_eq_answered ho
    have hempties := h.call _ hc remaining maxBufSize hreq hpos
    obtain rfl : request = .read remaining maxBufSize := hreq
    have hkind : job.kind = .read := by simpa [file, Request.kind, Kind.takes] using ha
    rw [hslot] at hempties
    have hwant : want job ≠ 0 := by simpa [empties, hkind, silent] using hempties
    exact Nat.pos_of_ne_zero hwant
  | @drained owner number job request op hslot hc ha =>
    refine ⟨fun c hc' remaining maxBufSize hreq hpos => ?_, h.results⟩
    have hempties := h.call c hc' remaining maxBufSize hreq hpos
    cases hc.symm.trans hc'
    obtain rfl : request = .read remaining maxBufSize := hreq
    have hkind : job.kind ≠ .read := by simpa [file, Request.kind, Kind.takes] using ha
    rw [hslot] at hempties
    simpa [empties, hkind] using hempties
  | failed hslot hslot' hc =>
    exact ⟨by simp, forall_mem_append.mpr ⟨h.results, by simp⟩⟩
  | suspend hc | resume hc =>
    refine ⟨fun c hc' remaining maxBufSize hreq => ?_, h.results⟩
    rw [← some.inj hc'] at hreq
    exact h.call _ hc remaining maxBufSize hreq
  | drop hc => exact ⟨by simp, h.results⟩

theorem heard_of_reachableUnder
    (h : (file f).system.ReachableUnder (fun s l => hollow s l = false) s) : Heard s :=
  System.inv_of_reachableUnder (I := Heard) ⟨by simp [Handle.system], by simp [Handle.system]⟩
    (fun _ _ _ hI hl hs => heard_of_step hI hl (steps_of_step hs)) h

theorem end_of_read {f' : OsFile} {choice : Choice}
    (h : perform f job choice = some (f', .read (.ok []))) (hwant : 0 < want job) :
    f.content.length ≤ f.cursor := by
  cases job with
  | read remaining maxBufSize =>
    cases choice with
    | ok n =>
      obtain ⟨⟨g, chunk⟩, hread, heq⟩ := map_eq_some_iff.mp h
      obtain ⟨-, hchunk⟩ := Prod.mk.inj heq
      obtain ⟨⟨hn, hzero⟩, hsome⟩ := ite_none_right_eq_some.mp hread
      obtain ⟨-, hbytes⟩ := pair_of_some hsome
      obtain rfl : chunk = [] := by simpa using hchunk
      have hlen := congrArg List.length hbytes
      rw [length_take, length_drop, length_nil] at hlen
      simp only [OsFile.readable, want] at hn hzero hwant
      omega
    | error code => simp [perform] at h
  | _ => exact absurd (kind_of_perform h) (by simp [Op.kind, Request.kind])

theorem eof_of_reachableUnder
    (h : (file f).system.ReachableUnder (fun s l => hollow s l = false) s) :
    ∀ x ∈ s.results, ∀ remaining maxBufSize owner job,
      x.request = .read remaining maxBufSize → 0 < remaining →
      x.outcome = .answered owner job (.read (.ok [])) → 0 < want job ∧ ∃ before choice after,
        perform before job choice = some (after, .read (.ok [])) ∧
          before.content.length ≤ before.cursor := by
  intro x hx remaining maxBufSize owner job hreq hpos ho
  have hwant := (heard_of_reachableUnder h).results x hx remaining maxBufSize hreq hpos owner job ho
  have hlog : (owner, job, Op.read (.ok [])) ∈ s.log :=
    ((sound_of_reachable h.reachable).results x hx).2 _ (by rw [ho]; rfl)
  obtain ⟨before, choice, after, hperform⟩ := exec_of_mem_log h.reachable _ hlog
  exact ⟨hwant, before, choice, after, hperform, end_of_read hperform hwant⟩

/-- A read with room for a byte has got nothing from a read of nothing. -/
def GotNothing (u : State OsFile Request Op) : Prop :=
  ∃ x ∈ u.results, ∃ remaining maxBufSize owner job,
    x.request = .read remaining maxBufSize ∧ 0 < remaining ∧
      x.outcome = .answered owner job (.read (.ok [])) ∧ want job = 0

def Proceeding (l : Label Request Choice) : Prop := Handle.Finishing l ∨ l = .start

theorem exec_empty (f g : OsFile) (hkind : job.kind = .read) (hwant : want job = 0) :
    ∃ choice g', (file f).exec g job choice = some (g', .read (.ok [])) := by
  cases job with
  | read remaining maxBufSize =>
    have hread : g.read (min remaining maxBufSize) 0 =
        some ({ g with cursor := g.cursor + 0 }, []) := by
      have hzero : min remaining maxBufSize = 0 := hwant
      rw [OsFile.read, if_pos]
      · rfl
      · rw [OsFile.readable, hzero]
        exact ⟨Nat.zero_le _, fun _ => Nat.zero_min _⟩
    exact ⟨.ok 0, _, by simp only [file, perform, hread, map_some]; rfl⟩
  | _ => simp [Request.kind] at hkind

theorem exists_answer (f g : OsFile) (job : Request)
    (h : progress ≠ .crashed) : ∃ op, (file f).CanAnswer g job op progress := by
  obtain ⟨op, hp, -⟩ := perform_error g job 5
  cases progress with
  | done op' => exact ⟨op', rfl⟩
  | crashed => exact absurd rfl h
  | waiting | running => exact ⟨op, _, _, hp⟩

theorem leadsTo_gotNothing (hslot : s.slot = .busy owner job progress)
    (hc : s.call = some ⟨number, .read remaining maxBufSize, true⟩) (hpos : 0 < remaining)
    (hkind : job.kind = .read) (hwant : want job = 0) (hsilent : silent progress) :
    (file f).system.LeadsTo Proceeding GotNothing s := by
  have hcan : (file f).CanAnswer s.device job (.read (.ok [])) progress := by
    cases progress with
    | done op => exact beq_iff_eq.mp hsilent
    | crashed => cases hsilent
    | waiting | running => exact exec_empty f s.device hkind hwant
  have ha : (file f).accepts (.read remaining maxBufSize) job := by
    simp only [file, hkind]
    rfl
  have hfits : (file f).fits (.read remaining maxBufSize) (.read (.ok [])) :=
    decide_eq_true (Nat.zero_le remaining)
  have houtcome : (file f).outcome (.read remaining maxBufSize) owner job (.read (.ok [])) =
      .answered owner job (.read (.ok [])) := by
    rw [Handle.outcome, if_pos hfits]
  refine ((leadsTo_taken hslot hc ha hcan).mono_label fun _ => .inl).mono fun u hx => ?_
  exact ⟨_, hx, remaining, maxBufSize, owner, job, rfl, hpos, houtcome, hwant⟩

theorem leadsTo_gotNothing_of_idle (hslot : s.slot = .idle)
    (hc : s.call = some ⟨number, .read remaining 0, true⟩) (hpos : 0 < remaining) :
    (file f).system.LeadsTo Proceeding GotNothing s := by
  have hstep : (file f).system.step s .start =
      some { s with slot := .busy number (.read remaining 0) .running } := by
    simp only [Handle.system, Handle.step, hslot, hc]
    rfl
  exact .of_step (.inr rfl) hstep
    (leadsTo_gotNothing rfl hc hpos rfl (Nat.min_zero _) rfl)

theorem leadsTo_gotNothing_of_hollow (hl : hollow s l) (hs : (file f).step s l = some t) :
    (file f).system.LeadsTo Proceeding GotNothing t := by
  cases steps_of_step hs with
  | call request hc =>
    cases request with
    | read remaining maxBufSize =>
      obtain ⟨hpos, hempties⟩ := Bool.and_eq_true_iff.mp hl
      have hpos := of_decide_eq_true hpos
      cases hslot : s.slot with
      | idle =>
        rw [hslot] at hempties
        obtain rfl : maxBufSize = 0 := by simpa [empties] using hempties
        exact leadsTo_gotNothing_of_idle rfl rfl hpos
      | poisoned =>
        rw [hslot] at hempties
        cases hempties
      | busy owner job progress =>
        rw [hslot] at hempties
        have hprogress : progress ≠ .crashed := by
          rintro rfl
          cases hempties
        rw [empties_busy hprogress] at hempties
        by_cases hkind : job.kind = .read
        · rw [if_pos hkind, Bool.and_eq_true, beq_iff_eq] at hempties
          exact leadsTo_gotNothing rfl rfl hpos hkind hempties.1 hempties.2
        · -- the leftover is thrown away first
          rw [if_neg hkind] at hempties
          obtain rfl : maxBufSize = 0 := beq_iff_eq.mp hempties
          obtain ⟨op, hcan⟩ := exists_answer f s.device job hprogress
          have ha : ¬ (file f).accepts (.read remaining 0) job := by
            simpa [file, Request.kind, Kind.takes] using hkind
          have hdrained := leadsTo_drained
            (s := { s with
              slot := .busy owner job progress
              call := some ⟨s.requests.length, .read remaining 0, true⟩
              requests := s.requests ++ [.read remaining 0] }) rfl rfl ha hcan
          exact (hdrained.mono_label fun _ => .inl).bind fun u hu =>
            leadsTo_gotNothing_of_idle hu.1 hu.2 hpos
    | _ => cases hl
  | _ => cases hl

end Fs

/-! ## All three -/

namespace CopyBidirectional

open Transition (Script.Poll)
open AsyncIo (Error)

variable {aReads bReads : List (Script.Poll Error (List UInt8))}
  {aWrites bWrites : List (Script.Poll Error ℕ)}
  {aShutdowns bShutdowns : List (Script.Poll Error Unit)} {aToBSize bToASize polls : ℕ}

theorem Relay.reports_of_run {s : Relay} {result : Answer (ℕ × ℕ)}
    (hrun : (withSizes (.ofScripts aReads aWrites aShutdowns)
      (.ofScripts bReads bWrites bShutdowns) aToBSize bToASize).run polls = (s, result)) :
    (0 < aToBSize → Reports s.a.reader s.b.writer s.aToB) ∧
      (0 < bToASize → Reports s.b.reader s.a.writer s.bToA) := by
  obtain rfl := congrArg Prod.fst hrun
  constructor <;> intro hsize
  · exact run_inv (I := fun s => Reports s.a.reader s.b.writer s.aToB)
      (fun s hI => hI.poll) polls (reports_withCapacity hsize rfl)
  · exact run_inv (I := fun s => Reports s.b.reader s.a.writer s.bToA)
      (fun s hI => hI.poll) polls (reports_withCapacity hsize rfl)

end CopyBidirectional

open AsyncIo CopyBidirectional in
/-- **Where an end of stream comes from the reader.**  With room for a byte, `fill_buf` reports the
end, and a relay shuts a stream down, only if the reader has said that it is at its end; without
room both do so at the first chunk.  A `File` read with room for a byte gets nothing only at the
end of the file, in every run without a hollow read; and a hollow read can get nothing from a read
of nothing. -/
theorem eof_only_from_reader (capacity : ℕ) (script : List (AsyncIo.Poll (List UInt8)))
    (calls : List BufReader.Call) (aReads bReads : List (AsyncIo.Poll (List UInt8)))
    (aWrites bWrites : List (AsyncIo.Poll ℕ)) (aShutdowns bShutdowns : List (AsyncIo.Poll Unit))
    (aToBSize bToASize polls : ℕ) (f : Fs.OsFile) :
    (∀ r delivered,
      (BufReader.withCapacity capacity (.ofScript script)).run calls = (r, delivered) →
      0 < capacity → r.pollFillBuf.2 = .ready (.ok []) →
      ∃ room, 0 < room ∧ (room, .ready (.ok [])) ∈ r.pollFillBuf.1.inner.log) ∧
    (∀ x xs, (BufReader.withCapacity 0 (.ofScript (.ready (.ok (x :: xs)) :: script))).pollFillBuf =
      (⟨⟨.ready (.ok (x :: xs)) :: script, [(0, .ready (.ok []))]⟩, [], 0, 0⟩, .ready (.ok []))) ∧
    (∀ s result, (Relay.withSizes (.ofScripts aReads aWrites aShutdowns)
        (.ofScripts bReads bWrites bShutdowns) aToBSize bToASize).run polls = (s, result) →
      (0 < aToBSize → ∀ answer, .shutdown answer ∈ s.b.writer.log → Ended s.a.reader) ∧
      (0 < bToASize → ∀ answer, .shutdown answer ∈ s.a.writer.log → Ended s.b.reader)) ∧
    (∀ x xs, (∃ s result, (Relay.withSizes
          (.ofScripts (.ready (.ok (x :: xs)) :: aReads) aWrites aShutdowns)
          (.ofScripts bReads bWrites bShutdowns) 0 bToASize).poll = (s, result) ∧
        s.a.reader.script = .ready (.ok (x :: xs)) :: aReads ∧
          ∃ answer, .shutdown answer ∈ s.b.writer.log) ∧
      ∃ s result, (Relay.withSizes (.ofScripts aReads aWrites aShutdowns)
          (.ofScripts (.ready (.ok (x :: xs)) :: bReads) bWrites bShutdowns) aToBSize 0).poll =
            (s, result) ∧ s.b.reader.script = .ready (.ok (x :: xs)) :: bReads ∧
          ∃ answer, .shutdown answer ∈ s.a.writer.log) ∧
    (∀ s, (Fs.file f).system.ReachableUnder (fun s l => Fs.hollow s l = false) s →
      ∀ x ∈ s.results, ∀ remaining maxBufSize owner job,
        x.request = .read remaining maxBufSize → 0 < remaining →
        x.outcome = .answered owner job (.read (.ok [])) → 0 < Fs.want job ∧ ∃ before choice after,
          Fs.perform before job choice = some (after, .read (.ok [])) ∧
            before.content.length ≤ before.cursor) ∧
    ∀ s l t, Fs.hollow s l = true → (Fs.file f).step s l = some t →
      (Fs.file f).system.LeadsTo Fs.Proceeding Fs.GotNothing t := by
  refine ⟨fun r delivered hrun hcap hnone => ?_, fun x xs => rfl, fun s result hrun => ?_,
    fun x xs => ⟨⟨_, _, rfl, TransferState.poll_zero x xs aReads _⟩,
      ⟨_, _, rfl, TransferState.poll_zero x xs bReads _⟩⟩,
    fun s => Fs.eof_of_reachableUnder, fun s l t => Fs.leadsTo_gotNothing_of_hollow⟩
  · have hsound := (BufReader.Sound.withCapacity capacity script).run calls
    have hlen := BufReader.length_run (BufReader.withCapacity capacity (.ofScript script)) calls
    rw [hrun] at hsound hlen
    have hroom : 0 < r.buf.length := by
      rw [hlen, BufReader.withCapacity, List.length_replicate]
      exact hcap
    obtain ⟨earlier, room, hpos, hlog⟩ := BufReader.ended_of_pollFillBuf hsound hroom hnone
    exact ⟨room, hpos, by simp [hlog]⟩
  · obtain ⟨hthere, hback⟩ := Relay.reports_of_run hrun
    exact ⟨fun hsize _ => (hthere hsize).ended, fun hsize _ => (hback hsize).ended⟩

open AsyncIo CopyBidirectional in
theorem eof_only_from_reader_of_one : (∃ room, 0 < room ∧ (room, .ready (.ok [])) ∈
      ((BufReader.withCapacity 1 (.ofScript [.ready (.ok [7])])).run
        [.pollFillBuf, .consume 1]).1.pollFillBuf.1.inner.log) ∧
    (∃ s result, (Relay.withSizes (.ofScripts [.ready (.ok [1]), .ready (.ok []), .pending] [] [])
        (.ofScripts [] [.ready (.ok 1)] [.ready (.ok ())]) 1 1).run 1 = (s, result) ∧
      Ended s.a.reader) ∧
    (∃ s, (Fs.file Fs.five).system.ReachableUnder (fun s l => Fs.hollow s l = false) s ∧
      s.results.length = 2 ∧ ∃ before choice after,
        Fs.perform before (.read 9 9) choice = some (after, .read (.ok [])) ∧
          before.content.length ≤ before.cursor) ∧
    ∃ s t, (Fs.file Fs.five).step s (.call (.read 4 0)) = some t ∧
      (Fs.file Fs.five).system.LeadsTo Fs.Proceeding Fs.GotNothing t := by
  have hall := eof_only_from_reader 1 [.ready (.ok [7])] [.pollFillBuf, .consume 1]
    [.ready (.ok [1]), .ready (.ok []), .pending] [] [] [.ready (.ok 1)] [] [.ready (.ok ())]
    1 1 1 Fs.five
  obtain ⟨hfill, -, hrelay, -, hfile, hhollow⟩ := hall
  refine ⟨hfill _ _ rfl Nat.one_pos rfl, ?_, ?_, ?_⟩
  · exact ⟨_, _, rfl, (hrelay _ _ rfl).1 Nat.one_pos (.ready (.ok ())) (by decide)⟩
  · have hr : (Fs.file Fs.five).system.ReachableUnder (fun s l => Fs.hollow s l = false) _ :=
      ⟨[.call (.read 9 9), .start, .work (.ok 5), .take, .call (.read 9 9), .start,
        .work (.ok 0), .take], rfl, by decide⟩
    obtain ⟨-, hend⟩ := hfile _ hr ⟨1, .read 9 9, .answered 1 (.read 9 9) (.read (.ok []))⟩
      (.tail _ (.head _)) 9 9 1 (.read 9 9) rfl (by decide) rfl
    exact ⟨_, hr, rfl, hend⟩
  · exact ⟨(Fs.file Fs.five).system.init, _, rfl,
      hhollow (Fs.file Fs.five).system.init (.call (.read 4 0)) _ rfl rfl⟩

open AsyncIo CopyBidirectional in
/-- Ends that no reader has reported.  `fill_buf` with no room and a relay with no room meet a chunk
of one byte; a `File` of five bytes is read with the `max_buf_size` `0`, and with any other after a
read into an empty buffer was dropped. -/
theorem exists_phantom_eof : (BufReader.withCapacity 0 (.ofScript [.ready (.ok [1])])).pollFillBuf =
      (⟨⟨[.ready (.ok [1])], [(0, .ready (.ok []))]⟩, [], 0, 0⟩, .ready (.ok [])) ∧
    (∃ s, (Relay.withSizes (.ofScripts [.ready (.ok [1])] [] [])
        (.ofScripts [.pending] [] [.ready (.ok ())]) 0 8).run 1 = (s, .pending) ∧
      s.a.reader.script = [.ready (.ok [1])] ∧ s.b.writer.log = [closed]) ∧
    (∃ s, (Fs.file Fs.five).system.run (Fs.file Fs.five).system.init
        [.call (.read 4 0), .start, .work (.ok 0), .take] = some s ∧
      s.results = [⟨0, .read 4 0, .answered 0 (.read 4 0) (.read (.ok []))⟩] ∧ s.device = Fs.five) ∧
    ∃ s, (Fs.file Fs.five).system.run (Fs.file Fs.five).system.init
        [.call (.read 0 16), .start, .suspend, .drop, .work (.ok 0), .call (.read 4 16), .take] =
          some s ∧ s.results = [⟨1, .read 4 16, .answered 0 (.read 0 16) (.read (.ok []))⟩] ∧
      s.device = Fs.five :=
  ⟨rfl, ⟨_, rfl, rfl, rfl⟩, ⟨_, rfl, rfl, rfl⟩, ⟨_, rfl, rfl, rfl⟩⟩

end RustyTokio

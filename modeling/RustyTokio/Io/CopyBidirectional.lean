import RustyTokio.Io.Buffered
import Mathlib.Data.List.Infix

/-!
# `copy_bidirectional`: two streams relayed to each other from one future

`copy_bidirectional_with_sizes` (`io/async_io.rs`) drives two `TransferState`s from one `poll_fn`.
The two loops of `poll_copy` are one here (`Transition.Loop`), with one call to a stream in a pass:
it reads if the buffer is empty, writes what is in it, and shuts the writer down when both the
reader and the buffer are at the end.  `amt` is a natural number; a `u64` holds `2 ^ 64` bytes.

## Main results

* `Flow.pass`: what a pass keeps, and that a number falls as long as the loop goes on.
* `Flow.poll`: how a call of `poll_copy` ends.
* `Relay.relays_exactly`: what the streams have received when the relay returns.
-/

namespace RustyTokio.CopyBidirectional

open Transition List
open Transition.Script (Source Sink)
open AsyncIo (Error Reader Writer)

/-! ## One direction -/

/-- How a poll fails: an index is out of range, or a stream has failed. -/
inductive Failure where
  | panicked
  | io (e : Error)
  deriving DecidableEq

abbrev Answer (α : Type) := Script.Poll Failure α

/-- The buffer of one direction: what is between `pos` and `cap` is still to be written. -/
structure CopyBuffer where
  readDone : Bool
  pos : ℕ
  cap : ℕ
  amt : ℕ
  buf : List UInt8
  deriving DecidableEq

namespace CopyBuffer

def withCapacity (capacity : ℕ) : CopyBuffer := ⟨false, 0, 0, 0, List.replicate capacity 0⟩

def unsent (b : CopyBuffer) : List UInt8 := (b.buf.take b.cap).drop b.pos

/-- `&self.buf[self.pos..self.cap]`; `none` where the indexing panics. -/
def slice (b : CopyBuffer) : Option (List UInt8) :=
  if b.pos ≤ b.cap ∧ b.cap ≤ b.buf.length then some b.unsent else none

/-- The buffer after a read; no bytes are the end of the stream. -/
def filled (b : CopyBuffer) : List UInt8 → CopyBuffer
  | [] => { b with readDone := true }
  | bytes => { b with pos := 0, cap := bytes.length, buf := bytes ++ b.buf.drop bytes.length }

/-- The buffer after a write of `n` bytes. -/
def advance (b : CopyBuffer) (n : ℕ) : CopyBuffer := { b with pos := b.pos + n, amt := b.amt + n }

end CopyBuffer

/-- A buffer with the reader and the writer of its direction. -/
structure Direction where
  buffer : CopyBuffer
  reader : Reader
  writer : Writer
  deriving DecidableEq

namespace Direction

/-- `poll_read` into the empty buffer. -/
def refill (d : Direction) : Direction × Option (Answer ℕ) :=
  match d.reader.pollRead d.buffer.buf.length with
  | (reader, .pending) => ({ d with reader := reader }, some .pending)
  | (reader, .ready (.error e)) => ({ d with reader := reader }, some (.ready (.error (.io e))))
  | (reader, .ready (.ok bytes)) => (⟨d.buffer.filled bytes, reader, d.writer⟩, none)

/-- `poll_write` of what is in the buffer. -/
def drain (d : Direction) : Direction × Option (Answer ℕ) :=
  match d.buffer.slice with
  | none => (d, some (.ready (.error .panicked)))
  | some bytes =>
    match d.writer.pollWrite bytes with
    | (writer, .pending) => ({ d with writer := writer }, some .pending)
    | (writer, .ready (.error e)) => ({ d with writer := writer }, some (.ready (.error (.io e))))
    | (writer, .ready (.ok 0)) =>
      ({ d with writer := writer },
        some (.ready (.error (.io (.writeZero "write zero byte into writer")))))
    | (writer, .ready (.ok n)) => (⟨d.buffer.advance n, d.reader, writer⟩, none)

/-- `poll_shutdown`, at the end of the stream. -/
def finish (d : Direction) : Direction × Option (Answer ℕ) :=
  match d.writer.pollShutdown with
  | (writer, .pending) => ({ d with writer := writer }, some .pending)
  | (writer, .ready (.error e)) => ({ d with writer := writer }, some (.ready (.error (.io e))))
  | (writer, .ready (.ok ())) => ({ d with writer := writer }, some (.ready (.ok d.buffer.amt)))

/-- One turn of the loops of `poll_copy`.  With `pos` past `cap` they would go round for ever. -/
def pass (d : Direction) : Direction × Option (Answer ℕ) :=
  if d.buffer.pos < d.buffer.cap then d.drain
  else if d.buffer.pos = d.buffer.cap then
    if d.buffer.readDone then d.finish else d.refill
  else (d, none)

/-- The number that falls as long as the loops go on. -/
def left (d : Direction) : ℕ :=
  2 * d.reader.rest.length + d.buffer.unsent.length + if d.buffer.readDone then 0 else 1

/-- `poll_copy`. -/
def poll (d : Direction) : Direction × Answer ℕ := Loop.poll pass left d

end Direction

/-- A direction that is never polled again once it is done. -/
inductive TransferState where
  | running (b : CopyBuffer)
  | done (amt : ℕ)
  deriving DecidableEq

/-- `TransferState::poll`. -/
def TransferState.poll (t : TransferState) (reader : Reader) (writer : Writer) :
    TransferState × Reader × Writer × Answer ℕ :=
  match t with
  | .running b =>
    match Direction.poll ⟨b, reader, writer⟩ with
    | (d, .ready (.ok amt)) => (.done amt, d.reader, d.writer, .ready (.ok amt))
    | (d, other) => (.running d.buffer, d.reader, d.writer, other)
  | .done amt => (.done amt, reader, writer, .ready (.ok amt))

/-! ## The relay -/

/-- A stream: something to read from and something to write to. -/
structure Stream where
  reader : Reader
  writer : Writer
  deriving DecidableEq

def Stream.ofScripts (reads : List (Script.Poll Error (List UInt8)))
    (writes : List (Script.Poll Error ℕ)) (shutdowns : List (Script.Poll Error Unit)) : Stream :=
  ⟨.ofScript reads, .ofScripts writes [] shutdowns⟩

/-- Both streams, and the direction from each of them to the other. -/
structure Relay where
  a : Stream
  b : Stream
  aToB : TransferState
  bToA : TransferState
  deriving DecidableEq

/-- The answer of the combined future: an error of either direction, or both counts. -/
def both : Answer ℕ → Answer ℕ → Answer (ℕ × ℕ)
  | .ready (.error e), _ => .ready (.error e)
  | _, .ready (.error e) => .ready (.error e)
  | .ready (.ok x), .ready (.ok y) => .ready (.ok (x, y))
  | _, _ => .pending

namespace Relay

/-- `copy_bidirectional_with_sizes`, before its first poll. -/
def withSizes (a b : Stream) (aToBSize bToASize : ℕ) : Relay :=
  ⟨a, b, .running (.withCapacity aToBSize), .running (.withCapacity bToASize)⟩

/-- The closure of its `poll_fn`. -/
def poll (s : Relay) : Relay × Answer (ℕ × ℕ) :=
  match s.aToB.poll s.a.reader s.b.writer, s.bToA.poll s.b.reader s.a.writer with
  | (aToB, aReader, bWriter, there), (bToA, bReader, aWriter, back) =>
    (⟨⟨aReader, aWriter⟩, ⟨bReader, bWriter⟩, aToB, bToA⟩, both there back)

/-- So many polls, or fewer if one is ready. -/
def run : ℕ → Relay → Relay × Answer (ℕ × ℕ)
  | 0, s => (s, .pending)
  | polls + 1, s =>
    match s.poll with
    | (s, .pending) => run polls s
    | (s, result) => (s, result)

end Relay

/-- `copy_bidirectional`. -/
def copyBidirectional (a b : Stream) : Relay := Relay.withSizes a b 8192 8192

/-! ## What the streams say -/

/-- What a reader has to say before it ends or fails. -/
def stream (reader : Reader) : List UInt8 := Source.untilEnd reader.sane.script

/-- A `poll_shutdown` that has succeeded. -/
abbrev closed : Script.Event Error UInt8 := .shutdown (.ready (.ok ()))

/-- The writer has received exactly `S` and was then shut down: once, after the last byte, and with
no call since. -/
def Closed (S : List UInt8) (writer : Writer) : Prop :=
  writer.accepted = S ∧ ∃ earlier, writer.log = earlier ++ [closed] ∧ closed ∉ earlier

variable {bytes S A B : List UInt8} {b : CopyBuffer} {d d' : Direction} {reader reader' : Reader}
  {writer : Writer} {size : ℕ} {t : TransferState} {result : Option (Answer ℕ)}

theorem stream_of_ended (hsize : 0 < size)
    (h : reader.pollRead size = (reader', .ready (.ok []))) : stream reader = [] := by
  have hsane := Source.pollRead_sane (by rw [h]; rfl : (reader.pollRead size).2.isFine)
  rw [h] at hsane
  exact Source.untilEnd_of_ended hsize (congrArg Prod.snd hsane)

theorem stream_of_pollRead {answer : Script.Poll Error (List UInt8)}
    (h : reader.pollRead size = (reader', answer)) (hfine : answer.isFine)
    (hmore : answer ≠ .ready (.ok [])) : stream reader = answer.bytes ++ stream reader' := by
  have hsane := Source.pollRead_sane (by rw [h]; exact hfine : (reader.pollRead size).2.isFine)
  rw [h] at hsane
  have happend := Source.untilEnd_eq_append
    (by rw [hsane]; exact hmore : (reader.sane.pollRead size).2 ≠ .ready (.ok []))
  rw [hsane] at happend
  exact happend

/-! ## One pass -/

/-- What a direction has relayed, what is in its buffer and what the reader has still to say are the
stream, and the writer is not shut down. -/
structure Flow (S : List UInt8) (d : Direction) : Prop where
  room : 0 < d.buffer.buf.length
  pos_le : d.buffer.pos ≤ d.buffer.cap
  cap_le : d.buffer.cap ≤ d.buffer.buf.length
  relayed : d.writer.accepted ++
    (d.buffer.unsent ++ if d.buffer.readDone then [] else stream d.reader) = S
  counted : d.buffer.amt = d.writer.accepted.length
  unclosed : closed ∉ d.writer.log

/-- How a call of `poll_copy` ends. -/
inductive Copied (S : List UInt8) (d : Direction) : Answer ℕ → Prop where
  | pending (h : Flow S d) : Copied S d .pending
  | failed (e : Error) (h : d.writer.accepted <+: S) : Copied S d (.ready (.error (.io e)))
  | finished (h : Closed S d.writer) : Copied S d (.ready (.ok S.length))

/-- How a pass ends: the loops go on, or the call is over. -/
inductive Passed (S : List UInt8) (d d' : Direction) : Option (Answer ℕ) → Prop where
  | on (h : Flow S d') (hless : d'.left < d.left) : Passed S d d' none
  | ends {answer} (h : Copied S d' answer) : Passed S d d' (some answer)

theorem Flow.accepted_prefix (h : Flow S d) : d.writer.accepted <+: S := ⟨_, h.relayed⟩

namespace CopyBuffer

theorem unsent_eq_nil (h : b.pos = b.cap) : b.unsent = [] := by
  rw [unsent, h]
  exact drop_eq_nil_of_le (length_take_le _ _)

theorem length_unsent (h : b.cap ≤ b.buf.length) : b.unsent.length = b.cap - b.pos := by
  rw [unsent, length_drop, length_take, min_eq_left h]

theorem unsent_advance (b : CopyBuffer) (n : ℕ) : (b.advance n).unsent = b.unsent.drop n :=
  (drop_drop ..).symm

theorem unsent_filled (h : bytes ≠ []) : (b.filled bytes).unsent = bytes := by
  obtain ⟨x, bytes, rfl⟩ := exists_cons_of_ne_nil h
  exact take_left

end CopyBuffer

theorem Flow.withReader (h : Flow S d)
    (hsame : d.buffer.readDone = false → stream reader = stream d.reader) :
    Flow S { d with reader := reader } := by
  refine ⟨h.room, h.pos_le, h.cap_le, ?_, h.counted, h.unclosed⟩
  have hrelayed := h.relayed
  cases hdone : d.buffer.readDone with
  | true =>
    rw [hdone] at hrelayed
    exact hrelayed
  | false =>
    rw [hdone, ← hsame hdone] at hrelayed
    exact hrelayed

theorem Flow.withWriter (h : Flow S d) (haccepted : writer.accepted = d.writer.accepted)
    (hunclosed : closed ∉ writer.log) : Flow S { d with writer := writer } :=
  ⟨h.room, h.pos_le, h.cap_le, haccepted ▸ h.relayed, haccepted ▸ h.counted, hunclosed⟩

theorem Flow.filled (h : Flow S d) (hempty : d.buffer.pos = d.buffer.cap)
    (hmore : d.buffer.readDone = false)
    (hread : d.reader.pollRead d.buffer.buf.length = (reader, .ready (.ok bytes))) :
    Passed S d ⟨d.buffer.filled bytes, reader, d.writer⟩ none := by
  obtain ⟨-, hrest, hfit⟩ := Source.of_pollRead hread
  have hlen := congrArg length hrest
  have hrelayed := h.relayed
  rw [length_append, Script.Poll.bytes_ok] at hlen
  rw [CopyBuffer.unsent_eq_nil hempty, hmore, nil_append, if_neg Bool.false_ne_true] at hrelayed
  obtain rfl | hne := eq_or_ne bytes []
  · have hnil : (d.buffer.filled []).unsent = [] := CopyBuffer.unsent_eq_nil hempty
    refine .on ⟨h.room, h.pos_le, h.cap_le, ?_, h.counted, h.unclosed⟩ ?_
    · rw [stream_of_ended h.room hread] at hrelayed
      rw [hnil]
      exact hrelayed
    · simp only [Direction.left, hnil, CopyBuffer.unsent_eq_nil hempty, hmore]
      simp only [CopyBuffer.filled, if_true, Bool.false_eq_true, if_false, length_nil] at hlen ⊢
      omega
  · have hunsent : (d.buffer.filled bytes).unsent = bytes := CopyBuffer.unsent_filled hne
    have hpos := length_pos_iff.mpr hne
    have hfilled : d.buffer.filled bytes = { d.buffer with
        pos := 0, cap := bytes.length, buf := bytes ++ d.buffer.buf.drop bytes.length } := by
      obtain ⟨x, bytes, rfl⟩ := exists_cons_of_ne_nil hne
      rfl
    refine .on ⟨?_, ?_, ?_, ?_, ?_, h.unclosed⟩ ?_
    · simp only [hfilled, length_append]
      omega
    · simp only [hfilled, Nat.zero_le]
    · simp only [hfilled, length_append, Nat.le_add_right]
    · rw [stream_of_pollRead hread rfl (by simpa using hne)] at hrelayed
      simp only [hunsent]
      simp only [hfilled, hmore, Bool.false_eq_true, if_false]
      exact hrelayed
    · rw [hfilled]
      exact h.counted
    · simp only [Direction.left, hunsent, CopyBuffer.unsent_eq_nil hempty, hmore]
      simp only [hfilled, hmore, length_nil]
      omega

theorem Flow.refill (h : Flow S d) (hempty : d.buffer.pos = d.buffer.cap)
    (hmore : d.buffer.readDone = false) (hpass : d.refill = (d', result)) :
    Passed S d d' result := by
  rw [Direction.refill] at hpass
  rcases hread : d.reader.pollRead d.buffer.buf.length with ⟨reader, _ | e | bytes⟩ <;>
    rw [hread] at hpass <;> cases hpass
  · exact .ends (.pending (h.withReader fun _ => (stream_of_pollRead hread rfl nofun).symm))
  · exact .ends (.failed e h.accepted_prefix)
  · exact h.filled hempty hmore hread

theorem Flow.advance (h : Flow S d) {n : ℕ} (hpos : 0 < n) (hn : n ≤ d.buffer.unsent.length)
    (haccepted : writer.accepted = d.writer.accepted ++ d.buffer.unsent.take n)
    (hunclosed : closed ∉ writer.log) : Passed S d ⟨d.buffer.advance n, d.reader, writer⟩ none := by
  have hlen := CopyBuffer.length_unsent h.cap_le
  have hle := h.pos_le
  refine .on ⟨h.room, ?_, h.cap_le, ?_, ?_, hunclosed⟩ ?_
  · change d.buffer.pos + n ≤ d.buffer.cap
    omega
  · rw [CopyBuffer.unsent_advance, haccepted, append_assoc, ← append_assoc (take n _),
      take_append_drop]
    exact h.relayed
  · rw [haccepted, length_append, length_take, min_eq_left hn, ← h.counted]
    rfl
  · simp only [Direction.left, CopyBuffer.unsent_advance, length_drop]
    change _ + _ + (if d.buffer.readDone then 0 else 1) < _
    omega

theorem unclosed_of_pollWrite {n : Script.Poll Error ℕ} (h : closed ∉ d.writer.log)
    (hwrite : d.writer.pollWrite bytes = (writer, n)) : closed ∉ writer.log := by
  obtain ⟨rfl, -⟩ := Prod.ext_iff.mp hwrite
  rw [Sink.pollWrite]
  split <;> simpa using h

theorem Flow.drain (h : Flow S d) (hpass : d.drain = (d', result)) : Passed S d d' result := by
  have hslice : d.buffer.slice = some d.buffer.unsent := if_pos ⟨h.pos_le, h.cap_le⟩
  simp only [Direction.drain, hslice] at hpass
  rcases hwrite : d.writer.pollWrite d.buffer.unsent with ⟨writer, answer⟩
  obtain ⟨haccepted, hn⟩ := Sink.accepted_of_pollWrite hwrite
  have hunclosed := unclosed_of_pollWrite h.unclosed hwrite
  rw [hwrite] at hpass
  -- a write that takes nothing leaves what was accepted
  have hsame : answer.count = 0 → writer.accepted = d.writer.accepted := by
    intro hzero
    rw [haccepted, hzero, take_zero, append_nil]
  rcases answer with _ | e | _ | n <;> cases hpass
  · exact .ends (.pending (h.withWriter (hsame rfl) hunclosed))
  · exact .ends (.failed e (hsame rfl ▸ h.accepted_prefix))
  · exact .ends (.failed _ (hsame rfl ▸ h.accepted_prefix))
  · exact h.advance (Nat.succ_pos n) hn haccepted hunclosed

theorem Flow.finish (h : Flow S d) (hempty : d.buffer.pos = d.buffer.cap)
    (hdone : d.buffer.readDone) (hpass : d.finish = (d', result)) : Passed S d d' result := by
  have hall : d.writer.accepted = S := by
    have hrelayed := h.relayed
    rwa [CopyBuffer.unsent_eq_nil hempty, if_pos hdone, append_nil, append_nil] at hrelayed
  rw [Direction.finish] at hpass
  rcases hshut : d.writer.pollShutdown with ⟨writer, answer⟩
  have haccepted : writer.accepted = d.writer.accepted := by
    rw [← d.writer.accepted_pollShutdown, hshut]
  have hlog : writer.log = d.writer.log ++ [.shutdown answer] := by
    obtain ⟨rfl, rfl⟩ := Prod.ext_iff.mp hshut
    rfl
  rw [hshut] at hpass
  rcases answer with _ | e | _ <;> cases hpass
  · refine .ends (.pending (h.withWriter haccepted ?_))
    rw [hlog]
    simpa using h.unclosed
  · exact .ends (.failed e (haccepted ▸ h.accepted_prefix))
  · have hcount : d.buffer.amt = S.length := by rw [h.counted, hall]
    rw [hcount]
    exact .ends (.finished ⟨haccepted.trans hall, _, hlog, h.unclosed⟩)

theorem Flow.pass (h : Flow S d) (hpass : d.pass = (d', result)) : Passed S d d' result := by
  rw [Direction.pass] at hpass
  split at hpass
  · exact h.drain hpass
  next hge =>
    have hempty : d.buffer.pos = d.buffer.cap := le_antisymm h.pos_le (Nat.le_of_not_lt hge)
    rw [if_pos hempty] at hpass
    split at hpass
    next hdone => exact h.finish hempty hdone hpass
    next hmore => exact h.refill hempty (Bool.eq_false_iff.mpr hmore) hpass

/-! ## A whole call of `poll_copy` -/

theorem falls (S : List UInt8) : Loop.Falls Direction.pass Direction.left (Flow S) := by
  intro d d' h hpass
  cases h.pass hpass with
  | on h' hless => exact ⟨h', hless⟩

theorem Flow.poll (h : Flow S d) : Copied S d.poll.1 d.poll.2 := by
  refine Loop.poll_spec (falls S) (fun d d' answer h hpass => ?_) h
  cases h.pass hpass with
  | ends hcopied => exact hcopied

/-- The loops of `poll_copy` end by themselves: beyond a number of passes, more change nothing. -/
def Direction.Ends (d : Direction) : Prop :=
  ∃ n, ∀ m, n ≤ m → Loop.passes Direction.pass m d = d.poll

theorem Flow.ends (h : Flow S d) : d.Ends :=
  ⟨_, fun _ hm => Loop.passes_of_le (falls S) h (Nat.lt_succ_self _) hm⟩

/-- A direction of the relay between two polls. -/
inductive Carries (S : List UInt8) (reader : Reader) (writer : Writer) : TransferState → Prop where
  | running {b : CopyBuffer} (h : Flow S ⟨b, reader, writer⟩) : Carries S reader writer (.running b)
  | done (h : Closed S writer) : Carries S reader writer (.done S.length)

/-- What a poll of a direction has answered. -/
inductive Polled (S : List UInt8) (reader : Reader) (writer : Writer) (t : TransferState) :
    Answer ℕ → Prop where
  | pending (h : Carries S reader writer t) : Polled S reader writer t .pending
  | failed (e : Error) (h : writer.accepted <+: S) :
      Polled S reader writer t (.ready (.error (.io e)))
  | finished (ht : t = .done S.length) (h : Closed S writer) :
      Polled S reader writer t (.ready (.ok S.length))

theorem Carries.ends (h : Carries S reader writer t) (b : CopyBuffer) (ht : t = .running b) :
    Direction.Ends ⟨b, reader, writer⟩ := by
  cases h with
  | running hflow =>
    cases ht
    exact hflow.ends
  | done => cases ht

theorem TransferState.poll_spec (h : Carries S reader writer t) :
    ∃ t' reader' writer' answer, t.poll reader writer = (t', reader', writer', answer) ∧
      Polled S reader' writer' t' answer := by
  cases h with
  | @running b hflow =>
    have hout := hflow.poll
    rw [poll]
    rcases hpoll : Direction.poll ⟨b, reader, writer⟩ with ⟨d, answer⟩
    rw [hpoll] at hout
    cases hout with
    | pending hflow => exact ⟨_, _, _, _, rfl, .pending (.running hflow)⟩
    | failed e hpre => exact ⟨_, _, _, _, rfl, .failed e hpre⟩
    | finished hclosed => exact ⟨_, _, _, _, rfl, .finished rfl hclosed⟩
  | done hclosed => exact ⟨_, _, _, _, rfl, .finished rfl hclosed⟩

theorem Polled.accepted_prefix {answer : Answer ℕ} (h : Polled S reader writer t answer) :
    writer.accepted <+: S := by
  cases h with
  | pending hcarries =>
    cases hcarries with
    | running hflow => exact hflow.accepted_prefix
    | done hclosed => rw [hclosed.1]
  | failed e hpre => exact hpre
  | finished ht hclosed => rw [hclosed.1]

/-! ## Any number of polls -/

namespace Relay

variable {s : Relay}

/-- A relay between two polls. -/
def Carrying (A B : List UInt8) (s : Relay) : Prop :=
  Carries A s.a.reader s.b.writer s.aToB ∧ Carries B s.b.reader s.a.writer s.bToA

/-- What the relay has answered. -/
inductive Relayed (A B : List UInt8) (s : Relay) : Answer (ℕ × ℕ) → Prop where
  | pending (h : s.Carrying A B) : Relayed A B s .pending
  | failed (e : Error) (hab : s.b.writer.accepted <+: A) (hba : s.a.writer.accepted <+: B) :
      Relayed A B s (.ready (.error (.io e)))
  | finished (hab : Closed A s.b.writer) (hba : Closed B s.a.writer) :
      Relayed A B s (.ready (.ok (A.length, B.length)))

theorem Carrying.poll (h : s.Carrying A B) : s.poll.1.Relayed A B s.poll.2 := by
  obtain ⟨t, ra, wb, there, hthere, hab⟩ := TransferState.poll_spec h.1
  obtain ⟨u, rb, wa, back, hback, hba⟩ := TransferState.poll_spec h.2
  have hpreAB := hab.accepted_prefix
  have hpreBA := hba.accepted_prefix
  rw [Relay.poll, hthere, hback]
  -- an error of either direction wins, then a direction that is not ready
  rcases hab with hab | ⟨e, -⟩ | ⟨rfl, hab⟩
  · rcases hba with hba | ⟨e, -⟩ | ⟨rfl, hba⟩
    · exact .pending ⟨hab, hba⟩
    · exact .failed e hpreAB hpreBA
    · exact .pending ⟨hab, .done hba⟩
  · exact .failed e hpreAB hpreBA
  · rcases hba with hba | ⟨e, -⟩ | ⟨rfl, hba⟩
    · exact .pending ⟨.done hab, hba⟩
    · exact .failed e hpreAB hpreBA
    · exact .finished hab hba

theorem Carrying.run (polls : ℕ) (h : s.Carrying A B) :
    (s.run polls).1.Relayed A B (s.run polls).2 := by
  induction polls generalizing s with
  | zero => exact .pending h
  | succ polls ih =>
    have hout := h.poll
    rw [Relay.run]
    rcases hpoll : s.poll with ⟨s', answer⟩
    rw [hpoll] at hout
    cases hout with
    | pending h' => exact ih h'
    | failed e hab hba => exact .failed e hab hba
    | finished hab hba => exact .finished hab hba

theorem carries_withCapacity {script : List (Script.Poll Error (List UInt8))}
    (haccepted : writer.log = []) (hsize : 0 < size) :
    Carries (stream (.ofScript script)) (.ofScript script) writer
      (.running (.withCapacity size)) := by
  have hnone : writer.accepted = [] := by rw [Sink.accepted, haccepted, flatMap_nil]
  refine .running ⟨?_, le_rfl, Nat.zero_le _, ?_, ?_, ?_⟩
  · simpa [CopyBuffer.withCapacity] using hsize
  · rw [hnone]
    rfl
  · rw [hnone]
    rfl
  · rw [haccepted]
    exact not_mem_nil

/-- The loops of the next poll end. -/
def Ends (s : Relay) : Prop :=
  (∀ b, s.aToB = .running b → Direction.Ends ⟨b, s.a.reader, s.b.writer⟩) ∧
    ∀ b, s.bToA = .running b → Direction.Ends ⟨b, s.b.reader, s.a.writer⟩

/-- **The relay is exact.**  Whatever the scripts, no poll panics, and as long as the relay is not
ready the loops of the next poll end.  After `Ok((x, y))`, `b` has received exactly what `a` said
before its end, `x` bytes, and was then shut down once; and so for `a`, with `y`.  After an error,
each has received a front part of what the other had to say. -/
theorem relays_exactly (aReads bReads : List (Script.Poll Error (List UInt8)))
    (aWrites bWrites : List (Script.Poll Error ℕ))
    (aShutdowns bShutdowns : List (Script.Poll Error Unit)) {aToBSize bToASize : ℕ}
    (hab : 0 < aToBSize) (hba : 0 < bToASize) (polls : ℕ) : ∃ s result,
      (withSizes (.ofScripts aReads aWrites aShutdowns) (.ofScripts bReads bWrites bShutdowns)
        aToBSize bToASize).run polls = (s, result) ∧ result ≠ .ready (.error .panicked) ∧
      (result = .pending → s.Ends) ∧ (∀ x y, result = .ready (.ok (x, y)) →
        (Closed (stream (.ofScript aReads)) s.b.writer ∧ x = (stream (.ofScript aReads)).length) ∧
        Closed (stream (.ofScript bReads)) s.a.writer ∧ y = (stream (.ofScript bReads)).length) ∧
      ∀ e, result = .ready (.error e) → s.b.writer.accepted <+: stream (.ofScript aReads) ∧
        s.a.writer.accepted <+: stream (.ofScript bReads) := by
  have hout := Carrying.run polls
    (s := withSizes (.ofScripts aReads aWrites aShutdowns) (.ofScripts bReads bWrites bShutdowns)
      aToBSize bToASize) ⟨carries_withCapacity rfl hab, carries_withCapacity rfl hba⟩
  rcases hrun : (withSizes (.ofScripts aReads aWrites aShutdowns)
    (.ofScripts bReads bWrites bShutdowns) aToBSize bToASize).run polls with ⟨s, result⟩
  rw [hrun] at hout
  refine ⟨s, result, rfl, ?_⟩
  cases hout with
  | pending h =>
    exact ⟨nofun, fun _ => ⟨h.1.ends, h.2.ends⟩, nofun, nofun⟩
  | failed e hab hba => exact ⟨nofun, nofun, nofun, fun _ _ => ⟨hab, hba⟩⟩
  | finished hab hba =>
    refine ⟨nofun, nofun, fun x y hok => ?_, nofun⟩
    cases hok
    exact ⟨⟨hab, rfl⟩, hba, rfl⟩

theorem relays_exactly_of_three : ∃ s, (withSizes
      (.ofScripts [.ready (.ok [1, 2, 3]), .pending] [.pending] [])
      (.ofScripts [.ready (.ok [7])] [.ready (.ok 1), .pending, .ready (.ok 1)] [.pending])
      2 4).run 6 = (s, .ready (.ok (3, 1))) ∧
    Closed [1, 2, 3] s.b.writer ∧ Closed [7] s.a.writer := by
  obtain ⟨s, result, hrun, -, -, hok, -⟩ :=
    relays_exactly [.ready (.ok [1, 2, 3]), .pending] [.ready (.ok [7])] [.pending]
      [.ready (.ok 1), .pending, .ready (.ok 1)] [] [.pending] (by decide : 0 < 2)
      (by decide : 0 < 4) 6
  have hresult : result = .ready (.ok (3, 1)) := by
    rw [← show _ = result from congrArg Prod.snd hrun]
    decide
  cases hresult
  obtain ⟨⟨hab, -⟩, hba, -⟩ := hok 3 1 rfl
  exact ⟨s, hrun, hab, hba⟩

end Relay

end RustyTokio.CopyBidirectional

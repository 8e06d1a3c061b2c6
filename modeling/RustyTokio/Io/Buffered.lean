import RustyTokio.Transition.Loop

/-!
# `BufReader` and `BufWriter`

The buffered adapters of `io/buffered.rs`, over any reader and any writer (`Transition.Script`).  A
`BufReader` reads into its own buffer when that is used up, and past it when the caller has at least
as much room and nothing is buffered.
-/

namespace RustyTokio.AsyncIo

open Transition List
open Transition.Script (Source Sink)

inductive Error where
  | other (code : ℕ)
  | writeZero (message : String)
  | invalidData (message : String)
  deriving DecidableEq

abbrev Poll (α : Type) := Transition.Script.Poll Error α

abbrev Reader := Source Error UInt8

abbrev Writer := Sink Error UInt8

/-! ## `BufReader` -/

structure BufReader where
  inner : Reader
  buf : List UInt8
  pos : ℕ
  cap : ℕ
  deriving DecidableEq

namespace BufReader

def withCapacity (capacity : ℕ) (inner : Reader) : BufReader :=
  ⟨inner, List.replicate capacity 0, 0, 0⟩

def unread (r : BufReader) : List UInt8 := (r.buf.take r.cap).drop r.pos

def filled (r : BufReader) (bytes : List UInt8) : BufReader :=
  { r with buf := bytes ++ r.buf.drop bytes.length, cap := bytes.length, pos := 0 }

def pollFillBuf (r : BufReader) : BufReader × Poll (List UInt8) :=
  if r.cap ≤ r.pos then
    match r.inner.pollRead r.buf.length with
    | (inner, .ready (.ok bytes)) =>
      ({ r.filled bytes with inner := inner }, .ready (.ok (r.filled bytes).unread))
    | (inner, .ready (.error e)) => ({ r with inner := inner }, .ready (.error e))
    | (inner, .pending) => ({ r with inner := inner }, .pending)
  else (r, .ready (.ok r.unread))

def consume (r : BufReader) (amt : ℕ) : BufReader := { r with pos := min (r.pos + amt) r.cap }

def pollRead (r : BufReader) (room : ℕ) : BufReader × Poll (List UInt8) :=
  if r.pos = r.cap ∧ r.buf.length ≤ room then
    ({ r with inner := (r.inner.pollRead room).1, pos := 0, cap := 0 }, (r.inner.pollRead room).2)
  else
    match r.pollFillBuf with
    | (r, .ready (.ok available)) =>
      (r.consume (min available.length room),
        .ready (.ok (available.take (min available.length room))))
    | (r, .ready (.error e)) => (r, .ready (.error e))
    | (r, .pending) => (r, .pending)

inductive Call where
  | pollRead (room : ℕ)
  | pollFillBuf
  | consume (amt : ℕ)
  deriving DecidableEq

def call (r : BufReader) : Call → BufReader × List UInt8
  | .pollRead room => ((r.pollRead room).1, (r.pollRead room).2.bytes)
  | .pollFillBuf => (r.pollFillBuf.1, [])
  | .consume amt => (r.consume amt, r.unread.take amt)

def taken (r : BufReader) : List UInt8 :=
  r.inner.produced.take (r.inner.produced.length - r.unread.length)

def run (r : BufReader) : List Call → BufReader × List UInt8
  | [] => (r, [])
  | c :: calls => (((r.call c).1.run calls).1, (r.call c).2 ++ ((r.call c).1.run calls).2)

/-- `pos` and `cap` are within the buffer. -/
structure InOrder (r : BufReader) : Prop where
  pos_le : r.pos ≤ r.cap
  cap_le : r.cap ≤ r.buf.length

/-- What the inner reader produced was delivered, or is unread. -/
structure Sound (delivered : List UInt8) (r : BufReader) : Prop extends InOrder r where
  produced : delivered ++ r.unread = r.inner.produced

variable {r : BufReader} {delivered : List UInt8} {r' : BufReader} {answer : Poll (List UInt8)}

theorem unread_of_cap_le (h : r.cap ≤ r.pos) : r.unread = [] := by
  rw [unread, drop_eq_nil_of_le]
  exact Nat.le_trans (length_take_le _ _) h

theorem unread_length (h : r.cap ≤ r.buf.length) : r.unread.length = r.cap - r.pos := by
  rw [unread, length_drop, length_take, Nat.min_eq_left h]

@[simp] theorem unread_filled (r : BufReader) (bytes : List UInt8) :
    (r.filled bytes).unread = bytes :=
  take_left

theorem filled_length {bytes : List UInt8} (h : bytes.length ≤ r.buf.length) :
    (r.filled bytes).buf.length = r.buf.length := by
  rw [filled, length_append, length_drop]
  omega

theorem unread_consume (h : r.cap ≤ r.buf.length) (amt : ℕ) :
    (r.consume amt).unread = r.unread.drop amt := by
  change (r.buf.take r.cap).drop (min (r.pos + amt) r.cap) = r.unread.drop amt
  rw [unread, drop_drop]
  rcases Nat.le_total (r.pos + amt) r.cap with hle | hle
  · rw [Nat.min_eq_left hle]
  · have hlen : (r.buf.take r.cap).length = r.cap := by rw [length_take, Nat.min_eq_left h]
    rw [Nat.min_eq_right hle, drop_eq_nil_of_le (Nat.le_of_eq hlen),
      drop_eq_nil_of_le (Nat.le_trans (Nat.le_of_eq hlen) hle)]

theorem Sound.taken_eq (h : r.Sound delivered) : r.taken = delivered := by
  rw [taken, ← h.produced, length_append, Nat.add_sub_cancel]
  exact take_left

theorem InOrder.consume (h : r.InOrder) (amt : ℕ) : (r.consume amt).InOrder :=
  ⟨Nat.min_le_right _ _, h.cap_le⟩

theorem Sound.consume (h : r.Sound delivered) (amt : ℕ) :
    (r.consume amt).Sound (delivered ++ r.unread.take amt) := by
  refine ⟨h.toInOrder.consume amt, ?_⟩
  rw [unread_consume h.cap_le, append_assoc, take_append_drop]
  exact h.produced

inductive FillsBuf (r : BufReader) : BufReader → Poll (List UInt8) → Prop where
  | buffered (h : r.pos < r.cap) : FillsBuf r r (.ready (.ok r.unread))
  | filled {inner bytes} (h : r.cap ≤ r.pos)
      (hread : r.inner.pollRead r.buf.length = (inner, .ready (.ok bytes))) :
      FillsBuf r { r.filled bytes with inner := inner } (.ready (.ok bytes))
  | stopped {inner answer} (h : r.cap ≤ r.pos)
      (hread : r.inner.pollRead r.buf.length = (inner, answer)) (hbytes : answer.bytes = [])
      (hstop : ∀ bytes, answer ≠ .ready (.ok bytes)) :
      FillsBuf r { r with inner := inner } answer

theorem fillsBuf_of_pollFillBuf (h : r.pollFillBuf = (r', answer)) : FillsBuf r r' answer := by
  rw [pollFillBuf] at h
  by_cases hempty : r.cap ≤ r.pos
  · rw [if_pos hempty] at h
    rcases hread : r.inner.pollRead r.buf.length with ⟨inner, _ | e | bytes⟩ <;>
      rw [hread] at h <;> cases h
    · exact .stopped hempty hread rfl nofun
    · exact .stopped hempty hread rfl (by simp)
    · rw [unread_filled]
      exact .filled hempty hread
  · rw [if_neg hempty] at h
    cases h
    exact .buffered (Nat.not_le.mp hempty)

theorem length_of_pollFillBuf (h : r.pollFillBuf = (r', answer)) :
    r'.buf.length = r.buf.length := by
  cases fillsBuf_of_pollFillBuf h with
  | buffered _ | stopped _ _ _ _ => rfl
  | filled _ hread => exact filled_length (Source.of_pollRead hread).2.2

theorem InOrder.of_pollFillBuf (h : r.InOrder) (hfill : r.pollFillBuf = (r', answer)) :
    r'.InOrder := by
  have hlen := length_of_pollFillBuf hfill
  cases fillsBuf_of_pollFillBuf hfill with
  | buffered _ => exact h
  | stopped _ _ _ _ => exact ⟨h.pos_le, h.cap_le⟩
  | filled _ hread =>
    exact ⟨Nat.zero_le _, Nat.le_trans (Source.of_pollRead hread).2.2 (Nat.le_of_eq hlen.symm)⟩

theorem Sound.of_pollFillBuf (h : r.Sound delivered) (hfill : r.pollFillBuf = (r', answer)) :
    r'.Sound delivered := by
  refine ⟨h.toInOrder.of_pollFillBuf hfill, ?_⟩
  cases fillsBuf_of_pollFillBuf hfill with
  | buffered _ => exact h.produced
  | stopped _ hread hbytes _ =>
    rw [(Source.of_pollRead hread).1, hbytes, append_nil]
    exact h.produced
  | @filled inner bytes hempty hread =>
    change delivered ++ (r.filled bytes).unread = inner.produced
    rw [unread_filled, (Source.of_pollRead hread).1, ← h.produced, unread_of_cap_le hempty,
      append_nil]
    rfl

theorem unread_of_pollFillBuf {available : List UInt8}
    (h : r.pollFillBuf = (r', .ready (.ok available))) : r'.unread = available := by
  cases fillsBuf_of_pollFillBuf h with
  | buffered _ => rfl
  | filled _ _ => exact unread_filled r available
  | stopped _ _ _ hstop => exact absurd rfl (hstop _)

theorem pollFillBuf_of_unread (h : r.unread ≠ []) : r.pollFillBuf = (r, .ready (.ok r.unread)) := by
  rw [pollFillBuf, if_neg fun hempty => h (unread_of_cap_le hempty)]

theorem Sound.pollRead (h : r.Sound delivered) (room : ℕ) :
    (r.pollRead room).1.Sound (delivered ++ (r.pollRead room).2.bytes) := by
  by_cases hpast : r.pos = r.cap ∧ r.buf.length ≤ room
  · -- past the buffer, which holds nothing
    rw [BufReader.pollRead, if_pos hpast]
    refine ⟨⟨Nat.le_refl _, Nat.zero_le _⟩, ?_⟩
    have hgiven : delivered = r.inner.produced := by
      rw [← h.produced, unread_of_cap_le (Nat.le_of_eq hpast.1.symm), append_nil]
    rw [unread_of_cap_le (Nat.le_refl _), append_nil, hgiven, Source.produced_pollRead]
  · rw [BufReader.pollRead, if_neg hpast]
    rcases hfill : r.pollFillBuf with ⟨r', _ | _ | available⟩
    · exact (append_nil delivered).symm ▸ h.of_pollFillBuf hfill
    · exact (append_nil delivered).symm ▸ h.of_pollFillBuf hfill
    · rw [← unread_of_pollFillBuf hfill]
      exact (h.of_pollFillBuf hfill).consume _

theorem Sound.call (h : r.Sound delivered) (c : Call) :
    (r.call c).1.Sound (delivered ++ (r.call c).2) := by
  cases c with
  | pollRead room => exact h.pollRead room
  | pollFillBuf => exact (append_nil delivered).symm ▸ h.of_pollFillBuf rfl
  | consume amt => exact h.consume amt

theorem Sound.run (h : r.Sound delivered) (calls : List Call) :
    (r.run calls).1.Sound (delivered ++ (r.run calls).2) := by
  induction calls generalizing r delivered with
  | nil => exact (append_nil delivered).symm ▸ h
  | cons c calls ih =>
    rw [BufReader.run, ← append_assoc]
    exact ih (h.call c)

theorem Sound.withCapacity (capacity : ℕ) (script : List (Poll (List UInt8))) :
    (withCapacity capacity (.ofScript script)).Sound [] :=
  ⟨⟨Nat.le_refl _, Nat.zero_le _⟩, rfl⟩

/-! ### The length of the buffer -/

theorem length_call (r : BufReader) (c : Call) : (r.call c).1.buf.length = r.buf.length := by
  cases c with
  | pollRead room =>
    change (r.pollRead room).1.buf.length = _
    rw [pollRead]
    split
    · rfl
    · rcases hfill : r.pollFillBuf with ⟨r', _ | _ | available⟩ <;>
      · have hlen := length_of_pollFillBuf hfill
        exact hlen
  | pollFillBuf => exact length_of_pollFillBuf rfl
  | consume amt => rfl

theorem length_run (r : BufReader) (calls : List Call) :
    (r.run calls).1.buf.length = r.buf.length := by
  induction calls generalizing r with
  | nil => rfl
  | cons c calls ih => exact (ih _).trans (r.length_call c)

/-- **A `BufReader` is transparent.**  For every capacity and script and every mix of calls, the
bytes delivered and then `buf[pos..cap]` are the bytes that the inner reader produced, and the
indices are in order. -/
theorem bufReader_transparent (capacity : ℕ) (script : List (Poll (List UInt8)))
    (calls : List Call) (r : BufReader) (delivered : List UInt8)
    (h : (withCapacity capacity (.ofScript script)).run calls = (r, delivered)) :
    delivered ++ r.unread = r.inner.produced ∧ r.pos ≤ r.cap ∧ r.cap ≤ r.buf.length := by
  have hrun := (Sound.withCapacity capacity script).run calls
  rw [h] at hrun
  exact ⟨hrun.produced, hrun.pos_le, hrun.cap_le⟩

theorem bufReader_transparent_of_mixed : ∃ r, (withCapacity 2
      (.ofScript [.ready (.ok [1, 2, 3]), .pending, .ready (.ok [4, 5, 6, 7])])).run
        [.pollRead 2, .pollRead 1, .pollRead 1, .pollFillBuf, .consume 1, .pollRead 4] =
      (r, [1, 2, 3, 4, 5]) ∧ [1, 2, 3, 4, 5] ++ r.unread = r.inner.produced := by
  refine Exists.imp (fun r hr => ⟨hr, ?_⟩) ⟨_, rfl⟩
  exact (bufReader_transparent 2 _ _ r _ hr).1

/-! ### Over a stream in chunks -/

def rest (r : BufReader) : List UInt8 := r.unread ++ r.inner.rest

/-- The buffer has room, and no read of the script is empty. -/
structure Fed (r : BufReader) : Prop extends InOrder r where
  room : 0 < r.buf.length
  chunked : r.inner.Chunked

theorem Fed.withCapacity {capacity : ℕ} (hcapacity : 0 < capacity)
    {script : List (Poll (List UInt8))} (h : (Source.ofScript script).Chunked) :
    (withCapacity capacity (.ofScript script)).Fed := by
  refine ⟨⟨Nat.le_refl _, Nat.zero_le _⟩, ?_, h⟩
  rwa [BufReader.withCapacity, length_replicate]

theorem Fed.consume (h : r.Fed) (amt : ℕ) : (r.consume amt).Fed :=
  ⟨h.toInOrder.consume amt, h.room, h.chunked⟩

theorem rest_consume (h : r.InOrder) (amt : ℕ) :
    r.rest = r.unread.take amt ++ (r.consume amt).rest := by
  rw [rest, rest, unread_consume h.cap_le, ← append_assoc, take_append_drop]
  rfl

theorem rest_of_pollFillBuf (h : r.pollFillBuf = (r', answer)) : r'.rest = r.rest := by
  cases fillsBuf_of_pollFillBuf h with
  | buffered _ => rfl
  | stopped _ hread hbytes _ =>
    have hrest := (Source.of_pollRead hread).2.1
    rw [hbytes, nil_append] at hrest
    exact congrArg (r.unread ++ ·) hrest.symm
  | @filled inner bytes hempty hread =>
    change (r.filled bytes).unread ++ inner.rest = r.unread ++ r.inner.rest
    rw [unread_filled, unread_of_cap_le hempty]
    exact (Source.of_pollRead hread).2.1.symm

inductive Fills (r r' : BufReader) : Poll (List UInt8) → Prop where
  | pending (h : r'.Fed) (hless : r'.inner.script.length < r.inner.script.length) :
      Fills r r' .pending
  | ok {available} (h : r'.Fed) (hunread : available = r'.unread)
      (hle : r'.inner.script.length ≤ r.inner.script.length)
      (hend : available = [] → r.rest = []) : Fills r r' (.ready (.ok available))

theorem Fed.of_pollFillBuf (h : r.Fed) (hfill : r.pollFillBuf = (r', answer)) :
    Fills r r' answer := by
  have hfed : r'.inner.Chunked → r'.Fed := fun hc =>
    ⟨h.toInOrder.of_pollFillBuf hfill, (length_of_pollFillBuf hfill).symm ▸ h.room, hc⟩
  cases fillsBuf_of_pollFillBuf hfill with
  | buffered hmore =>
    refine .ok h rfl (Nat.le_refl _) fun hnil => ?_
    have hlen := unread_length h.cap_le
    rw [hnil, length_nil] at hlen
    omega
  | stopped _ hread _ hstop =>
    cases h.chunked.of_pollRead h.room hread with
    | pending hc hrest hless => exact .pending (hfed hc) hless
    | ended | gave => exact absurd rfl (hstop _)
  | filled hempty hread =>
    have hunread := (unread_of_pollFillBuf hfill).symm
    cases h.chunked.of_pollRead h.room hread with
    | ended hc hrest hrest' hle =>
      refine .ok (hfed hc) hunread hle fun _ => ?_
      rw [rest, unread_of_cap_le hempty, hrest, nil_append]
    | gave hc hne hrest hle => exact .ok (hfed hc) hunread hle fun hnil => absurd hnil hne

end BufReader

/-! ## `BufWriter` -/

structure BufWriter where
  inner : Writer
  buf : List UInt8
  capacity : ℕ
  written : ℕ
  deriving DecidableEq

namespace BufWriter

def withCapacity (capacity : ℕ) (inner : Writer) : BufWriter := ⟨inner, [], capacity, 0⟩

def unsent (w : BufWriter) : List UInt8 := w.buf.drop w.written

def flushPass (w : BufWriter) : BufWriter × Option (Poll Unit) :=
  if w.written < w.buf.length then
    match w.inner.pollWrite w.unsent with
    | (inner, .ready (.ok 0)) =>
      ({ w with inner := inner },
        some (.ready (.error (.writeZero "failed to write the buffered data"))))
    | (inner, .ready (.ok n)) => ({ w with inner := inner, written := w.written + n }, none)
    | (inner, .ready (.error e)) => ({ w with inner := inner }, some (.ready (.error e)))
    | (inner, .pending) => ({ w with inner := inner }, some .pending)
  else (w, some (.ready (.ok ())))

def flushLoop (w : BufWriter) : BufWriter × Poll Unit :=
  Loop.poll flushPass (fun w => w.buf.length - w.written) w

/-- What `poll_flush_buf` does after its loop. -/
def settle (w : BufWriter) : BufWriter :=
  { w with
    buf := if w.buf.length ≤ w.written then [] else if 0 < w.written then w.unsent else w.buf
    written := 0 }

def pollFlushBuf (w : BufWriter) : BufWriter × Poll Unit :=
  match w.flushLoop with
  | (w, .pending) => (w, .pending)
  | (w, .ready result) => (w.settle, .ready result)

/-- `poll_write`, once the buffer has room or is drained. -/
def put (w : BufWriter) (data : List UInt8) : BufWriter × Poll ℕ :=
  if w.capacity ≤ data.length then
    ({ w with inner := (w.inner.pollWrite data).1 }, (w.inner.pollWrite data).2)
  else ({ w with buf := w.buf ++ data }, .ready (.ok data.length))

def pollWrite (w : BufWriter) (data : List UInt8) : BufWriter × Poll ℕ :=
  if w.capacity < w.buf.length + data.length then
    match w.pollFlushBuf with
    | (w, .ready (.ok ())) => w.put data
    | (w, .ready (.error e)) => (w, .ready (.error e))
    | (w, .pending) => (w, .pending)
  else w.put data

def flushThen (w : BufWriter) (next : Writer → Writer × Poll Unit) : BufWriter × Poll Unit :=
  match w.pollFlushBuf with
  | (w, .ready (.ok ())) => ({ w with inner := (next w.inner).1 }, (next w.inner).2)
  | (w, answer) => (w, answer)

def pollFlush (w : BufWriter) : BufWriter × Poll Unit := w.flushThen Sink.pollFlush

def pollShutdown (w : BufWriter) : BufWriter × Poll Unit := w.flushThen Sink.pollShutdown

inductive Call where
  | pollWrite (data : List UInt8)
  | pollFlush
  | pollShutdown
  deriving DecidableEq

def call (w : BufWriter) : Call → BufWriter × List UInt8
  | .pollWrite data => ((w.pollWrite data).1, data.take (w.pollWrite data).2.count)
  | .pollFlush => (w.pollFlush.1, [])
  | .pollShutdown => (w.pollShutdown.1, [])

def run (w : BufWriter) : List Call → BufWriter × List UInt8
  | [] => (w, [])
  | c :: calls => (((w.call c).1.run calls).1, (w.call c).2 ++ ((w.call c).1.run calls).2)

/-! ### The loop -/

variable {w : BufWriter} {w' : BufWriter} {result : Option (Poll Unit)} {reported : List UInt8}

inductive FlushPasses (w : BufWriter) : BufWriter → Option (Poll Unit) → Prop where
  | done (h : w.buf.length ≤ w.written) : FlushPasses w w (some (.ready (.ok ())))
  | stopped {inner answer result}
      (hwrite : w.inner.pollWrite w.unsent = (inner, answer)) (hcount : answer.count = 0)
      (hresult : result ≠ .ready (.ok ())) : FlushPasses w { w with inner := inner } (some result)
  | wrote {inner n} (h : w.written < w.buf.length)
      (hwrite : w.inner.pollWrite w.unsent = (inner, .ready (.ok n))) (hpos : 0 < n) :
      FlushPasses w { w with inner := inner, written := w.written + n } none

theorem flushPasses_of_flushPass (h : w.flushPass = (w', result)) : FlushPasses w w' result := by
  rw [flushPass] at h
  by_cases hmore : w.written < w.buf.length
  · rw [if_pos hmore] at h
    rcases hwrite : w.inner.pollWrite w.unsent with ⟨inner, _ | e | _ | n⟩ <;>
      rw [hwrite] at h <;> cases h
    · exact .stopped hwrite rfl nofun
    · exact .stopped hwrite rfl (by simp)
    · exact .stopped hwrite rfl (by simp)
    · exact .wrote hmore hwrite (Nat.succ_pos n)
  · rw [if_neg hmore] at h
    cases h
    exact .done (Nat.not_lt.mp hmore)

theorem flushPass_falls (I : BufWriter → Prop)
    (hI : ∀ w w', I w → w.flushPass = (w', none) → I w') :
    Loop.Falls flushPass (fun w => w.buf.length - w.written) I := by
  refine fun w w' h hpass => ⟨hI w w' h hpass, ?_⟩
  cases flushPasses_of_flushPass hpass with
  | wrote hmore _ hpos =>
    dsimp only
    omega

theorem flushLoop_eq (w : BufWriter) : w.flushLoop = match w.flushPass with
      | (w, some result) => (w, result)
      | (w, none) => w.flushLoop := by
  rw [flushLoop, Loop.poll_eq (flushPass_falls (fun _ => True) fun _ _ _ _ => trivial) trivial]
  rcases w.flushPass with ⟨w', _ | result⟩ <;> rfl

/-! ### What a call keeps -/

/-- What was reported as written was accepted, or is still unsent. -/
structure Sound (reported : List UInt8) (w : BufWriter) : Prop where
  written_le : w.written ≤ w.buf.length
  buf_le : w.buf.length ≤ w.capacity
  reported : w.inner.accepted ++ w.unsent = reported

theorem Sound.accepted_eq (h : w.Sound reported) (hempty : w.buf = []) :
    w.inner.accepted = reported := by
  rw [← h.reported, unsent, hempty, drop_nil, append_nil]

theorem unsent_advance (w : BufWriter) (inner : Writer) (n : ℕ) :
    unsent { w with inner := inner, written := w.written + n } = w.unsent.drop n :=
  drop_drop.symm

section

variable (h : w.Sound reported)

include h

theorem Sound.flushPass
    (hpass : w.flushPass = (w', result)) : w'.Sound reported ∧ w'.capacity = w.capacity := by
  cases flushPasses_of_flushPass hpass with
  | done _ => exact ⟨h, rfl⟩
  | stopped hwrite hcount _ =>
    have haccepted := (Sink.accepted_of_pollWrite hwrite).1
    rw [hcount, take_zero, append_nil] at haccepted
    exact ⟨⟨h.written_le, h.buf_le, by rw [haccepted]; exact h.reported⟩, rfl⟩
  | @wrote inner n hmore hwrite _ =>
    obtain ⟨haccepted, hcount⟩ := Sink.accepted_of_pollWrite hwrite
    have hlen : w.unsent.length = w.buf.length - w.written := length_drop
    rw [Script.Poll.count_ok] at haccepted hcount
    refine ⟨⟨?_, h.buf_le, ?_⟩, rfl⟩
    · change w.written + n ≤ w.buf.length
      omega
    · change inner.accepted ++ unsent { w with inner := inner, written := w.written + n } = _
      rw [unsent_advance, haccepted, append_assoc, take_append_drop]
      exact h.reported

theorem Sound.flushLoop : w.flushLoop.1.Sound reported ∧ w.flushLoop.1.capacity = w.capacity ∧
      (w.flushLoop.2 = .ready (.ok ()) → w.flushLoop.1.buf.length ≤ w.flushLoop.1.written) := by
  refine Loop.poll_spec (I := fun v => v.Sound reported ∧ v.capacity = w.capacity)
    (Q := fun v answer => v.Sound reported ∧ v.capacity = w.capacity ∧
      (answer = .ready (.ok ()) → v.buf.length ≤ v.written))
    (flushPass_falls _ ?_) ?_ ⟨h, rfl⟩
  · rintro v v' ⟨hv, hcap⟩ hpass
    obtain ⟨hv', hcap'⟩ := hv.flushPass hpass
    exact ⟨hv', hcap'.trans hcap⟩
  · rintro v v' answer ⟨hv, hcap⟩ hpass
    obtain ⟨hv', hcap'⟩ := hv.flushPass hpass
    refine ⟨hv', hcap'.trans hcap, fun hok => ?_⟩
    cases flushPasses_of_flushPass hpass with
    | done hall => exact hall
    | stopped _ _ hresult => exact absurd hok hresult

theorem Sound.settle : w.settle.Sound reported := by
  have hbuf : w.settle.buf = w.unsent := by
    rw [BufWriter.settle, unsent]
    by_cases hall : w.buf.length ≤ w.written
    · rw [if_pos hall, drop_eq_nil_of_le hall]
    · rcases Nat.eq_zero_or_pos w.written with hzero | hpos
      · rw [if_neg hall, hzero, if_neg (Nat.lt_irrefl 0), drop_zero]
      · rw [if_neg hall, if_pos hpos]
  refine ⟨Nat.zero_le _, ?_, ?_⟩
  · rw [hbuf, unsent, length_drop]
    exact Nat.le_trans (Nat.sub_le _ _) h.buf_le
  · change w.inner.accepted ++ w.settle.buf.drop 0 = reported
    rw [drop_zero, hbuf]
    exact h.reported

theorem Sound.pollFlushBuf :
    w.pollFlushBuf.1.Sound reported ∧ w.pollFlushBuf.1.capacity = w.capacity ∧
      (w.pollFlushBuf.2 = .ready (.ok ()) → w.pollFlushBuf.1.buf = []) := by
  obtain ⟨hloop, hcap, hok⟩ := h.flushLoop
  rw [BufWriter.pollFlushBuf]
  rcases hl : w.flushLoop with ⟨w', _ | result⟩
  · rw [hl] at hloop hcap
    exact ⟨hloop, hcap, by simp⟩
  · rw [hl] at hloop hcap hok
    refine ⟨hloop.settle, hcap, fun hready => ?_⟩
    exact if_pos (hok hready)

theorem Sound.put {data : List UInt8}
    (hroom : w.buf.length + data.length ≤ w.capacity ∨ w.buf = []) :
    (w.put data).1.Sound (reported ++ data.take (w.put data).2.count) := by
  rw [BufWriter.put]
  by_cases hlarge : w.capacity ≤ data.length
  · -- data as large as the buffer fits into an empty one only
    have hempty : w.buf = [] := by
      rcases hroom with hfits | hempty
      · exact length_eq_zero_iff.mp (by omega)
      · exact hempty
    have hunsent : w.unsent = [] := by rw [unsent, hempty, drop_nil]
    have hreported := h.reported
    rw [hunsent, append_nil] at hreported
    rw [if_pos hlarge]
    refine ⟨h.written_le, h.buf_le, ?_⟩
    change (w.inner.pollWrite data).1.accepted ++ w.unsent = _
    rw [Sink.accepted_pollWrite, hunsent, append_nil, hreported]
  · rw [if_neg hlarge]
    refine ⟨?_, ?_, ?_⟩
    · change w.written ≤ (w.buf ++ data).length
      rw [length_append]
      exact Nat.le_add_right_of_le h.written_le
    · change (w.buf ++ data).length ≤ w.capacity
      rw [length_append]
      rcases hroom with hfits | hempty
      · exact hfits
      · rw [hempty, length_nil]
        omega
    · change w.inner.accepted ++ (w.buf ++ data).drop w.written = _
      rw [drop_append_of_le_length h.written_le, ← append_assoc, ← unsent, h.reported]
      simp

theorem Sound.pollWrite (data : List UInt8) :
    (w.pollWrite data).1.Sound (reported ++ data.take (w.pollWrite data).2.count) := by
  rw [BufWriter.pollWrite]
  by_cases hover : w.capacity < w.buf.length + data.length
  · rw [if_pos hover]
    obtain ⟨hflush, -, hempty⟩ := h.pollFlushBuf
    rcases hf : w.pollFlushBuf with ⟨w', _ | e | _⟩
    · rw [hf] at hflush
      simpa using hflush
    · rw [hf] at hflush
      simpa using hflush
    · rw [hf] at hflush hempty
      exact hflush.put (.inr (hempty rfl))
  · rw [if_neg hover]
    exact h.put (.inl (Nat.not_lt.mp hover))

theorem Sound.flushThen {next : Writer → Writer × Poll Unit}
    (hnext : ∀ inner, (next inner).1.accepted = inner.accepted) :
    (w.flushThen next).1.Sound reported ∧ ((w.flushThen next).2 = .ready (.ok ()) →
        (w.flushThen next).1.inner.accepted = reported) := by
  rw [BufWriter.flushThen]
  obtain ⟨hflush, -, hempty⟩ := h.pollFlushBuf
  rcases hf : w.pollFlushBuf with ⟨w', _ | e | _⟩
  · rw [hf] at hflush
    exact ⟨hflush, by simp⟩
  · rw [hf] at hflush
    exact ⟨hflush, by simp⟩
  · rw [hf] at hflush hempty
    have hkept : Sound reported { w' with inner := (next w'.inner).1 } :=
      ⟨hflush.written_le, hflush.buf_le, by rw [hnext]; exact hflush.reported⟩
    exact ⟨hkept, fun _ => hkept.accepted_eq (hempty rfl)⟩

theorem Sound.pollFlush : w.pollFlush.1.Sound reported ∧
      (w.pollFlush.2 = .ready (.ok ()) → w.pollFlush.1.inner.accepted = reported) :=
  h.flushThen Sink.accepted_pollFlush

theorem Sound.pollShutdown : w.pollShutdown.1.Sound reported ∧
      (w.pollShutdown.2 = .ready (.ok ()) → w.pollShutdown.1.inner.accepted = reported) :=
  h.flushThen Sink.accepted_pollShutdown

theorem Sound.call (c : Call) : (w.call c).1.Sound (reported ++ (w.call c).2) := by
  cases c with
  | pollWrite data => exact h.pollWrite data
  | pollFlush => exact (append_nil reported).symm ▸ h.pollFlush.1
  | pollShutdown => exact (append_nil reported).symm ▸ h.pollShutdown.1

theorem Sound.run (calls : List Call) : (w.run calls).1.Sound (reported ++ (w.run calls).2) := by
  induction calls generalizing w reported with
  | nil => exact (append_nil reported).symm ▸ h
  | cons c calls ih =>
    rw [BufWriter.run, ← append_assoc]
    exact ih (h.call c)

end

/-- **A `BufWriter` is transparent.**  For every capacity and scripts and every sequence of calls,
the bytes that the inner writer accepted and then `buf[written..]` are the bytes that `poll_write`
reported; and when the next `poll_flush` or `poll_shutdown` returns `Ok`, the inner writer has them
all. -/
theorem bufWriter_transparent (capacity : ℕ) (writes : List (Poll ℕ))
    (flushes shutdowns : List (Poll Unit)) (calls : List Call) (w : BufWriter)
    (reported : List UInt8)
    (h : (withCapacity capacity (.ofScripts writes flushes shutdowns)).run calls = (w, reported)) :
    w.inner.accepted ++ w.unsent = reported ∧
    (w.pollFlush.2 = .ready (.ok ()) → w.pollFlush.1.inner.accepted = reported) ∧
    (w.pollShutdown.2 = .ready (.ok ()) → w.pollShutdown.1.inner.accepted = reported) := by
  have h0 : (withCapacity capacity (.ofScripts writes flushes shutdowns)).Sound [] :=
    ⟨Nat.le_refl _, Nat.zero_le _, rfl⟩
  have hrun := h0.run calls
  rw [h] at hrun
  exact ⟨hrun.reported, hrun.pollFlush.2, hrun.pollShutdown.2⟩

theorem bufWriter_transparent_of_stopped : ∃ w, (withCapacity 4 (.ofScripts
        [.ready (.ok 1), .pending, .ready (.error (.other 5)), .ready (.ok 9), .ready (.ok 3)]
        [] [])).run [.pollWrite [1, 2, 3], .pollWrite [4, 5], .pollWrite [4], .pollFlush,
          .pollWrite [5, 6, 7, 8, 9], .pollWrite [8]] = (w, [1, 2, 3, 4, 5, 6, 7, 8]) ∧
      w.inner.accepted = [1, 2, 3, 4, 5, 6, 7] ∧
      w.pollFlush.1.inner.accepted = [1, 2, 3, 4, 5, 6, 7, 8] := by
  refine Exists.imp (fun w hw => ⟨hw, ?_⟩) ⟨_, rfl⟩
  have hall := (bufWriter_transparent 4 _ _ _ _ w _ hw).2.1
  cases hw
  exact ⟨rfl, hall rfl⟩

end BufWriter

end RustyTokio.AsyncIo

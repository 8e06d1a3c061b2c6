import RustyTokio.Transition.Loop
import Mathlib.Algebra.GroupWithZero.Nat

/-!
# Typed values on a stream

The `write_*` and `read_*` methods of `src/io/async_io.rs`: the bytes of an integer or a float, in
one order or the other, by `write_all` and `read_exact`.  A value is its bit pattern.
-/

namespace RustyTokio.Typed

open Transition List
open Transition.Script (Source Sink Poll)

inductive Error where
  | other (code : ℕ)
  | writeZero (message : String)
  | unexpectedEof (message : String)
  deriving DecidableEq

abbrev Reader := Source Error UInt8
abbrev Writer := Sink Error UInt8

/-! ## `write_all` and `read_exact` -/

structure WriteAll where
  writer : Writer
  buf : List UInt8

/-- The loop of `write_all`, from one await to the next. -/
def WriteAll.pass (c : WriteAll) : WriteAll × Option (Poll Error Unit) :=
  if c.buf = [] then (c, some (.ready (.ok ())))
  else
    match c.writer.pollWrite c.buf with
    | (writer, .pending) => ({ c with writer := writer }, some .pending)
    | (writer, .ready (.error e)) => ({ c with writer := writer }, some (.ready (.error e)))
    | (writer, .ready (.ok 0)) =>
      ({ c with writer := writer },
        some (.ready (.error (.writeZero "failed to write whole buffer"))))
    | (writer, .ready (.ok n)) => (⟨writer, c.buf.drop n⟩, none)

def writeAll (polls : ℕ) (writer : Writer) (buf : List UInt8) :
    Option (Writer × Except Error Unit) :=
  (Loop.await (Loop.poll WriteAll.pass fun c => c.buf.length) polls ⟨writer, buf⟩).map
    fun r => (r.1.writer, r.2)

/-- `read_exact`: the room left in the buffer, and what was read into it. -/
structure ReadExact where
  reader : Reader
  room : ℕ
  filled : List UInt8

def ReadExact.pass (c : ReadExact) : ReadExact × Option (Poll Error (List UInt8)) :=
  if c.room = 0 then (c, some (.ready (.ok c.filled)))
  else
    match c.reader.pollRead c.room with
    | (reader, .pending) => ({ c with reader := reader }, some .pending)
    | (reader, .ready (.error e)) => ({ c with reader := reader }, some (.ready (.error e)))
    | (reader, .ready (.ok [])) =>
      ({ c with reader := reader }, some (.ready (.error (.unexpectedEof "early eof"))))
    | (reader, .ready (.ok chunk)) => (⟨reader, c.room - chunk.length, c.filled ++ chunk⟩, none)

def readExact (polls : ℕ) (reader : Reader) (n : ℕ) : Option (Reader × Except Error (List UInt8)) :=
  (Loop.await (Loop.poll ReadExact.pass fun c => c.room) polls ⟨reader, n, []⟩).map
    fun r => (r.1.reader, r.2)

section WriteAll

variable {got : List UInt8} {bound : ℕ}

/-- What was taken and what is left are what is to be written. -/
def WriteAll.Under (all : List UInt8) (bound : ℕ) (c : WriteAll) : Prop :=
  ∃ taken, c.writer.Receiving taken ∧ taken ++ c.buf = all ∧ c.writer.waits ≤ bound

/-- The call has written `all`. -/
def WriteAll.Over (all : List UInt8) (bound : ℕ) (c : WriteAll) (result : Except Error Unit) :
    Prop :=
  result = .ok () ∧ c.writer.Receiving all ∧ c.writer.waits ≤ bound

theorem WriteAll.goes_pass {all : List UInt8} (c d : WriteAll) (result : Option (Poll Error Unit))
    (h : c.Under all bound) (hpass : c.pass = (d, result)) :
    Loop.Goes (Under all bound) (fun c => c.writer.waits) (Over all bound) c d result ∧
      (result = none → d.buf.length < c.buf.length) := by
  obtain ⟨taken, hrec, hall, hle⟩ := h
  rw [pass] at hpass
  split_ifs at hpass with hnil
  · cases hpass
    rw [hnil, append_nil] at hall
    exact ⟨.ready ⟨rfl, hall ▸ hrec, hle⟩, by simp⟩
  · rcases hwrite : c.writer.pollWrite c.buf with ⟨writer, answer⟩
    rw [hwrite] at hpass
    cases hrec.of_pollWrite hnil hwrite with
    | pending hrec' hless =>
      cases hpass
      exact ⟨.pending ⟨taken, hrec', hall, Nat.le_trans (Nat.le_of_lt hless) hle⟩ hless, by simp⟩
    | @took n hrec' hpos hn hle' =>
      obtain ⟨n, rfl⟩ := Nat.exists_eq_succ_of_ne_zero (Nat.ne_of_gt hpos)
      cases hpass
      refine ⟨.on ⟨_, hrec', ?_, Nat.le_trans hle' hle⟩ hle', fun _ => ?_⟩
      · rw [append_assoc, take_append_drop, hall]
      · rw [length_drop]
        omega

theorem writeAll_spec {writer : Writer} {polls : ℕ} (buf : List UInt8) (h : writer.Receiving got)
    (hp : writer.waits < polls) : ∃ writer', writeAll polls writer buf = some (writer', .ok ()) ∧
      writer'.Receiving (got ++ buf) ∧ writer'.waits ≤ writer.waits := by
  have hstart : WriteAll.Under (got ++ buf) writer.waits ⟨writer, buf⟩ :=
    ⟨got, h, rfl, Nat.le_refl _⟩
  obtain ⟨c, result, hc, rfl, hover⟩ := Loop.await_of_goes
    (fun c d result hc hpass => (WriteAll.goes_pass c d result hc hpass).1)
    (fun c d hc hpass => (WriteAll.goes_pass c d none hc hpass).2 rfl) hstart hp
  exact ⟨c.writer, by rw [writeAll, hc]; rfl, hover⟩

end WriteAll

section ReadExact

variable {n : ℕ}

/-- What was read and what is to come are the stream. -/
def ReadExact.Under (all : List UInt8) (n bound : ℕ) (c : ReadExact) : Prop :=
  c.reader.Chunked ∧ c.filled ++ c.reader.rest = all ∧ c.filled.length + c.room = n ∧
    c.reader.script.length ≤ bound

/-- The call has its `n` bytes, or the stream was too short. -/
def ReadExact.Over (all : List UInt8) (n bound : ℕ) (c : ReadExact)
    (result : Except Error (List UInt8)) : Prop :=
  (n ≤ all.length ∧ result = .ok (all.take n) ∧ c.reader.Chunked ∧
      c.reader.rest = all.drop n ∧ c.reader.script.length ≤ bound) ∨
    (all.length < n ∧ result = .error (.unexpectedEof "early eof"))

theorem ReadExact.goes_pass {all : List UInt8} {bound : ℕ} (c d : ReadExact)
    (result : Option (Poll Error (List UInt8))) (h : c.Under all n bound)
    (hpass : c.pass = (d, result)) :
    Loop.Goes (Under all n bound) (fun c => c.reader.script.length) (Over all n bound) c d result ∧
      (result = none → d.room < c.room) := by
  obtain ⟨hchunked, rfl, rfl, hle⟩ := h
  rw [pass] at hpass
  split_ifs at hpass with hroom
  · cases hpass
    refine ⟨.ready (.inl ⟨?_, ?_, hchunked, ?_, hle⟩), by simp⟩ <;> simp [hroom]
  · rcases hread : c.reader.pollRead c.room with ⟨reader, answer⟩
    obtain ⟨-, -, hlen⟩ := Source.of_pollRead hread
    rw [hread] at hpass
    cases hchunked.of_pollRead (Nat.pos_of_ne_zero hroom) hread with
    | pending hchunked' hrest hless =>
      cases hpass
      refine ⟨.pending ⟨hchunked', ?_, rfl, Nat.le_trans (Nat.le_of_lt hless) hle⟩ hless, by simp⟩
      exact congrArg (c.filled ++ ·) hrest
    | ended hchunked' hrest hrest' hle' =>
      cases hpass
      refine ⟨.ready (.inr ⟨?_, rfl⟩), by simp⟩
      rw [hrest, append_nil]
      omega
    | @gave chunk hchunked' hne hrest hle' =>
      obtain ⟨b, chunk, rfl⟩ := exists_cons_of_ne_nil hne
      cases hpass
      rw [Poll.bytes_ok, length_cons] at hlen
      refine ⟨.on ⟨hchunked', ?_, ?_, Nat.le_trans hle' hle⟩ hle', fun _ => ?_⟩
      · rw [hrest, append_assoc]
      · simp only [length_append, length_cons]
        omega
      · simp only [length_cons]
        omega

theorem readExact_spec {reader : Reader} {polls : ℕ} (n : ℕ) (h : reader.Chunked)
    (hp : reader.script.length < polls) :
    ∃ c : ReadExact, ∃ result, readExact polls reader n = some (c.reader, result) ∧
      c.Over reader.rest n reader.script.length result := by
  have hstart : ReadExact.Under reader.rest n reader.script.length ⟨reader, n, []⟩ :=
    ⟨h, rfl, Nat.zero_add n, Nat.le_refl _⟩
  obtain ⟨c, result, hc, hover⟩ := Loop.await_of_goes
    (fun c d result hc hpass => (ReadExact.goes_pass c d result hc hpass).1)
    (fun c d hc hpass => (ReadExact.goes_pass c d none hc hpass).2 rfl) hstart hp
  exact ⟨c, result, by rw [readExact, hc]; rfl, hover⟩

end ReadExact

/-! ## The values -/

inductive Kind where
  | u8
  | i8
  | u16
  | i16
  | u32
  | i32
  | u64
  | i64
  | u128
  | i128
  | f32
  | f64
  deriving DecidableEq

def Kind.size : Kind → ℕ
  | .u8 | .i8 => 1
  | .u16 | .i16 => 2
  | .u32 | .i32 | .f32 => 4
  | .u64 | .i64 | .f64 => 8
  | .u128 | .i128 => 16

inductive Order where
  | be
  | le
  deriving DecidableEq

def toLeBytes : ℕ → ℕ → List UInt8
  | 0, _ => []
  | n + 1, bits => .ofNat bits :: toLeBytes n (bits / 256)

def fromLeBytes : List UInt8 → ℕ
  | [] => 0
  | b :: bytes => b.toNat + 256 * fromLeBytes bytes

/-- A pair of methods, `write_*` and `read_*`.  There is one for `u8` and `i8`. -/
structure Method where
  kind : Kind
  order : Order
  deriving DecidableEq

def Method.encode (m : Method) (bits : ℕ) : List UInt8 :=
  match m.kind, m.order with
  | .u8, _ | .i8, _ => [.ofNat bits]
  | kind, .be => (toLeBytes kind.size bits).reverse
  | kind, .le => toLeBytes kind.size bits

def Method.decode (m : Method) (buf : List UInt8) : ℕ :=
  match m.kind, m.order with
  | .u8, _ | .i8, _ => (buf.headD 0).toNat
  | _, .be => fromLeBytes buf.reverse
  | _, .le => fromLeBytes buf

structure Value where
  method : Method
  bits : ℕ
  lt : bits < 256 ^ method.kind.size
  deriving DecidableEq

def Value.bytes (v : Value) : List UInt8 := v.method.encode v.bits

theorem length_toLeBytes : ∀ n bits, (toLeBytes n bits).length = n
  | 0, _ => rfl
  | n + 1, bits => congrArg (· + 1) (length_toLeBytes n (bits / 256))

theorem fromLeBytes_toLeBytes : ∀ n bits, bits < 256 ^ n → fromLeBytes (toLeBytes n bits) = bits
  | 0, bits, h => by
    rw [Nat.pow_zero] at h
    exact (Nat.lt_one_iff.mp h).symm
  | n + 1, bits, h => by
    have hdiv : bits / 256 < 256 ^ n := by
      rw [Nat.div_lt_iff_lt_mul (by decide), ← Nat.pow_succ]
      exact h
    rw [toLeBytes, fromLeBytes, fromLeBytes_toLeBytes n _ hdiv, UInt8.toNat_ofNat']
    exact Nat.mod_add_div bits 256

theorem Value.length_bytes (v : Value) : v.bytes.length = v.method.kind.size := by
  obtain ⟨⟨kind, order⟩, bits, h⟩ := v
  cases kind <;> cases order <;> simp [bytes, Method.encode, length_toLeBytes, Kind.size]

theorem Value.decode_bytes (v : Value) : v.method.decode v.bytes = v.bits := by
  obtain ⟨⟨kind, order⟩, bits, h⟩ := v
  cases kind <;> cases order <;>
    simp only [bytes, Method.encode, Method.decode, reverse_reverse]
  case u8.be | u8.le | i8.be | i8.le =>
    exact (UInt8.toNat_ofNat' ..).trans (Nat.mod_eq_of_lt h)
  all_goals exact fromLeBytes_toLeBytes _ _ h

/-! ## Sequences of values -/

def writeValues (polls : ℕ) : List Value → Writer → Option (Writer × Except Error Unit)
  | [], writer => some (writer, .ok ())
  | v :: values, writer =>
    match writeAll polls writer v.bytes with
    | some (writer, .ok ()) => writeValues polls values writer
    | r => r

/-- The `read_*` calls for some values, until one fails: what they read, and how the last ended. -/
def readValues (polls : ℕ) : List Method → Reader → Option (Reader × List ℕ × Except Error Unit)
  | [], reader => some (reader, [], .ok ())
  | m :: methods, reader =>
    match readExact polls reader m.kind.size with
    | none => none
    | some (reader, .error e) => some (reader, [], .error e)
    | some (reader, .ok buf) =>
      (readValues polls methods reader).map fun r => (r.1, m.decode buf :: r.2.1, r.2.2)

variable {polls : ℕ} {reader : Reader}

theorem writeValues_spec : ∀ (values : List Value) {writer : Writer}
    {got : List UInt8}, writer.Receiving got → writer.waits < polls →
    ∃ writer', writeValues polls values writer = some (writer', .ok ()) ∧
      writer'.accepted = got ++ values.flatMap Value.bytes
  | [], writer, got, h, _ => ⟨writer, rfl, by simpa using h.accepted_eq⟩
  | v :: values, writer, got, h, hp => by
    obtain ⟨writer', hw, hrec, hle⟩ := writeAll_spec v.bytes h hp
    obtain ⟨writer'', hws, hacc⟩ := writeValues_spec values hrec (Nat.lt_of_le_of_lt hle hp)
    refine ⟨writer'', by rw [writeValues, hw]; exact hws, ?_⟩
    rw [hacc, flatMap_cons, append_assoc]

theorem readValues_cons {v : Value} {tail : List UInt8}
    (methods : List Method) (h : reader.Chunked) (hp : reader.script.length < polls)
    (hrest : reader.rest = v.bytes ++ tail) :
    ∃ reader' : Reader, reader'.Chunked ∧ reader'.script.length < polls ∧ reader'.rest = tail ∧
      readValues polls (v.method :: methods) reader =
        (readValues polls methods reader').map fun r => (r.1, v.bits :: r.2.1, r.2.2) := by
  obtain ⟨c, result, hread, hover⟩ := readExact_spec v.method.kind.size h hp
  rw [hrest, ← v.length_bytes] at hover
  rcases hover with ⟨-, rfl, hchunked, hrest', hle⟩ | ⟨hlt, -⟩
  · rw [drop_left] at hrest'
    refine ⟨c.reader, hchunked, Nat.lt_of_le_of_lt hle hp, hrest', ?_⟩
    rw [readValues, hread, take_left]
    simp only [v.decode_bytes]
  · rw [length_append] at hlt
    omega

theorem readValues_spec : ∀ (values : List Value) {reader : Reader}
    {tail : List UInt8} (methods : List Method), reader.Chunked → reader.script.length < polls →
    reader.rest = values.flatMap Value.bytes ++ tail →
    ∃ reader' : Reader, reader'.Chunked ∧ reader'.script.length < polls ∧ reader'.rest = tail ∧
      readValues polls (values.map Value.method ++ methods) reader =
        (readValues polls methods reader').map fun r => (r.1, values.map Value.bits ++ r.2.1, r.2.2)
  | [], reader, tail, methods, h, hp, hrest => ⟨reader, h, hp, hrest, by simp⟩
  | v :: values, reader, tail, methods, h, hp, hrest => by
    rw [flatMap_cons, append_assoc] at hrest
    obtain ⟨r, hr, hpr, hrest', hv⟩ :=
      readValues_cons (values.map Value.method ++ methods) h hp hrest
    obtain ⟨r', hr', hpr', hrest'', hvs⟩ := readValues_spec values methods hr hpr hrest'
    refine ⟨r', hr', hpr', hrest'', ?_⟩
    rw [map_cons, cons_append, hv, hvs, Option.map_map]
    rfl

/-- **Typed values round trip.**  Whatever part of the rest each write takes, and in whatever chunks
the bytes come back: all values are written, and reading them with the same methods gives them back.
If the stream ends inside of a value, those before it are read, and it ends in `UnexpectedEof`. -/
theorem typed_round_trip {writes : List (Poll Error ℕ)} {flushes shutdowns : List (Poll Error Unit)}
    (hw : (Sink.ofScripts writes flushes shutdowns : Writer).Willing) {reader : Reader}
    (hr : reader.Chunked) {polls : ℕ} (hwrites : writes.length + flushes.length < polls)
    (hreads : reader.script.length < polls) (values : List Value) :
    (∃ writer, writeValues polls values (.ofScripts writes flushes shutdowns) =
        some (writer, .ok ()) ∧ writer.accepted = values.flatMap Value.bytes) ∧
    (reader.rest = values.flatMap Value.bytes →
      ∃ reader', readValues polls (values.map Value.method) reader =
        some (reader', values.map Value.bits, .ok ())) ∧
    ∀ (v : Value) front methods, reader.rest = values.flatMap Value.bytes ++ front →
      front <+: v.bytes → front ≠ v.bytes →
      ∃ reader', readValues polls (values.map Value.method ++ v.method :: methods) reader =
        some (reader', values.map Value.bits, .error (.unexpectedEof "early eof")) := by
  refine ⟨?_, fun hrest => ?_, fun v front methods hrest hfront hne => ?_⟩
  · exact writeValues_spec values (Sink.Receiving.ofScripts hw) hwrites
  · obtain ⟨r, -, -, -, hall⟩ :=
      readValues_spec values [] hr hreads (hrest.trans (append_nil _).symm)
    exact ⟨r, by simpa [readValues] using hall⟩
  · obtain ⟨r, hchunked, hp, hrest', hall⟩ :=
      readValues_spec values (v.method :: methods) hr hreads hrest
    obtain ⟨c, result, hread, hover⟩ := readExact_spec v.method.kind.size hchunked hp
    have hlt : front.length < v.bytes.length :=
      Nat.lt_of_le_of_ne hfront.length_le fun heq => hne (hfront.eq_of_length heq)
    rw [hrest', ← v.length_bytes] at hover
    rcases hover with ⟨hle, -⟩ | ⟨-, rfl⟩
    · omega
    · exact ⟨c.reader, by rw [hall, readValues, hread]; simp⟩

theorem typed_round_trip_of_two :
    (∃ writer, writeValues 9 [⟨⟨.u16, .be⟩, 258, by decide⟩, ⟨⟨.i8, .le⟩, 255, by decide⟩]
        (.ofScripts [.ready (.ok 1), .pending] [] []) = some (writer, .ok ()) ∧
      writer.accepted = [1, 2, 255]) ∧
    (∃ reader, readValues 9 [⟨.u16, .be⟩, ⟨.i8, .le⟩]
        (.ofScript [.ready (.ok [1]), .pending, .ready (.ok [2, 255])]) =
      some (reader, [258, 255], .ok ())) ∧
    ∃ reader, readValues 9 [⟨.u16, .be⟩] (.ofScript [.ready (.ok [1])]) =
      some (reader, [], .error (.unexpectedEof "early eof")) := by
  have hw : (Sink.ofScripts [.ready (.ok 1), .pending] [] [] : Writer).Willing :=
    ⟨by decide, by decide⟩
  have hone : (Source.ofScript [.ready (.ok [1])] : Reader).Chunked := by decide
  have htwo : (Source.ofScript [.ready (.ok [1]), .pending, .ready (.ok [2, 255])] :
    Reader).Chunked := by decide
  have hwrites : ([.ready (.ok 1), .pending] : List (Script.Poll Error ℕ)).length + 0 < 9 := by
    decide
  have hcut := (typed_round_trip hw hone hwrites (by decide) []).2.2
    ⟨⟨.u16, .be⟩, 258, by decide⟩ [1] [] rfl (by decide) (by decide)
  have hall := typed_round_trip hw htwo hwrites (by decide)
    [⟨⟨.u16, .be⟩, 258, by decide⟩, ⟨⟨.i8, .le⟩, 255, by decide⟩]
  exact ⟨hall.1, hall.2.1 rfl, hcut⟩

end RustyTokio.Typed

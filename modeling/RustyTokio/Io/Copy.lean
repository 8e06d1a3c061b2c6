import RustyTokio.Io.CopyBuf

/-!
# `copy` and `copy_buf` agree

`copy` (`io/async_io.rs`) is a plain `async fn`: it reads into a buffer of its own, awaits
`write_all` of what it read, and goes round.  Its awaits are the stages of the machine here.
`copy_buf` is modelled in `Io.CopyBuf`.  `total` is a natural number here, not a `u64`: no stream
has `2 ^ 64` bytes.
-/

namespace RustyTokio.AsyncIo

open Transition List BufReader
open Transition.Script (Source Sink)

/-- The call returned the length of `S`, all of it written and flushed. -/
def Completed (S : List UInt8) (writer : Writer) (result : Except Error ℕ) : Prop :=
  result = .ok S.length ∧ writer.Flushed S

theorem goes_flushThenOk {σ : Type} {I : σ → Prop} {waits : σ → ℕ} {c : σ} {S : List UInt8}
    {writer : Writer} {amt : ℕ} (h : writer.Receiving S) (hamt : amt = S.length)
    (writerOf : σ → Writer) (put : Writer → σ)
    (hput : ∀ v, writerOf (put v) = v) (hI : ∀ v, v.Receiving S → I (put v))
    (hwaits : ∀ v, v.waits < writer.waits → waits (put v) < waits c) :
    Loop.Goes I waits (fun c => Completed S (writerOf c)) c
      (put (flushThenOk writer amt).1) (some (flushThenOk writer amt).2) := by
  rw [flushThenOk]
  rcases hflush : writer.pollFlush with ⟨writer', answer⟩
  cases h.of_pollFlush hflush with
  | pending h' hless => exact .pending (hI _ h') (hwaits _ hless)
  | done hflushed => exact .ready ⟨congrArg Except.ok hamt, (hput writer').symm ▸ hflushed⟩

/-! ## `copy` -/

/-- Where a call of `copy` waits: in `read`, in `write_all` of a chunk of `n` bytes with some of
them left, in `flush`. -/
inductive Copy.Stage where
  | reading
  | writing (n : ℕ) (left : List UInt8)
  | flushing
  deriving DecidableEq

structure Copy where
  reader : Reader
  writer : Writer
  stage : Copy.Stage
  total : ℕ
  deriving DecidableEq

namespace Copy

def bufLen : ℕ := 8192

def start (reader : Reader) (writer : Writer) : Copy := ⟨reader, writer, .reading, 0⟩

def read (c : Copy) : Copy × Option (Poll ℕ) :=
  match c.reader.pollRead bufLen with
  | (reader, .ready (.ok [])) => ({ c with reader := reader, stage := .flushing }, none)
  | (reader, .ready (.ok bytes)) =>
    ({ c with reader := reader, stage := .writing bytes.length bytes }, none)
  | (reader, .ready (.error e)) => ({ c with reader := reader }, some (.ready (.error e)))
  | (reader, .pending) => ({ c with reader := reader }, some .pending)

def write (c : Copy) (n : ℕ) (left : List UInt8) : Copy × Option (Poll ℕ) :=
  match c.writer.pollWrite left with
  | (writer, .ready (.ok 0)) =>
    ({ c with writer := writer },
      some (.ready (.error (.writeZero "failed to write whole buffer"))))
  | (writer, .ready (.ok k)) =>
    ({ c with writer := writer, stage := .writing n (left.drop k) }, none)
  | (writer, .ready (.error e)) => ({ c with writer := writer }, some (.ready (.error e)))
  | (writer, .pending) => ({ c with writer := writer }, some .pending)

def finish (c : Copy) : Copy × Poll ℕ :=
  ({ c with writer := (flushThenOk c.writer c.total).1 }, (flushThenOk c.writer c.total).2)

def pass (c : Copy) : Copy × Option (Poll ℕ) :=
  match c.stage with
  | .reading => c.read
  | .writing n [] => ({ c with stage := .reading, total := c.total + n }, none)
  | .writing n left => c.write n left
  | .flushing => (c.finish.1, some c.finish.2)

def Stage.weight : Stage → ℕ
  | .reading => 2
  | .writing _ left => 2 * left.length + 3
  | .flushing => 0

def left (c : Copy) : ℕ := 4 * c.reader.rest.length + Stage.weight c.stage

def poll (c : Copy) : Copy × Poll ℕ := Loop.poll pass left c

/-! ### One pass -/

variable {c c' : Copy} {result : Option (Poll ℕ)}

inductive Passes (c : Copy) : Copy → Option (Poll ℕ) → Prop where
  | waits {reader} (hstage : c.stage = .reading)
      (hread : c.reader.pollRead bufLen = (reader, .pending)) :
      Passes c { c with reader := reader } (some .pending)
  | failed {reader e} (hstage : c.stage = .reading)
      (hread : c.reader.pollRead bufLen = (reader, .ready (.error e))) :
      Passes c { c with reader := reader } (some (.ready (.error e)))
  | ended {reader} (hstage : c.stage = .reading)
      (hread : c.reader.pollRead bufLen = (reader, .ready (.ok []))) :
      Passes c { c with reader := reader, stage := .flushing } none
  | filled {reader bytes} (hstage : c.stage = .reading)
      (hread : c.reader.pollRead bufLen = (reader, .ready (.ok bytes))) (hne : bytes ≠ []) :
      Passes c { c with reader := reader, stage := .writing bytes.length bytes } none
  | written {n} (hstage : c.stage = .writing n []) :
      Passes c { c with stage := .reading, total := c.total + n } none
  | blocked {n left writer} (hstage : c.stage = .writing n left)
      (hne : left ≠ []) (hwrite : c.writer.pollWrite left = (writer, .pending)) :
      Passes c { c with writer := writer } (some .pending)
  | refused {n left writer answer e}
      (hstage : c.stage = .writing n left) (hne : left ≠ [])
      (hwrite : c.writer.pollWrite left = (writer, answer))
      (hanswer : answer ≠ .pending) (hcount : answer.count = 0) :
      Passes c { c with writer := writer } (some (.ready (.error e)))
  | sent {n k left writer} (hstage : c.stage = .writing n left)
      (hne : left ≠ []) (hwrite : c.writer.pollWrite left = (writer, .ready (.ok k)))
      (hpos : 0 < k) :
      Passes c { c with writer := writer, stage := .writing n (left.drop k) } none
  | flush (hstage : c.stage = .flushing) : Passes c c.finish.1 (some c.finish.2)

theorem passes_of_read (hstage : c.stage = .reading) (h : c.read = (c', result)) :
    Passes c c' result := by
  rw [read] at h
  rcases hread : c.reader.pollRead bufLen with ⟨reader, _ | e | _ | ⟨x, bytes⟩⟩ <;>
    rw [hread] at h <;> cases h
  · exact .waits hstage hread
  · exact .failed hstage hread
  · exact .ended hstage hread
  · exact .filled hstage hread (cons_ne_nil _ _)

variable {n : ℕ} {bytes : List UInt8} {writer : Writer}

theorem passes_of_write {left : List UInt8} (hstage : c.stage = .writing n left)
    (hne : left ≠ []) (h : c.write n left = (c', result)) : Passes c c' result := by
  rw [write] at h
  rcases hwrite : c.writer.pollWrite left with ⟨writer, _ | e | _ | k⟩ <;>
    rw [hwrite] at h <;> cases h
  · exact .blocked hstage hne hwrite
  · exact .refused hstage hne hwrite nofun rfl
  · exact .refused hstage hne hwrite nofun rfl
  · exact .sent hstage hne hwrite (Nat.succ_pos k)

theorem passes_of_pass (h : c.pass = (c', result)) : Passes c c' result := by
  rw [pass] at h
  rcases hstage : c.stage with _ | ⟨n, _ | ⟨x, left⟩⟩ | _ <;> rw [hstage] at h
  · exact passes_of_read hstage h
  · cases h
    exact .written hstage
  · exact passes_of_write hstage (cons_ne_nil _ _) h
  · cases h
    exact .flush hstage

/-! ### The loop -/

variable {reader : Reader}

theorem rest_of_read (h : c.reader.pollRead bufLen = (reader, .ready (.ok bytes))) :
    c.reader.rest = bytes ++ reader.rest :=
  (Source.of_pollRead h).2.1

theorem falls : Loop.Falls pass left fun _ => True := by
  refine fun c c' _ hpass => ⟨trivial, ?_⟩
  rw [left, left]
  cases passes_of_pass hpass with
  | ended hstage hread =>
    have hlen := congrArg List.length (rest_of_read hread)
    rw [length_append, length_nil] at hlen
    simp only [hstage, Stage.weight]
    omega
  | filled hstage hread hne =>
    have hlen := congrArg List.length (rest_of_read hread)
    have hpos := length_pos_iff.mpr hne
    rw [length_append] at hlen
    simp only [hstage, Stage.weight]
    omega
  | written hstage =>
    simp only [hstage, Stage.weight, length_nil]
    omega
  | sent hstage hne hwrite hpos =>
    have hlen := length_pos_iff.mpr hne
    simp only [hstage, Stage.weight, length_drop]
    omega

theorem poll_eq (c : Copy) : c.poll = match c.pass with
      | (c, some answer) => (c, answer)
      | (c, none) => c.poll := by
  rw [poll, Loop.poll_eq falls trivial]
  rcases c.pass with ⟨c', _ | answer⟩ <;> rfl

/-! ### Over a stream in chunks -/

def Stage.unwritten : Stage → List UInt8
  | .writing _ left => left
  | _ => []

def Stage.uncounted : Stage → ℕ
  | .writing n _ => n
  | _ => 0

/-- The writer has `got`; the rest of `S` is in the buffer or still to be read. -/
structure Going (S : List UInt8) (c : Copy) : Prop where
  chunked : c.reader.Chunked
  receiving : ∃ got, c.writer.Receiving got ∧ S = got ++ (c.stage.unwritten ++ c.reader.rest) ∧
    c.total + c.stage.uncounted = got.length + c.stage.unwritten.length
  ended : c.stage = .flushing → c.reader.rest = []

def waits (c : Copy) : ℕ := c.reader.script.length + c.writer.waits

variable {S : List UInt8}

theorem Going.start (hreader : reader.Chunked)
    (hwriter : writer.Receiving []) : (start reader writer).Going reader.rest :=
  ⟨hreader, ⟨[], hwriter, rfl, rfl⟩, nofun⟩

theorem Going.read (h : c.Going S) (hstage : c.stage = .reading)
    (hread : c.reader.pollRead bufLen = (reader, .ready (.ok bytes)))
    (hchunked : reader.Chunked) {stage : Stage} (hunwritten : stage.unwritten = bytes)
    (huncounted : stage.uncounted = bytes.length) (hended : stage = .flushing → reader.rest = []) :
    ({ c with reader := reader, stage := stage }).Going S := by
  obtain ⟨got, hreceiving, hS, htotal⟩ := h.receiving
  refine ⟨hchunked, ⟨got, hreceiving, ?_, ?_⟩, hended⟩
  · rw [hunwritten, ← rest_of_read hread, hS, hstage]
    rfl
  · rw [hstage] at htotal
    rw [hunwritten, huncounted]
    exact congrArg (· + bytes.length) htotal

theorem Going.write (h : c.Going S) {k : ℕ} {left got : List UInt8}
    (hstage : c.stage = .writing n left) (hgot : c.writer.Receiving got)
    (hwriter : writer.Receiving (got ++ left.take k)) (hk : k ≤ left.length) :
    ({ c with writer := writer, stage := .writing n (left.drop k) }).Going S := by
  obtain ⟨got', hreceiving, hS, htotal⟩ := h.receiving
  obtain rfl : got' = got := hreceiving.accepted_eq.symm.trans hgot.accepted_eq
  rw [hstage] at hS htotal
  refine ⟨h.chunked, ⟨_, hwriter, ?_, ?_⟩, nofun⟩
  · change S = got' ++ left.take k ++ (left.drop k ++ c.reader.rest)
    rw [append_assoc, ← append_assoc (left.take k), take_append_drop]
    exact hS
  · change c.total + n = (got' ++ left.take k).length + (left.drop k).length
    change c.total + n = got'.length + left.length at htotal
    rw [length_append, length_take, length_drop, Nat.min_eq_left hk]
    omega

theorem Going.finish (h : c.Going S) (hstage : c.stage = .flushing) :
    Loop.Goes (Going S) waits (fun c => Completed S c.writer) c c.finish.1 (some c.finish.2) := by
  obtain ⟨got, hreceiving, hS, htotal⟩ := h.receiving
  obtain rfl : S = got := by
    rw [hS, hstage, h.ended hstage]
    exact append_nil got
  have hcount : c.total = S.length := by
    rw [hstage] at htotal
    exact htotal
  refine goes_flushThenOk hreceiving hcount Copy.writer (fun v => { c with writer := v })
    (fun _ => rfl) (fun v hv => ?_) (fun v hless => ?_)
  · exact ⟨h.chunked, ⟨S, hv, hS, htotal⟩, h.ended⟩
  · exact Nat.add_lt_add_left hless _

theorem Going.pass (h : c.Going S) (hpass : c.pass = (c', result)) :
    Loop.Goes (Going S) waits (fun c => Completed S c.writer) c c' result := by
  obtain ⟨got, hreceiving, hS, htotal⟩ := h.receiving
  have hroom : 0 < bufLen := Nat.zero_lt_succ _
  cases passes_of_pass hpass with
  | waits hstage hread =>
    cases h.chunked.of_pollRead hroom hread with
    | pending hc hrest hless =>
      refine .pending ⟨hc, ⟨got, hreceiving, ?_, htotal⟩, fun hf => ?_⟩
        (Nat.add_lt_add_right hless _)
      · exact hrest.symm ▸ hS
      · exact absurd (hstage.symm.trans hf) nofun
  | failed hstage hread => cases h.chunked.of_pollRead hroom hread
  | ended hstage hread =>
    cases h.chunked.of_pollRead hroom hread with
    | ended hc _ hrest' hle =>
      exact .on (h.read hstage hread hc rfl rfl fun _ => hrest') (Nat.add_le_add_right hle _)
    | gave hc hne _ _ => exact absurd rfl hne
  | filled hstage hread hne =>
    cases h.chunked.of_pollRead hroom hread with
    | ended => exact absurd rfl hne
    | gave hc _ _ hle =>
      exact .on (h.read hstage hread hc rfl rfl nofun) (Nat.add_le_add_right hle _)
  | written hstage =>
    rw [hstage] at hS htotal
    exact .on ⟨h.chunked, ⟨got, hreceiving, hS, htotal⟩, nofun⟩ (Nat.le_refl _)
  | blocked hstage hne hwrite =>
    cases hreceiving.of_pollWrite hne hwrite with
    | pending hreceiving' hless =>
      exact .pending ⟨h.chunked, ⟨got, hreceiving', hS, htotal⟩, h.ended⟩
        (Nat.add_lt_add_left hless _)
  | refused hstage hne hwrite hanswer hcount =>
    cases hreceiving.of_pollWrite hne hwrite with
    | pending _ _ => exact absurd rfl hanswer
    | took _ hpos _ _ => exact absurd hcount (Nat.ne_of_gt hpos)
  | sent hstage hne hwrite _ =>
    cases hreceiving.of_pollWrite hne hwrite with
    | took hreceiving' _ hk hle =>
      exact .on (h.write hstage hreceiving hreceiving' hk) (Nat.add_le_add_left hle _)
  | flush hstage => exact h.finish hstage

theorem Going.await (h : c.Going S) {polls : ℕ} (hpolls : c.waits < polls) :
    ∃ c' result, Loop.await poll polls c = some (c', result) ∧ Completed S c'.writer result :=
  Loop.await_of_goes (I := Going S) (fun _ _ _ h hpass => h.pass hpass)
    (fun c c' _ hpass => (falls c c' trivial hpass).2) h hpolls

end Copy

/-! ## `copy_buf` -/

namespace CopyBuf

variable {c c' : CopyBuf} {result : Option (Poll ℕ)} {S : List UInt8}

/-- The same for `copy_buf`. -/
structure Going (S : List UInt8) (c : CopyBuf) : Prop extends Held [] [] c where
  fed : c.reader.Fed
  receiving : ∃ got, c.writer.Receiving got ∧ S = got ++ c.reader.rest.drop c.pos ∧
    c.amt = got.length
  ended : c.readDone = true → c.reader.rest = []

def waits (c : CopyBuf) : ℕ := c.reader.inner.script.length + c.writer.waits

variable {writer : Writer}

theorem Going.start {capacity : ℕ} (hcapacity : 0 < capacity) {script : List (Poll (List UInt8))}
    (hscript : (Source.ofScript script).Chunked) (hwriter : writer.Receiving []) :
    (start (.withCapacity capacity (.ofScript script)) writer).Going
      (BufReader.withCapacity capacity (.ofScript script)).rest := by
  have hheld := Held.start (BufReader.Sound.withCapacity capacity script) writer
  rw [hwriter.accepted_eq] at hheld
  exact ⟨hheld, .withCapacity hcapacity hscript, ⟨[], hwriter, rfl, rfl⟩, nofun⟩

theorem Going.finish (h : c.Going S) (hdone : c.readDone) :
    Loop.Goes (Going S) waits (fun c => Completed S c.writer) c c.finish.1 (some c.finish.2) := by
  obtain ⟨got, hreceiving, hS, hamt⟩ := h.receiving
  obtain rfl : S = got := by
    rw [hS, h.ended hdone, drop_nil, append_nil]
  refine goes_flushThenOk hreceiving hamt CopyBuf.writer (fun v => { c with writer := v })
    (fun _ => rfl) (fun v hv => ?_) (fun v hless => ?_)
  · have haccepted := hv.accepted_eq.trans hreceiving.accepted_eq.symm
    exact ⟨h.toHeld.withWriter haccepted, h.fed, ⟨S, hv, hS, hamt⟩, h.ended⟩
  · exact Nat.add_lt_add_left hless _

variable {reader : BufReader} {n : ℕ} {got : List UInt8}

theorem Going.of_pollFillBuf (h : c.Going S) {answer : Poll (List UInt8)}
    (hfill : c.reader.pollFillBuf = (reader, answer)) (hfed : reader.Fed) :
    ({ c with reader := reader }).Going S := by
  obtain ⟨got, hreceiving, hS, hamt⟩ := h.receiving
  have hrest := rest_of_pollFillBuf hfill
  refine ⟨h.toHeld.of_pollFillBuf hfill, hfed, ⟨got, hreceiving, ?_, hamt⟩, fun hdone => ?_⟩
  · exact hrest.symm ▸ hS
  · exact hrest.trans (h.ended hdone)

theorem rest_drop_eq (c : CopyBuf) (hn : c.pos + n ≤ c.reader.unread.length) :
    c.reader.rest.drop c.pos =
      (c.reader.unread.drop c.pos).take n ++ c.reader.rest.drop (c.pos + n) := by
  rw [BufReader.rest, drop_append_of_le_length (by omega), drop_append_of_le_length hn,
    ← append_assoc, ← drop_drop, take_append_drop]

theorem Going.advance (h : c.Going S) (hdone : c.readDone = false) (hgot : c.writer.Receiving got)
    (hwriter : writer.Receiving (got ++ (c.reader.unread.drop c.pos).take n))
    (hn : n ≤ (c.reader.unread.drop c.pos).length) (hpos : c.pos < c.reader.unread.length) :
    (({ c with writer := writer }).advance n c.reader.unread.length).Going S := by
  obtain ⟨got', hreceiving, hS, hamt⟩ := h.receiving
  obtain rfl : got' = got := hreceiving.accepted_eq.symm.trans hgot.accepted_eq
  have haccepted : writer.accepted = c.writer.accepted ++ (c.reader.unread.drop c.pos).take n := by
    rw [hwriter.accepted_eq, hgot.accepted_eq]
  have hheld := h.toHeld.advance hdone hn haccepted
  have hle : c.pos + n ≤ c.reader.unread.length := by
    rw [length_drop] at hn
    omega
  have hamt' : c.amt + n = (got' ++ (c.reader.unread.drop c.pos).take n).length := by
    rw [length_append, length_take, Nat.min_eq_left hn, hamt]
  rw [rest_drop_eq c hle, ← append_assoc] at hS
  rw [CopyBuf.advance] at hheld ⊢
  dsimp only at hheld ⊢
  split at hheld
  next hall =>
    rw [if_pos hall]
    refine ⟨hheld, h.fed.consume _, ⟨_, hwriter, ?_, hamt'⟩, fun hd => ?_⟩
    · have hconsume := rest_consume h.fed.toInOrder (c.pos + n)
      have hlen : (c.reader.unread.take (c.pos + n)).length = c.pos + n := by
        rw [length_take, Nat.min_eq_left hle]
      rw [hconsume, drop_left' hlen] at hS
      exact hS
    · cases hdone.symm.trans hd
  next hsome =>
    rw [if_neg hsome]
    exact ⟨hheld, h.fed, ⟨_, hwriter, hS, hamt'⟩,
      fun hd => absurd (hdone.symm.trans hd) Bool.false_ne_true⟩

theorem Going.setReadDone (h : c.Going S) (hrest : c.reader.rest = []) :
    ({ c with readDone := true }).Going S := by
  have hunread : c.reader.unread = [] := (append_eq_nil_iff.mp hrest).1
  exact ⟨(h.toHeld.setReadDone hunread).1, h.fed, h.receiving, fun _ => hrest⟩

theorem Going.withWriter (h : c.Going S)
    (hgot : c.writer.Receiving got) (hwriter : writer.Receiving got) :
    ({ c with writer := writer }).Going S := by
  obtain ⟨got', hreceiving, hS, hamt⟩ := h.receiving
  obtain rfl : got' = got := hreceiving.accepted_eq.symm.trans hgot.accepted_eq
  have haccepted := hwriter.accepted_eq.trans hgot.accepted_eq.symm
  exact ⟨h.toHeld.withWriter haccepted, h.fed, ⟨got', hwriter, hS, hamt⟩, h.ended⟩

theorem Going.pos_lt_of_ne (h : c.Going S) (hne : c.reader.unread ≠ []) :
    c.pos < c.reader.unread.length := by
  have hlen := length_pos_iff.mpr hne
  have := h.pos_lt
  omega

theorem Going.writes (h : c.Going S) {available : List UInt8}
    {answer : Poll ℕ} (hfill : c.reader.pollFillBuf = (reader, .ready (.ok available)))
    (hne : available ≠ []) (hwrite : c.writer.pollWrite (available.drop c.pos) = (writer, answer)) :
    ({ c with reader := reader }).Going S ∧ available = reader.unread ∧
      reader.inner.script.length ≤ c.reader.inner.script.length ∧
      ∃ got, c.writer.Receiving got ∧
        Sink.Writes got (available.drop c.pos) c.writer writer answer := by
  cases h.fed.of_pollFillBuf hfill with
  | ok hfed hunread hle _ =>
    have hfilled := h.of_pollFillBuf hfill hfed
    have hdata : available.drop c.pos ≠ [] := by
      rw [ne_eq, drop_eq_nil_iff, Nat.not_le, hunread]
      exact hfilled.pos_lt_of_ne (hunread ▸ hne)
    obtain ⟨got, hreceiving, -⟩ := h.receiving
    exact ⟨hfilled, hunread, hle, got, hreceiving, hreceiving.of_pollWrite hdata hwrite⟩

theorem waits_advance (c : CopyBuf) (n available : ℕ) :
    (c.advance n available).waits = c.waits := by
  rw [CopyBuf.advance]
  split <;> rfl

theorem Going.pass (h : c.Going S) (hpass : c.pass = (c', result)) :
    Loop.Goes (Going S) waits (fun c => Completed S c.writer) c c' result := by
  cases passes_of_pass hpass with
  | flush hdone => exact h.finish hdone
  | ended hfill =>
    cases h.fed.of_pollFillBuf hfill with
    | ok hfed _ hle hend =>
      have hrest := (rest_of_pollFillBuf hfill).trans (hend rfl)
      have hended := (h.of_pollFillBuf hfill hfed).setReadDone hrest
      exact (hended.finish rfl).of_le (Nat.add_le_add_right hle _)
  | waits hfill =>
    cases h.fed.of_pollFillBuf hfill with
    | pending hfed hless =>
      exact .pending (h.of_pollFillBuf hfill hfed) (Nat.add_lt_add_right hless _)
  | failed hfill => cases h.fed.of_pollFillBuf hfill
  | blocked hfill hne hwrite =>
    obtain ⟨hfilled, -, hle, got, hreceiving, hwrites⟩ := h.writes hfill hne hwrite
    cases hwrites with
    | pending hreceiving' hless =>
      exact .pending (hfilled.withWriter hreceiving hreceiving')
        (Nat.add_lt_add_of_le_of_lt hle hless)
  | refused hfill hne hwrite hanswer hcount =>
    obtain ⟨-, -, -, got, -, hwrites⟩ := h.writes hfill hne hwrite
    cases hwrites with
    | pending _ _ => exact absurd rfl hanswer
    | took _ hpos _ _ => exact absurd hcount (Nat.ne_of_gt hpos)
  | sent hdone hfill hne hwrite _ =>
    obtain ⟨hfilled, hunread, hle, got, hreceiving, hwrites⟩ := h.writes hfill hne hwrite
    subst hunread
    cases hwrites with
    | took hreceiving' _ hn hle' =>
      refine .on (hfilled.advance hdone hreceiving hreceiving' hn (hfilled.pos_lt_of_ne hne)) ?_
      rw [waits_advance]
      exact Nat.add_le_add hle hle'

theorem Going.await (h : c.Going S) {polls : ℕ} (hpolls : c.waits < polls) :
    ∃ c' result, Loop.await poll polls c = some (c', result) ∧ Completed S c'.writer result :=
  Loop.await_of_goes (I := Going S) (fun _ _ _ h hpass => h.pass hpass)
    (fun c c' h hpass => (falls c c' h.toHeld hpass).2) h hpolls

end CopyBuf

/-! ## Both -/

/-- **`copy` and `copy_buf` agree.**  Take any stream, cut into chunks in any two ways, any
capacity above zero, and any two writers that take a byte at least whenever they take anything and
never fail.  Both calls return the length of the stream; the writer has got the stream, and then
the only flush. -/
theorem copy_and_copyBuf_agree (S : List UInt8) (reads reads' : List (Poll (List UInt8)))
    (hreads : (Source.ofScript reads).Chunked ∧ (Source.ofScript reads).rest = S)
    (hreads' : (Source.ofScript reads').Chunked ∧ (Source.ofScript reads').rest = S)
    (capacity : ℕ) (hcapacity : 0 < capacity) (writes writes' : List (Poll ℕ))
    (flushes flushes' shutdowns shutdowns' : List (Poll Unit))
    (hwriter : (Sink.ofScripts writes flushes shutdowns : Writer).Willing)
    (hwriter' : (Sink.ofScripts writes' flushes' shutdowns' : Writer).Willing) :
    (∀ polls, reads.length + writes.length + flushes.length < polls →
      ∃ c, Loop.await Copy.poll polls
          (.start (.ofScript reads) (.ofScripts writes flushes shutdowns)) =
            some (c, .ok S.length) ∧ c.writer.Flushed S) ∧
    ∀ polls, reads'.length + writes'.length + flushes'.length < polls →
      ∃ c, Loop.await CopyBuf.poll polls (.start (.withCapacity capacity (.ofScript reads'))
            (.ofScripts writes' flushes' shutdowns')) =
            some (c, .ok S.length) ∧ c.writer.Flushed S := by
  constructor <;> intro polls hpolls
  · have hgoing := Copy.Going.start hreads.1 (.ofScripts hwriter)
    rw [hreads.2] at hgoing
    rw [Nat.add_assoc] at hpolls
    obtain ⟨c, result, hawait, rfl, hflushed⟩ := hgoing.await hpolls
    exact ⟨c, hawait, hflushed⟩
  · have hgoing := CopyBuf.Going.start hcapacity hreads'.1 (.ofScripts hwriter')
    have hrest : (BufReader.withCapacity capacity (.ofScript reads')).rest = S := by
      rw [BufReader.rest, unread_of_cap_le (Nat.le_refl _)]
      exact hreads'.2
    rw [hrest] at hgoing
    rw [Nat.add_assoc] at hpolls
    obtain ⟨c, result, hawait, rfl, hflushed⟩ := hgoing.await hpolls
    exact ⟨c, hawait, hflushed⟩

theorem copy_and_copyBuf_agree_of_five :
    (∃ c, Loop.await Copy.poll 9 (.start (.ofScript [.ready (.ok [1, 2, 3]), .pending,
        .ready (.ok [4, 5])]) (.ofScripts [.ready (.ok 1), .pending, .ready (.ok 2)]
          [.pending] [])) = some (c, .ok 5) ∧ c.writer.Flushed [1, 2, 3, 4, 5]) ∧
    ∃ c, Loop.await CopyBuf.poll 9 (.start (.withCapacity 2 (.ofScript [.pending,
        .ready (.ok [1, 2, 3, 4, 5])])) (.ofScripts [.ready (.ok 1), .pending] [] [])) =
          some (c, .ok 5) ∧ c.writer.Flushed [1, 2, 3, 4, 5] := by
  have hboth := copy_and_copyBuf_agree [1, 2, 3, 4, 5]
    [.ready (.ok [1, 2, 3]), .pending, .ready (.ok [4, 5])]
    [.pending, .ready (.ok [1, 2, 3, 4, 5])] ⟨by decide, rfl⟩ ⟨by decide, rfl⟩ 2 (by decide)
    [.ready (.ok 1), .pending, .ready (.ok 2)] [.ready (.ok 1), .pending] [.pending] [] [] []
    ⟨by decide, by decide⟩ ⟨by decide, by decide⟩
  exact ⟨hboth.1 9 (by decide), hboth.2 9 (by decide)⟩

end RustyTokio.AsyncIo

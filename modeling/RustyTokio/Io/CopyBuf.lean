import RustyTokio.Io.Buffered
import RustyTokio.Transition.Loop
import RustyTokio.Transition.System

/-!
# `copy_buf`: out of the reader's own buffer

`copy_buf` (`io/async_io.rs`) writes what `poll_fill_buf` returns without copying it first.  How far
a chunk is written is kept in a local, `pos`, and the chunk is consumed when all of it is written.
`amt` is a natural number here, not a `u64`: no stream has `2 ^ 64` bytes.

## Main results

* `Held.pass`, `Held.poll`: what was written is what was consumed and `pos` bytes of the chunk.
* `Held.breaksOff_last`: which last pass ends the call inside a chunk.
* `consumes_iff_not_cuts`: a call consumes what it writes unless it ends inside a chunk.
-/

namespace RustyTokio.AsyncIo

open Transition List Option BufReader
open Transition.Script (Source Sink)

/-- The end of the call: the writer is flushed, and then the count returned. -/
def flushThenOk (writer : Writer) (amt : ℕ) : Writer × Poll ℕ :=
  match writer.pollFlush with
  | (writer, .ready (.ok ())) => (writer, .ready (.ok amt))
  | (writer, .ready (.error e)) => (writer, .ready (.error e))
  | (writer, .pending) => (writer, .pending)

theorem flushThenOk_fst (writer : Writer) (amt : ℕ) :
    (flushThenOk writer amt).1 = writer.pollFlush.1 := by
  rw [flushThenOk]
  rcases writer.pollFlush with ⟨writer', _ | _ | _⟩ <;> rfl

/-- What the closure of `copy_buf` keeps between two polls. -/
structure CopyBuf where
  reader : BufReader
  writer : Writer
  pos : ℕ
  readDone : Bool
  amt : ℕ
  deriving DecidableEq

namespace CopyBuf

def start (reader : BufReader) (writer : Writer) : CopyBuf := ⟨reader, writer, 0, false, 0⟩

/-- After a write of `n` bytes: the chunk is consumed if that was all of it. -/
def advance (c : CopyBuf) (n available : ℕ) : CopyBuf :=
  if c.pos + n = available then
    { c with reader := c.reader.consume (c.pos + n), pos := 0, amt := c.amt + n }
  else { c with pos := c.pos + n, amt := c.amt + n }

/-- One write of the rest of the chunk. -/
def send (c : CopyBuf) (available : List UInt8) : CopyBuf × Option (Poll ℕ) :=
  match c.writer.pollWrite (available.drop c.pos) with
  | (writer, .ready (.ok 0)) =>
    ({ c with writer := writer }, some (.ready (.error (.writeZero "write zero byte into writer"))))
  | (writer, .ready (.ok n)) => (({ c with writer := writer }).advance n available.length, none)
  | (writer, .ready (.error e)) => ({ c with writer := writer }, some (.ready (.error e)))
  | (writer, .pending) => ({ c with writer := writer }, some .pending)

/-- The pass that finds `read_done` set. -/
def finish (c : CopyBuf) : CopyBuf × Poll ℕ :=
  ({ c with writer := (flushThenOk c.writer c.amt).1 }, (flushThenOk c.writer c.amt).2)

/-- One pass of the `loop`: `none` if it goes on. -/
def pass (c : CopyBuf) : CopyBuf × Option (Poll ℕ) :=
  if c.readDone then
    (c.finish.1, some c.finish.2)
  else
    match c.reader.pollFillBuf with
    | (reader, .ready (.ok [])) =>
      (({ c with reader := reader, readDone := true }).finish.1,
        some ({ c with reader := reader, readDone := true }).finish.2)
    | (reader, .ready (.ok available)) => ({ c with reader := reader }).send available
    | (reader, .ready (.error e)) => ({ c with reader := reader }, some (.ready (.error e)))
    | (reader, .pending) => ({ c with reader := reader }, some .pending)

/-- The bytes that the loop has still to write: they fall with every pass. -/
def left (c : CopyBuf) : ℕ := c.reader.rest.length - c.pos

def poll (c : CopyBuf) : CopyBuf × Poll ℕ := Loop.poll pass left c

/-! ## One pass -/

variable {c c' : CopyBuf} {result : Option (Poll ℕ)}

/-- All that a pass can do. -/
inductive Passes (c : CopyBuf) : CopyBuf → Option (Poll ℕ) → Prop where
  | flush (hdone : c.readDone) : Passes c c.finish.1 (some c.finish.2)
  | ended {reader} (hfill : c.reader.pollFillBuf = (reader, .ready (.ok []))) :
      Passes c ({ c with reader := reader, readDone := true }).finish.1
        (some ({ c with reader := reader, readDone := true }).finish.2)
  | waits {reader} (hfill : c.reader.pollFillBuf = (reader, .pending)) :
      Passes c { c with reader := reader } (some .pending)
  | failed {reader e}
      (hfill : c.reader.pollFillBuf = (reader, .ready (.error e))) :
      Passes c { c with reader := reader } (some (.ready (.error e)))
  | blocked {reader available writer}
      (hfill : c.reader.pollFillBuf = (reader, .ready (.ok available))) (hne : available ≠ [])
      (hwrite : c.writer.pollWrite (available.drop c.pos) = (writer, .pending)) :
      Passes c { c with reader := reader, writer := writer } (some .pending)
  | refused {reader available writer answer}
      {e : Error} (hfill : c.reader.pollFillBuf = (reader, .ready (.ok available)))
      (hne : available ≠ [])
      (hwrite : c.writer.pollWrite (available.drop c.pos) = (writer, answer))
      (hanswer : answer ≠ .pending) (hcount : answer.count = 0) :
      Passes c { c with reader := reader, writer := writer } (some (.ready (.error e)))
  | sent {reader available writer n}
      (hdone : c.readDone = false)
      (hfill : c.reader.pollFillBuf = (reader, .ready (.ok available))) (hne : available ≠ [])
      (hwrite : c.writer.pollWrite (available.drop c.pos) = (writer, .ready (.ok n)))
      (hpos : 0 < n) :
      Passes c (({ c with reader := reader, writer := writer }).advance n available.length) none

variable {reader : BufReader} {writer : Writer}

theorem passes_of_send {available : List UInt8} (hdone : c.readDone = false)
    (hfill : c.reader.pollFillBuf = (reader, .ready (.ok available))) (hne : available ≠ [])
    (h : ({ c with reader := reader }).send available = (c', result)) : Passes c c' result := by
  rw [send] at h
  rcases hwrite : c.writer.pollWrite (available.drop c.pos) with ⟨writer, _ | e | _ | n⟩ <;>
    rw [hwrite] at h <;> cases h
  · exact .blocked hfill hne hwrite
  · exact .refused hfill hne hwrite nofun rfl
  · exact .refused hfill hne hwrite nofun rfl
  · exact .sent hdone hfill hne hwrite (Nat.succ_pos n)

theorem passes_of_pass (h : c.pass = (c', result)) : Passes c c' result := by
  rw [pass] at h
  by_cases hdone : c.readDone
  · rw [if_pos hdone] at h
    cases h
    exact .flush hdone
  · rw [if_neg hdone] at h
    rcases hfill : c.reader.pollFillBuf with ⟨reader, _ | e | _ | ⟨x, available⟩⟩ <;>
      rw [hfill] at h
    · cases h
      exact .waits hfill
    · cases h
      exact .failed hfill
    · cases h
      exact .ended hfill
    · exact passes_of_send (Bool.eq_false_iff.mpr hdone) hfill (cons_ne_nil _ _) h

/-! ## What a call holds -/

/-- The invariant of a call.  The reader had handed out `consumed` and the writer had `accepted`
when it began; since then the writer got what was consumed and the first `pos` bytes of the chunk.
-/
structure Held (consumed accepted : List UInt8) (c : CopyBuf) : Prop where
  pos_lt : c.pos = 0 ∨ c.pos < c.reader.unread.length
  pos_of_readDone : c.readDone = true → c.pos = 0
  agrees : ∃ new, c.reader.Sound (consumed ++ new) ∧
    c.writer.accepted = accepted ++ (new ++ c.reader.unread.take c.pos)

variable {consumed accepted : List UInt8}

theorem Held.start (h : reader.Sound consumed) (writer : Writer) :
    (start reader writer).Held consumed writer.accepted :=
  ⟨.inl rfl, fun _ => rfl, [], (append_nil consumed).symm ▸ h, (append_nil _).symm⟩

section

variable (h : c.Held consumed accepted)

include h

theorem Held.inOrder : c.reader.InOrder := by
  obtain ⟨new, hsound, -⟩ := h.agrees
  exact hsound.toInOrder

theorem Held.of_pollFillBuf
    {answer : Poll (List UInt8)} (hfill : c.reader.pollFillBuf = (reader, answer)) :
    ({ c with reader := reader }).Held consumed accepted := by
  obtain ⟨new, hsound, haccepted⟩ := h.agrees
  rcases h.pos_lt with hzero | hlt
  · refine ⟨.inl hzero, h.pos_of_readDone, new, hsound.of_pollFillBuf hfill, ?_⟩
    dsimp only
    rw [hzero] at haccepted ⊢
    exact haccepted
  · have hne : c.reader.unread ≠ [] := ne_nil_of_length_pos (Nat.zero_lt_of_lt hlt)
    rw [pollFillBuf_of_unread hne] at hfill
    cases hfill
    exact h

theorem Held.withWriter (hwriter : writer.accepted = c.writer.accepted) :
    ({ c with writer := writer }).Held consumed accepted := by
  obtain ⟨new, hsound, haccepted⟩ := h.agrees
  exact ⟨h.pos_lt, h.pos_of_readDone, new, hsound, hwriter.trans haccepted⟩

theorem Held.finish : c.finish.1.Held consumed accepted := by
  refine h.withWriter ?_
  rw [flushThenOk_fst]
  exact c.writer.accepted_pollFlush

theorem Held.setReadDone (hempty : c.reader.unread = []) :
    ({ c with readDone := true }).Held consumed accepted ∧ c.pos = 0 := by
  have hzero : c.pos = 0 := by
    rcases h.pos_lt with hzero | hlt
    · exact hzero
    · rw [hempty] at hlt
      cases hlt
  exact ⟨⟨h.pos_lt, fun _ => hzero, h.agrees⟩, hzero⟩

theorem Held.advance (hdone : c.readDone = false) {n : ℕ}
    (hn : n ≤ (c.reader.unread.drop c.pos).length)
    (hwriter : writer.accepted = c.writer.accepted ++ (c.reader.unread.drop c.pos).take n) :
    (({ c with writer := writer }).advance n c.reader.unread.length).Held consumed accepted := by
  obtain ⟨new, hsound, haccepted⟩ := h.agrees
  have htaken : writer.accepted = accepted ++ (new ++ c.reader.unread.take (c.pos + n)) := by
    rw [hwriter, haccepted, take_add, append_assoc, append_assoc]
  rw [length_drop] at hn
  rw [CopyBuf.advance]
  split
  next hall =>
    refine ⟨.inl rfl, fun _ => rfl, new ++ c.reader.unread.take (c.pos + n), ?_, ?_⟩
    · rw [← append_assoc]
      exact hsound.consume _
    · rw [take_zero, append_nil]
      exact htaken
  next hsome =>
    refine ⟨?_, fun hd => absurd (hdone.symm.trans hd) nofun, new, hsound, htaken⟩
    change c.pos + n = 0 ∨ c.pos + n < c.reader.unread.length
    change ¬ c.pos + n = c.reader.unread.length at hsome
    have := h.pos_lt
    omega

/-- What a pass preserves; one that returns `Ok` leaves no chunk half written. -/
theorem Held.pass (hpass : c.pass = (c', result)) :
    c'.Held consumed accepted ∧ ∀ amt, result = some (.ready (.ok amt)) → c'.pos = 0 := by
  cases passes_of_pass hpass with
  | flush hdone => exact ⟨h.finish, fun _ _ => h.pos_of_readDone hdone⟩
  | ended hfill =>
    obtain ⟨hheld, hzero⟩ :=
      (h.of_pollFillBuf hfill).setReadDone (unread_of_pollFillBuf hfill)
    exact ⟨hheld.finish, fun _ _ => hzero⟩
  | waits hfill | failed hfill => exact ⟨h.of_pollFillBuf hfill, by simp⟩
  | blocked hfill _ hwrite =>
    have haccepted := (Sink.accepted_of_pollWrite hwrite).1
    rw [Script.Poll.count_pending, take_zero, append_nil] at haccepted
    exact ⟨(h.of_pollFillBuf hfill).withWriter haccepted, by simp⟩
  | refused hfill _ hwrite _ hcount =>
    have haccepted := (Sink.accepted_of_pollWrite hwrite).1
    rw [hcount, take_zero, append_nil] at haccepted
    exact ⟨(h.of_pollFillBuf hfill).withWriter haccepted, by simp⟩
  | sent hdone hfill _ hwrite hpos =>
    obtain rfl := unread_of_pollFillBuf hfill
    obtain ⟨haccepted, hcount⟩ := Sink.accepted_of_pollWrite hwrite
    exact ⟨(h.of_pollFillBuf hfill).advance hdone hcount haccepted, by simp⟩

end

/-! ## Where a call breaks off -/

/-- A pass begins inside a chunk, and the writer fails or takes nothing. -/
def breaksOff (c : CopyBuf) : Bool :=
  let answer := (c.writer.pollWrite (c.reader.unread.drop c.pos)).2
  decide (c.pos ≠ 0) && decide (answer ≠ .pending) && decide (answer.count = 0)

theorem Held.breaksOff_iff (h : c.Held consumed accepted) {answer : Poll ℕ}
    (hpass : c.pass = (c', some answer)) : c.breaksOff ↔ answer ≠ .pending ∧ c'.pos ≠ 0 := by
  by_cases hzero : c.pos = 0
  · -- a pass that ends the poll leaves `pos` where it is
    have hpos : c'.pos = c.pos := by cases passes_of_pass hpass <;> rfl
    simp [breaksOff, hpos, hzero]
  · have hne : c.reader.unread ≠ [] :=
      ne_nil_of_length_pos (Nat.zero_lt_of_lt (h.pos_lt.resolve_left hzero))
    have hunread := pollFillBuf_of_unread hne
    cases passes_of_pass hpass with
    | flush hdone => exact absurd (h.pos_of_readDone hdone) hzero
    | ended hfill => simp [hunread, hne] at hfill
    | waits hfill | failed hfill => cases hunread.symm.trans hfill
    | blocked hfill _ hwrite =>
      cases hunread.symm.trans hfill
      simp [breaksOff, hwrite]
    | refused hfill _ hwrite hanswer hcount =>
      cases hunread.symm.trans hfill
      simp [breaksOff, hwrite, hanswer, hcount, hzero]

/-! ## The loop -/

theorem falls : Loop.Falls pass left (Held consumed accepted) := by
  intro c c' h hpass
  refine ⟨(h.pass hpass).1, ?_⟩
  cases passes_of_pass hpass with
  | @sent reader _ writer n hdone hfill hne hwrite hpos =>
    have hfilled := h.of_pollFillBuf hfill
    obtain rfl := unread_of_pollFillBuf hfill
    have hcount := (Sink.accepted_of_pollWrite hwrite).2
    rw [Script.Poll.count_ok, length_drop] at hcount
    have hlen := congrArg List.length (rest_consume hfilled.inOrder (c.pos + n))
    have hle : reader.unread.length ≤ reader.rest.length := by
      rw [BufReader.rest, length_append]
      omega
    rw [left, left, ← rest_of_pollFillBuf hfill, advance]
    dsimp only
    split
    · rw [length_append, length_take] at hlen
      dsimp only at hlen ⊢
      omega
    · dsimp only
      omega

theorem poll_eq (h : c.Held consumed accepted) : c.poll = match c.pass with
      | (c, some answer) => (c, answer)
      | (c, none) => c.poll := by
  rw [poll, Loop.poll_eq falls h]
  rcases c.pass with ⟨c', _ | answer⟩ <;> rfl

theorem Held.poll (h : c.Held consumed accepted) :
    c.poll.1.Held consumed accepted ∧ ∀ amt, c.poll.2 = .ready (.ok amt) → c.poll.1.pos = 0 := by
  refine Loop.poll_spec
    (Q := fun c answer => c.Held consumed accepted ∧ ∀ amt, answer = .ready (.ok amt) → c.pos = 0)
    falls (fun c c' answer h hpass => ?_) h
  obtain ⟨hheld, hzero⟩ := h.pass hpass
  exact ⟨hheld, fun amt hanswer => hzero amt (congrArg some hanswer)⟩

theorem Held.breaksOff_last (h : c.Held consumed accepted) :
    (Loop.last CopyBuf.pass (c.left + 1) c).breaksOff ↔ c.poll.2 ≠ .pending ∧ c.poll.1.pos ≠ 0 := by
  obtain ⟨hheld, hpass⟩ := Loop.pass_last falls h (Nat.lt_succ_self _)
  exact hheld.breaksOff_iff hpass

theorem Held.exists_taken (h : c.Held consumed accepted) : ∃ new front,
    c.reader.taken = consumed ++ new ∧ c.writer.accepted = accepted ++ (new ++ front) ∧
      front.length = c.pos := by
  obtain ⟨new, hsound, haccepted⟩ := h.agrees
  refine ⟨new, c.reader.unread.take c.pos, hsound.taken_eq, haccepted, ?_⟩
  rw [length_take]
  rcases h.pos_lt with hzero | hlt
  · rw [hzero, Nat.zero_min]
  · exact Nat.min_eq_left (Nat.le_of_lt hlt)

/-! ## One call after the other -/

namespace Calls

/-- A call, live or ended, and what was consumed and accepted before it. -/
structure World where
  call : CopyBuf
  active : Bool
  consumed : List UInt8
  accepted : List UInt8
  deriving DecidableEq

/-- A call begins, is polled, or is dropped. -/
inductive Label where
  | start
  | poll
  | drop
  deriving DecidableEq

/-- A poll that is ready ends the call. -/
def World.step (w : World) : Label → Option World
  | .start =>
    if w.active = false then
      some ⟨.start w.call.reader w.call.writer, true, w.call.reader.taken, w.call.writer.accepted⟩
    else none
  | .poll =>
    if w.active then
      some { w with call := w.call.poll.1, active := decide (w.call.poll.2 = .pending) }
    else none
  | .drop => if w.active then some { w with active := false } else none

/-- Calls of `copy_buf`, one after the other, on one reader and one writer. -/
def calls (capacity : ℕ) (reads : List (Poll (List UInt8))) (writes : List (Poll ℕ))
    (flushes shutdowns : List (Poll Unit)) : System World Label where
  init := ⟨.start (.withCapacity capacity (.ofScript reads)) (.ofScripts writes flushes shutdowns),
    false, [], []⟩
  step := World.step

namespace World

variable {w v : World} {l : Label}

/-- The call ends with a chunk written in part: it is dropped there, or the last pass of the poll
breaks off there. -/
def cuts (w : World) : Label → Bool
  | .start => false
  | .poll => (Loop.last pass (w.call.left + 1) w.call).breaksOff
  | .drop => decide (w.call.pos ≠ 0)

theorem held_of_step (hheld : w.call.Held w.consumed w.accepted) (hactive : w.active)
    (h : w.step l = some v) :
    (v.call.Held w.consumed w.accepted ∧ v.consumed = w.consumed ∧ v.accepted = w.accepted) ∧
      (w.cuts l → v.active = false) ∧
      (v.active = false → (w.cuts l ↔ v.call.pos ≠ 0)) := by
  cases l with
  | start => exact absurd (hactive.symm.trans (of_guard h).1) nofun
  | poll =>
    obtain ⟨-, rfl⟩ := of_guard h
    rw [cuts, hheld.breaksOff_last]
    exact ⟨⟨hheld.poll.1, rfl, rfl⟩, fun hcuts => decide_eq_false hcuts.1,
      fun hready => and_iff_right (of_decide_eq_false hready)⟩
  | drop =>
    obtain ⟨-, rfl⟩ := of_guard h
    refine ⟨⟨hheld, rfl, rfl⟩, fun _ => rfl, fun _ => ?_⟩
    rw [cuts, decide_eq_true_eq]

/-- The writer has at least `k` bytes more than were consumed. -/
structure Ahead (k : ℕ) (w : World) : Prop where
  sound : ∃ d, w.call.reader.Sound d
  held : w.active = true →
    w.call.Held w.consumed w.accepted ∧ w.consumed.length + k ≤ w.accepted.length
  ahead : w.call.reader.taken.length + k ≤ w.call.writer.accepted.length

theorem Ahead.of_held {k : ℕ} (hheld : w.call.Held w.consumed w.accepted)
    (hbefore : w.consumed.length + k ≤ w.accepted.length) : w.Ahead k := by
  obtain ⟨new, front, htaken, haccepted, -⟩ := hheld.exists_taken
  obtain ⟨_, hsound, -⟩ := hheld.agrees
  refine ⟨⟨_, hsound⟩, fun _ => ⟨hheld, hbefore⟩, ?_⟩
  rw [htaken, haccepted, length_append, length_append, length_append]
  omega

theorem eq_start_of_idle (hidle : w.active = false) (h : w.step l = some v) :
    l = .start ∧ v = ⟨.start w.call.reader w.call.writer, true, w.call.reader.taken,
      w.call.writer.accepted⟩ := by
  cases l with
  | start => exact ⟨rfl, (of_guard h).2.symm⟩
  | poll | drop => exact absurd ((of_guard h).1.symm.trans hidle) nofun

theorem held_start (h : ∃ d, w.call.reader.Sound d) :
    (start w.call.reader w.call.writer).Held w.call.reader.taken w.call.writer.accepted := by
  obtain ⟨d, hsound⟩ := h
  exact .start (hsound.taken_eq.symm ▸ hsound) _

variable {k : ℕ}

theorem Ahead.step (h : w.Ahead k) (hstep : w.step l = some v) : v.Ahead k := by
  cases hactive : w.active with
  | true =>
    obtain ⟨hheld, hbefore⟩ := h.held hactive
    obtain ⟨⟨hheld', hconsumed, haccepted⟩, -⟩ := held_of_step hheld hactive hstep
    rw [← hconsumed, ← haccepted] at hheld' hbefore
    exact .of_held hheld' hbefore
  | false =>
    obtain ⟨rfl, rfl⟩ := eq_start_of_idle hactive hstep
    exact .of_held (held_start h.sound) h.ahead

theorem Ahead.cut (h : w.Ahead k) (hstep : w.step l = some v) (hcuts : w.cuts l) :
    v.Ahead (k + 1) := by
  cases hactive : w.active with
  | true =>
    obtain ⟨hheld, hbefore⟩ := h.held hactive
    obtain ⟨⟨hheld', -⟩, hends, hpos⟩ := held_of_step hheld hactive hstep
    have hidle := hends hcuts
    have hfront := (hpos hidle).mp hcuts
    obtain ⟨new, front, htaken, haccepted, hlen⟩ := hheld'.exists_taken
    obtain ⟨_, hsound, -⟩ := hheld'.agrees
    refine ⟨⟨_, hsound⟩, fun hactive' => absurd (hidle.symm.trans hactive') nofun, ?_⟩
    rw [htaken, haccepted, length_append, length_append, length_append]
    omega
  | false =>
    obtain ⟨rfl, -⟩ := eq_start_of_idle hactive hstep
    exact absurd hcuts nofun

/-- Between two calls the writer has exactly what was consumed. -/
structure Even (w : World) : Prop where
  sound : ∃ d, w.call.reader.Sound d
  held : w.active = true → w.call.Held w.consumed w.accepted ∧ w.accepted = w.consumed
  even : w.active = false → w.call.writer.accepted = w.call.reader.taken

theorem Even.step (h : w.Even) (hstep : w.step l = some v) (hcuts : w.cuts l = false) : v.Even := by
  cases hactive : w.active with
  | true =>
    obtain ⟨hheld, hbefore⟩ := h.held hactive
    obtain ⟨⟨hheld', hconsumed, haccepted⟩, -, hpos⟩ := held_of_step hheld hactive hstep
    obtain ⟨new, front, htaken, haccepted', hlen⟩ := hheld'.exists_taken
    obtain ⟨_, hsound, -⟩ := hheld'.agrees
    refine ⟨⟨_, hsound⟩, fun _ => ?_, fun hidle => ?_⟩
    · rw [hconsumed, haccepted]
      exact ⟨hheld', hbefore⟩
    · have hzero : v.call.pos = 0 := by
        by_contra hne
        exact absurd (((hpos hidle).mpr hne).symm.trans hcuts) nofun
      rw [hzero, length_eq_zero_iff] at hlen
      rw [haccepted', htaken, hbefore, hlen, append_nil]
  | false =>
    obtain ⟨rfl, rfl⟩ := eq_start_of_idle hactive hstep
    exact ⟨h.sound, fun _ => ⟨held_start h.sound, h.even hactive⟩, nofun⟩

variable {capacity : ℕ} {reads : List (Poll (List UInt8))} {writes : List (Poll ℕ)}
  {flushes shutdowns : List (Poll Unit)}

theorem ahead_of_reachable (h : (calls capacity reads writes flushes shutdowns).Reachable w) :
    w.Ahead 0 := by
  refine System.inv_of_reachable (S := calls capacity reads writes flushes shutdowns)
    (I := Ahead 0) ?_ (fun s l t hs ht => hs.step ht) h
  exact ⟨⟨[], BufReader.Sound.withCapacity capacity reads⟩, nofun, Nat.le_of_eq rfl⟩

theorem even_of_reachableUnder (h : (calls capacity reads writes flushes shutdowns).ReachableUnder
      (fun w l => w.cuts l = false) w) : w.Even := by
  refine System.inv_of_reachableUnder (I := Even) ?_ (fun s l t hs hcuts ht => hs.step ht hcuts) h
  exact ⟨⟨[], BufReader.Sound.withCapacity capacity reads⟩, nofun, fun _ => rfl⟩

/-- `copy_buf` consumes what it writes exactly when it does not end with a chunk written in part: a
call does if and only if the step that ends it cuts no chunk, and one that returns `Ok` cuts none.
As long as no call has, the writer has what was consumed; after one that has, it has more. -/
theorem consumes_iff_not_cuts (capacity : ℕ) (reads : List (Poll (List UInt8)))
    (writes : List (Poll ℕ)) (flushes shutdowns : List (Poll Unit)) :
    (∀ w l v, (calls capacity reads writes flushes shutdowns).Reachable w → w.step l = some v →
      w.active = true → v.active = false →
      ∃ consumed accepted, v.call.reader.taken = w.consumed ++ consumed ∧
        v.call.writer.accepted = w.accepted ++ accepted ∧
        (consumed.length = accepted.length ↔ w.cuts l = false) ∧
        (w.cuts l = false → accepted = consumed)) ∧
    (∀ w amt, (calls capacity reads writes flushes shutdowns).Reachable w → w.active = true →
      w.call.poll.2 = .ready (.ok amt) → w.cuts .poll = false) ∧
    (∀ w, (calls capacity reads writes flushes shutdowns).ReachableUnder
        (fun w l => w.cuts l = false) w →
      w.active = false → w.call.writer.accepted = w.call.reader.taken) ∧
    ∀ w l v, (calls capacity reads writes flushes shutdowns).Reachable w → w.step l = some v →
      w.cuts l = true → ∀ ls u, (calls capacity reads writes flushes shutdowns).run v ls = some u →
        u.call.reader.taken.length < u.call.writer.accepted.length := by
  refine ⟨fun w l v hw hstep hactive hidle => ?_, fun w amt hw hactive hok => ?_,
    fun w hw hidle => (even_of_reachableUnder hw).even hidle,
    fun w l v hw hstep hcuts ls u hrun => ?_⟩
  · obtain ⟨hheld, -⟩ := (ahead_of_reachable hw).held hactive
    obtain ⟨⟨hheld', -⟩, -, hpos⟩ := held_of_step hheld hactive hstep
    obtain ⟨new, front, htaken, haccepted, hlen⟩ := hheld'.exists_taken
    have hzero : w.cuts l = false ↔ front.length = 0 := by
      rw [← Bool.not_eq_true, hpos hidle, hlen, not_not]
    refine ⟨new, new ++ front, htaken, haccepted, ?_, fun hcuts => ?_⟩
    · rw [hzero, List.length_append]
      omega
    · rw [List.length_eq_zero_iff.mp (hzero.mp hcuts), List.append_nil]
  · obtain ⟨hheld, -⟩ := (ahead_of_reachable hw).held hactive
    rw [cuts, ← Bool.not_eq_true, hheld.breaksOff_last, hheld.poll.2 amt hok]
    simp
  · have hahead := (ahead_of_reachable hw).cut hstep hcuts
    exact (System.inv_of_any_run (I := Ahead 1) (fun s l t hs ht => hs.step ht) hahead hrun).ahead

theorem consumes_iff_not_cuts_of_three :
    (∃ w, (calls 8 [.ready (.ok [1, 2, 3])] [.ready (.ok 2), .pending] [] []).run
        (calls 8 [.ready (.ok [1, 2, 3])] [.ready (.ok 2), .pending] [] []).init
          [.start, .poll, .poll] = some w ∧
      w.active = false ∧ w.call.writer.accepted = w.call.reader.taken) ∧
    ∃ w, (calls 8 [.ready (.ok [1, 2, 3])] [.ready (.ok 1), .ready (.error (.other 7))] [] []).run
        (calls 8 [.ready (.ok [1, 2, 3])] [.ready (.ok 1), .ready (.error (.other 7))] [] []).init
          [.start, .poll] = some w ∧
      w.active = false ∧ w.call.reader.taken.length < w.call.writer.accepted.length := by
  constructor
  · have hw : (calls 8 [.ready (.ok [1, 2, 3])] [.ready (.ok 2), .pending] [] []).ReachableUnder
        (fun w l => w.cuts l = false) _ := ⟨[.start, .poll, .poll], rfl, by decide⟩
    exact ⟨_, rfl, rfl, (consumes_iff_not_cuts _ _ _ _ _).2.2.1 _ hw rfl⟩
  · have hw : (calls 8 [.ready (.ok [1, 2, 3])]
        [.ready (.ok 1), .ready (.error (.other 7))] [] []).Reachable _ := ⟨[.start], rfl⟩
    exact ⟨_, rfl, rfl,
      (consumes_iff_not_cuts _ _ _ _ _).2.2.2 _ .poll _ hw rfl (by decide) [] _ rfl⟩

/-- A writer that takes one byte of three and then fails, or makes the caller give up: nothing is
consumed, and the next call writes that byte again. -/
theorem exists_byte_written_twice :
    let S := calls 8 [.ready (.ok [1, 2, 3])] [.ready (.ok 1), .ready (.error (.other 7))] [] []
    let T := calls 8 [.ready (.ok [1, 2, 3])] [.ready (.ok 1), .pending] [] []
    (∃ w v, S.run S.init [.start, .poll] = some w ∧ w.active = false ∧
      w.call.reader.taken = [] ∧ w.call.writer.accepted = [1] ∧
      S.run w [.start, .poll] = some v ∧ v.active = false ∧
      v.call.reader.taken = [1, 2, 3] ∧ v.call.writer.accepted = [1, 1, 2, 3]) ∧
    ∃ w v, T.run T.init [.start, .poll, .drop] = some w ∧ w.active = false ∧
      w.call.reader.taken = [] ∧ w.call.writer.accepted = [1] ∧
      T.run w [.start, .poll] = some v ∧ v.active = false ∧
      v.call.reader.taken = [1, 2, 3] ∧ v.call.writer.accepted = [1, 1, 2, 3] :=
  ⟨⟨_, _, rfl, rfl, rfl, rfl, rfl, rfl, rfl, rfl⟩, _, _, rfl, rfl, rfl, rfl, rfl, rfl, rfl, rfl⟩

end World

end Calls

end CopyBuf

end RustyTokio.AsyncIo

import Mathlib.Tactic.Set
import RustyTokio.Transition.System

/-!
# `duplex`: two pipes in memory

`duplex` (`io/duplex.rs`) makes two `Pipe`s behind a mutex each, and two ends: what one end writes
into, the other reads from.  Every call takes the lock of one pipe for as long as it runs and is one
step; `drop` takes one lock after the other and is two.
-/

namespace RustyTokio.InMemory

open Transition List Option Bool Function

inductive Error where
  | brokenPipe (message : String)
  deriving DecidableEq

inductive Answer (α : Type) where
  | pending
  | ready (result : Except Error α)
  deriving DecidableEq

/-! ## One pipe -/

structure Pipe where
  buf : List UInt8
  capacity : ℕ
  writeHalfClosed : Bool
  readHalfDropped : Bool
  readWaker : Option ℕ
  writeWaker : Option ℕ
  deriving DecidableEq

namespace Pipe

def new (capacity : ℕ) : Pipe := ⟨[], capacity, false, false, none, none⟩

def pollRead (p : Pipe) (waker room : ℕ) : Pipe × Answer (List UInt8) × Option ℕ :=
  if p.buf = [] then
    if p.writeHalfClosed then
      (p, .ready (.ok []), none)
    else
      ({ p with readWaker := some waker }, .pending, none)
  else
    let n := min room p.buf.length
    ({ p with buf := p.buf.drop n, writeWaker := none }, .ready (.ok (p.buf.take n)), p.writeWaker)

def pollWrite (message : String) (p : Pipe) (waker : ℕ) (data : List UInt8) :
    Pipe × Answer ℕ × Option ℕ :=
  if p.readHalfDropped then
    (p, .ready (.error (.brokenPipe message)), none)
  else if p.capacity ≤ p.buf.length then
    ({ p with writeWaker := some waker }, .pending, none)
  else
    let n := min (p.capacity - p.buf.length) data.length
    ({ p with buf := p.buf ++ data.take n, readWaker := none }, .ready (.ok n), p.readWaker)

/-- `poll_shutdown`, and what `drop` does to the pipe that is written. -/
def close (p : Pipe) : Pipe × Option ℕ :=
  ({ p with writeHalfClosed := true, readWaker := none }, p.readWaker)

def dropRead (p : Pipe) : Pipe × Option ℕ :=
  ({ p with readHalfDropped := true, writeWaker := none }, p.writeWaker)

/-! ### The calls, case by case -/

section Calls

variable {p : Pipe} {waker room : ℕ} {message : String} {data : List UInt8}

theorem pollRead_eof (hb : p.buf = []) (hc : p.writeHalfClosed) :
    p.pollRead waker room = (p, .ready (.ok []), none) := by
  simp [pollRead, hb, hc]

theorem pollRead_wait (hb : p.buf = []) (hc : p.writeHalfClosed = false) :
    p.pollRead waker room = ({ p with readWaker := some waker }, .pending, none) := by
  simp [pollRead, hb, hc]

theorem pollRead_take (hb : p.buf ≠ []) : p.pollRead waker room =
      ({ p with buf := p.buf.drop (min room p.buf.length), writeWaker := none },
        .ready (.ok (p.buf.take (min room p.buf.length))), p.writeWaker) := by
  rw [pollRead, if_neg hb]

theorem pollWrite_broken (hd : p.readHalfDropped) :
    p.pollWrite message waker data = (p, .ready (.error (.brokenPipe message)), none) := by
  simp [pollWrite, hd]

theorem pollWrite_wait (hd : p.readHalfDropped = false) (hf : p.capacity ≤ p.buf.length) :
    p.pollWrite message waker data = ({ p with writeWaker := some waker }, .pending, none) := by
  simp [pollWrite, hd, hf]

theorem pollWrite_put (hd : p.readHalfDropped = false) (hf : p.buf.length < p.capacity) :
    p.pollWrite message waker data = ({ p with
          buf := p.buf ++ data.take (min (p.capacity - p.buf.length) data.length)
          readWaker := none },
        .ready (.ok (min (p.capacity - p.buf.length) data.length)), p.readWaker) := by
  rw [pollWrite, if_neg (by simp [hd]), if_neg (Nat.not_le.mpr hf)]

theorem take_ne_nil (hr : 0 < room) (hb : p.buf ≠ []) :
    p.buf.take (min room p.buf.length) ≠ [] := by
  have hlen := length_pos_iff.mpr hb
  rw [← length_pos_iff, length_take]
  omega

theorem eof_of_pollRead (hr : 0 < room) (h : (p.pollRead waker room).2.1 = .ready (.ok [])) :
    p.buf = [] ∧ p.writeHalfClosed := by
  by_cases hb : p.buf = []
  · cases hc : p.writeHalfClosed with
    | true => exact ⟨hb, rfl⟩
    | false =>
      rw [pollRead_wait hb hc] at h
      cases h
  · rw [pollRead_take hb] at h
    exact absurd (Except.ok.inj (Answer.ready.inj h)) (take_ne_nil hr hb)

theorem dropped_of_pollWrite {e : Error}
    (h : (p.pollWrite message waker data).2.1 = .ready (.error e)) : p.readHalfDropped := by
  cases hd : p.readHalfDropped with
  | true => rfl
  | false =>
    rcases Nat.lt_or_ge p.buf.length p.capacity with hf | hf
    · rw [pollWrite_put hd hf] at h
      cases h
    · rw [pollWrite_wait hd hf] at h
      cases h

def takes (p : Pipe) (data : List UInt8) : Bool :=
  !p.readHalfDropped && decide (p.buf.length < p.capacity) && !data.isEmpty

theorem buf_of_not_takes (h : p.takes data = false) :
    (p.pollWrite message waker data).1.buf = p.buf := by
  cases hd : p.readHalfDropped with
  | true => rw [pollWrite_broken hd]
  | false =>
    rcases Nat.lt_or_ge p.buf.length p.capacity with hf | hf
    · have hnil : data = [] := by simpa [takes, hd, hf] using h
      rw [pollWrite_put hd hf, hnil, take_nil, append_nil]
    · rw [pollWrite_wait hd hf]

theorem exists_byte_of_takes (h : p.takes data) {waker' : ℕ} (hr : 0 < room) :
    ∃ b bs, ((p.pollWrite message waker data).1.pollRead waker' room).2.1 =
      .ready (.ok (b :: bs)) := by
  simp only [takes, and_eq_true, not_eq_true', decide_eq_true_eq, isEmpty_eq_false_iff] at h
  obtain ⟨⟨hd, hf⟩, hdata⟩ := h
  rw [pollWrite_put hd hf]
  set q : Pipe := { p with
    buf := p.buf ++ data.take (min (p.capacity - p.buf.length) data.length), readWaker := none }
  have hq : q.buf ≠ [] := by
    have hlen := length_pos_iff.mpr hdata
    rw [← length_pos_iff, length_append, length_take]
    omega
  obtain ⟨b, bs, hbytes⟩ := exists_cons_of_ne_nil (take_ne_nil hr hq)
  exact ⟨b, bs, by rw [pollRead_take hq, hbytes]⟩

end Calls

end Pipe

/-! ## A pipe and its parties -/

inductive Waiting where
  | idle
  | parked (waker : ℕ) (woken : Bool)
  deriving DecidableEq

def Waiting.wake : Option ℕ → Waiting → Waiting
  | some k, .parked waker woken => .parked waker (woken || waker == k)
  | _, party => party

structure Channel where
  pipe : Pipe
  reader : Waiting
  writer : Waiting
  accepted : List UInt8
  received : List UInt8
  shut : Bool
  writerDropped : Bool
  readerDropped : Bool
  /-- A read with room for a byte has returned none. -/
  ended : Bool
  deriving DecidableEq

namespace Channel

def new (capacity : ℕ) : Channel :=
  ⟨.new capacity, .idle, .idle, [], [], false, false, false, false⟩

def pollRead (c : Channel) (waker room : ℕ) : Channel × Answer (List UInt8) :=
  match c.pipe.pollRead waker room with
  | (p, .pending, k) =>
    ({ c with pipe := p, reader := .parked waker false, writer := c.writer.wake k }, .pending)
  | (p, .ready (.error e), k) =>
    ({ c with pipe := p, reader := .idle, writer := c.writer.wake k }, .ready (.error e))
  | (p, .ready (.ok bytes), k) =>
    ({ c with
        pipe := p
        reader := .idle
        writer := c.writer.wake k
        received := c.received ++ bytes
        ended := c.ended || (decide (0 < room) && bytes.isEmpty) }, .ready (.ok bytes))

def pollWrite (message : String) (c : Channel) (waker : ℕ) (data : List UInt8) :
    Channel × Answer ℕ :=
  match c.pipe.pollWrite message waker data with
  | (p, .pending, k) =>
    ({ c with pipe := p, writer := .parked waker false, reader := c.reader.wake k }, .pending)
  | (p, .ready (.error e), k) =>
    ({ c with pipe := p, writer := .idle, reader := c.reader.wake k }, .ready (.error e))
  | (p, .ready (.ok n), k) =>
    ({ c with
        pipe := p
        writer := .idle
        reader := c.reader.wake k
        accepted := c.accepted ++ data.take n }, .ready (.ok n))

def shutdown (c : Channel) : Channel :=
  { c with pipe := c.pipe.close.1, reader := c.reader.wake c.pipe.close.2, shut := true }

def dropWriter (c : Channel) : Channel :=
  { c with
    pipe := c.pipe.close.1
    reader := c.reader.wake c.pipe.close.2
    writer := .idle
    writerDropped := true }

def dropReader (c : Channel) : Channel :=
  { c with
    pipe := c.pipe.dropRead.1
    writer := c.writer.wake c.pipe.dropRead.2
    reader := .idle
    readerDropped := true }

inductive Moves (c : Channel) : Channel → Prop where
  | eof (room : ℕ) (hb : c.pipe.buf = []) (hc : c.pipe.writeHalfClosed) :
      Moves c { c with reader := .idle, ended := c.ended || decide (0 < room) }
  | waitRead (waker : ℕ) (hb : c.pipe.buf = []) (hc : c.pipe.writeHalfClosed = false) :
      Moves c
        { c with
          pipe := { c.pipe with readWaker := some waker }
          reader := .parked waker false }
  | take (n : ℕ) (hb : c.pipe.buf ≠ []) :
      Moves c
        { c with
          pipe := { c.pipe with buf := c.pipe.buf.drop n, writeWaker := none }
          reader := .idle
          writer := c.writer.wake c.pipe.writeWaker
          received := c.received ++ c.pipe.buf.take n }
  | broken (hd : c.pipe.readHalfDropped) : Moves c { c with writer := .idle }
  | waitWrite (waker : ℕ) (hd : c.pipe.readHalfDropped = false)
      (hf : c.pipe.capacity ≤ c.pipe.buf.length) :
      Moves c
        { c with
          pipe := { c.pipe with writeWaker := some waker }
          writer := .parked waker false }
  | put (data : List UInt8) (hd : c.pipe.readHalfDropped = false)
      (hf : c.pipe.buf.length + data.length ≤ c.pipe.capacity) :
      Moves c
        { c with
          pipe := { c.pipe with buf := c.pipe.buf ++ data, readWaker := none }
          reader := c.reader.wake c.pipe.readWaker
          writer := .idle
          accepted := c.accepted ++ data }
  | shutdown : Moves c c.shutdown
  | dropWriter : Moves c c.dropWriter
  | dropReader : Moves c c.dropReader
  | leaveRead : Moves c { c with reader := .idle }
  | leaveWrite : Moves c { c with writer := .idle }

/-! ### The calls, case by case -/

section Calls

variable {c : Channel} {waker room : ℕ} {message : String} {data : List UInt8}

theorem pollRead_eof (hb : c.pipe.buf = []) (hc : c.pipe.writeHalfClosed) :
    (c.pollRead waker room).1 =
      { c with reader := .idle, ended := c.ended || decide (0 < room) } := by
  simp [pollRead, Pipe.pollRead_eof hb hc, Waiting.wake]

theorem pollRead_wait (hb : c.pipe.buf = []) (hc : c.pipe.writeHalfClosed = false) :
    (c.pollRead waker room).1 = { c with
        pipe := { c.pipe with readWaker := some waker }
        reader := .parked waker false } := by
  simp [pollRead, Pipe.pollRead_wait hb hc, Waiting.wake]

theorem pollRead_take (hb : c.pipe.buf ≠ []) : (c.pollRead waker room).1 = { c with
        pipe := { c.pipe with
          buf := c.pipe.buf.drop (min room c.pipe.buf.length), writeWaker := none }
        reader := .idle
        writer := c.writer.wake c.pipe.writeWaker
        received := c.received ++ c.pipe.buf.take (min room c.pipe.buf.length) } := by
  have hsome : (decide (0 < room) && (c.pipe.buf.take (min room c.pipe.buf.length)).isEmpty) =
      false := by
    by_cases hr : 0 < room
    · simp [Pipe.take_ne_nil hr hb]
    · simp [hr]
  rw [pollRead, Pipe.pollRead_take hb]
  simp only [hsome, Bool.or_false]

theorem pollWrite_broken (hd : c.pipe.readHalfDropped) :
    (c.pollWrite message waker data).1 = { c with writer := .idle } := by
  simp [pollWrite, Pipe.pollWrite_broken hd, Waiting.wake]

theorem pollWrite_wait (hd : c.pipe.readHalfDropped = false)
    (hf : c.pipe.capacity ≤ c.pipe.buf.length) : (c.pollWrite message waker data).1 = { c with
        pipe := { c.pipe with writeWaker := some waker }
        writer := .parked waker false } := by
  simp [pollWrite, Pipe.pollWrite_wait hd hf, Waiting.wake]

theorem pollWrite_put (hd : c.pipe.readHalfDropped = false)
    (hf : c.pipe.buf.length < c.pipe.capacity) : (c.pollWrite message waker data).1 = { c with
        pipe := { c.pipe with
          buf := c.pipe.buf ++ data.take (min (c.pipe.capacity - c.pipe.buf.length) data.length)
          readWaker := none }
        reader := c.reader.wake c.pipe.readWaker
        writer := .idle
        accepted := c.accepted ++
          data.take (min (c.pipe.capacity - c.pipe.buf.length) data.length) } := by
  rw [pollWrite, Pipe.pollWrite_put hd hf]

theorem pollRead_answer (c : Channel) (waker room : ℕ) :
    (c.pollRead waker room).2 = (c.pipe.pollRead waker room).2.1 := by
  rw [pollRead]
  split <;> simp_all only

theorem pollWrite_answer (message : String) (c : Channel) (waker : ℕ) (data : List UInt8) :
    (c.pollWrite message waker data).2 = (c.pipe.pollWrite message waker data).2.1 := by
  rw [pollWrite]
  split <;> simp_all only

theorem pollWrite_pipe (message : String) (c : Channel) (waker : ℕ) (data : List UInt8) :
    (c.pollWrite message waker data).1.pipe = (c.pipe.pollWrite message waker data).1 := by
  rw [pollWrite]
  split <;> simp_all only

theorem pollWrite_ended (message : String) (c : Channel) (waker : ℕ) (data : List UInt8) :
    (c.pollWrite message waker data).1.ended = c.ended := by
  rw [pollWrite]
  split <;> rfl

theorem moves_pollRead (c : Channel) (waker room : ℕ) : c.Moves (c.pollRead waker room).1 := by
  by_cases hb : c.pipe.buf = []
  · cases hc : c.pipe.writeHalfClosed with
    | true =>
      rw [pollRead_eof hb hc]
      exact .eof room hb hc
    | false =>
      rw [pollRead_wait hb hc]
      exact .waitRead waker hb hc
  · rw [pollRead_take hb]
    exact .take _ hb

theorem moves_pollWrite (message : String) (c : Channel) (waker : ℕ) (data : List UInt8) :
    c.Moves (c.pollWrite message waker data).1 := by
  cases hd : c.pipe.readHalfDropped with
  | true =>
    rw [pollWrite_broken hd]
    exact .broken hd
  | false =>
    rcases Nat.lt_or_ge c.pipe.buf.length c.pipe.capacity with hf | hf
    · rw [pollWrite_put hd hf]
      refine .put _ hd ?_
      rw [length_take]
      omega
    · rw [pollWrite_wait hd hf]
      exact .waitWrite waker hd hf

end Calls

/-! ### What every move keeps -/

/-- One direction: first in, first out, within the capacity, and whoever sleeps has a reason and a
waker there. -/
structure Sound (capacity : ℕ) (c : Channel) : Prop where
  size : c.pipe.capacity = capacity
  fifo : c.received ++ c.pipe.buf = c.accepted
  bounded : c.pipe.buf.length ≤ capacity
  closed : c.pipe.writeHalfClosed = (c.shut || c.writerDropped)
  dropped : c.pipe.readHalfDropped = c.readerDropped
  reader : ∀ k, c.reader = .parked k false →
    c.pipe.readWaker = some k ∧ c.pipe.buf = [] ∧ c.pipe.writeHalfClosed = false
  writer : ∀ k, c.writer = .parked k false →
    c.pipe.writeWaker = some k ∧ capacity ≤ c.pipe.buf.length ∧ c.pipe.readHalfDropped = false
  ended : c.ended = true → c.pipe.writeHalfClosed = true

theorem asleep_of_wake {slot : Option ℕ} {party : Waiting} {k : ℕ}
    (h : party.wake slot = .parked k false) : party = .parked k false ∧ slot ≠ some k := by
  cases party with
  | idle => cases slot <;> simp [Waiting.wake] at h
  | parked waker woken =>
    cases slot with
    | none => exact ⟨h, by simp⟩
    | some j =>
      obtain ⟨rfl, hwoken⟩ := Waiting.parked.inj h
      obtain ⟨rfl, hne⟩ := or_eq_false_iff.mp hwoken
      exact ⟨rfl, fun heq => by simp [some.inj heq] at hne⟩

variable {capacity : ℕ} {c d : Channel}

theorem Sound.reader_awake (h : c.Sound capacity) (k : ℕ) :
    c.reader.wake c.pipe.readWaker ≠ .parked k false := by
  intro hk
  obtain ⟨hasleep, hslot⟩ := asleep_of_wake hk
  exact hslot (h.reader k hasleep).1

theorem Sound.writer_awake (h : c.Sound capacity) (k : ℕ) :
    c.writer.wake c.pipe.writeWaker ≠ .parked k false := by
  intro hk
  obtain ⟨hasleep, hslot⟩ := asleep_of_wake hk
  exact hslot (h.writer k hasleep).1

theorem Sound.new (capacity : ℕ) : (new capacity).Sound capacity :=
  ⟨rfl, rfl, Nat.zero_le _, rfl, rfl, fun _ hk => Waiting.noConfusion hk,
    fun _ hk => Waiting.noConfusion hk, fun he => absurd he Bool.false_ne_true⟩

theorem Sound.moves (h : c.Sound capacity) (hm : c.Moves d) : d.Sound capacity := by
  cases hm with
  | eof room hb hc =>
    exact ⟨h.size, h.fifo, h.bounded, h.closed, h.dropped, fun _ hk => Waiting.noConfusion hk,
      h.writer, fun _ => hc⟩
  | waitRead waker hb hc =>
    refine ⟨h.size, h.fifo, h.bounded, h.closed, h.dropped, fun k hk => ?_, h.writer, h.ended⟩
    cases hk
    exact ⟨rfl, hb, hc⟩
  | take n hb =>
    refine ⟨h.size, ?_, ?_, h.closed, h.dropped, fun _ hk => Waiting.noConfusion hk,
      fun k hk => absurd hk (h.writer_awake k), h.ended⟩
    · rw [append_assoc, take_append_drop]
      exact h.fifo
    · rw [length_drop]
      exact Nat.le_trans (Nat.sub_le _ _) h.bounded
  | broken hd | leaveWrite =>
    exact ⟨h.size, h.fifo, h.bounded, h.closed, h.dropped, h.reader,
      fun _ hk => Waiting.noConfusion hk, h.ended⟩
  | waitWrite waker hd hf =>
    refine ⟨h.size, h.fifo, h.bounded, h.closed, h.dropped, h.reader, fun k hk => ?_, h.ended⟩
    cases hk
    exact ⟨rfl, h.size ▸ hf, hd⟩
  | put data hd hf =>
    refine ⟨h.size, ?_, ?_, h.closed, h.dropped, fun k hk => absurd hk (h.reader_awake k),
      fun _ hk => Waiting.noConfusion hk, h.ended⟩
    · rw [← append_assoc, h.fifo]
    · rw [length_append, ← h.size]
      exact hf
  | shutdown =>
    exact ⟨h.size, h.fifo, h.bounded, rfl, h.dropped,
      fun k hk => absurd hk (h.reader_awake k), h.writer, fun _ => rfl⟩
  | dropWriter =>
    exact ⟨h.size, h.fifo, h.bounded, (Bool.or_true _).symm, h.dropped,
      fun k hk => absurd hk (h.reader_awake k), fun _ hk => Waiting.noConfusion hk, fun _ => rfl⟩
  | dropReader =>
    exact ⟨h.size, h.fifo, h.bounded, h.closed, rfl, fun _ hk => Waiting.noConfusion hk,
      fun k hk => absurd hk (h.writer_awake k), h.ended⟩
  | leaveRead =>
    exact ⟨h.size, h.fifo, h.bounded, h.closed, h.dropped,
      fun _ hk => Waiting.noConfusion hk, h.writer, h.ended⟩

def SameData (c d : Channel) : Prop :=
  d.pipe.buf = c.pipe.buf ∧ d.accepted = c.accepted ∧ d.received = c.received

/-! ### After the end -/

theorem Moves.drained (hm : c.Moves d) (h : c.ended → c.pipe.buf = [])
    (hbuf : c.ended → c.pipe.buf = [] → d.pipe.buf = []) (hd : d.ended) : d.pipe.buf = [] := by
  cases hm with
  | eof room hb hc => exact hb
  | take n hb => exact absurd (h hd) hb
  | put data _ _ => exact hbuf hd (h hd)
  | waitRead | broken | waitWrite | shutdown | dropWriter | dropReader | leaveRead | leaveWrite =>
    exact h hd

end Channel

/-! ## The pair -/

namespace Duplex

inductive Side where
  | a
  | b
  deriving DecidableEq

def Side.other : Side → Side
  | .a => .b
  | .b => .a

inductive Stage where
  | live
  | dropping
  | dropped
  deriving DecidableEq

structure World where
  channel : Side → Channel
  stage : Side → Stage

def message : String := "the reading half of this duplex pair was dropped"

inductive Label where
  | pollRead (s : Side) (waker room : ℕ)
  | pollWrite (s : Side) (waker : ℕ) (data : List UInt8)
  | pollShutdown (s : Side)
  /-- The task that waits in a read gives it up. -/
  | leaveRead (s : Side)
  | leaveWrite (s : Side)
  | drop (s : Side)
  | finishDrop (s : Side)
  deriving DecidableEq

def Label.direction : Label → Option Side
  | .pollRead s _ _ => some s.other
  | .pollWrite s _ _ => some s
  | _ => none

namespace World

def incoming (w : World) (s : Side) : Channel := w.channel s.other

def setChannel (w : World) (s : Side) (c : Channel) : World :=
  { w with channel := Function.update w.channel s c }

def setStage (w : World) (s : Side) (stage : Stage) : World :=
  { w with stage := Function.update w.stage s stage }

def step (w : World) : Label → Option World
  | .pollRead s waker room =>
    if w.stage s = .live then
      some (w.setChannel s.other ((w.incoming s).pollRead waker room).1)
    else none
  | .pollWrite s waker data =>
    if w.stage s = .live then
      some (w.setChannel s ((w.channel s).pollWrite message waker data).1)
    else none
  | .pollShutdown s =>
    if w.stage s = .live then some (w.setChannel s (w.channel s).shutdown) else none
  | .leaveRead s =>
    if w.stage s = .live then
      some (w.setChannel s.other { w.incoming s with reader := .idle })
    else none
  | .leaveWrite s =>
    if w.stage s = .live then
      some (w.setChannel s { w.channel s with writer := .idle })
    else none
  -- whoever waited at this end is gone with it
  | .drop s =>
    if w.stage s = .live then
      some (((w.setChannel s (w.channel s).dropWriter).setChannel s.other
        { w.incoming s with reader := .idle }).setStage s .dropping)
    else none
  | .finishDrop s =>
    if w.stage s = .dropping then
      some ((w.setChannel s.other (w.incoming s).dropReader).setStage s .dropped)
    else none

end World

def duplex (maxBufSize : ℕ) : System World Label where
  init := ⟨fun _ => .new maxBufSize, fun _ => .live⟩
  step := World.step

namespace World

variable {w v : World} {l : Label} {s : Side} {maxBufSize : ℕ}

theorem setChannel_self (w : World) (s : Side) (c : Channel) : (w.setChannel s c).channel s = c :=
  update_self ..

theorem setChannel_of_ne {t : Side} (h : t ≠ s) (w : World) (c : Channel) :
    (w.setChannel s c).channel t = w.channel t :=
  update_of_ne h ..

theorem channel_of_step (hs : w.step l = some v) (s : Side) :
    (v.channel s = w.channel s ∨ (w.channel s).Moves (v.channel s)) ∧
      (l.direction ≠ some s → (w.channel s).SameData (v.channel s)) := by
  -- one channel is set to something that it moves to
  have hset : ∀ {u : World} {t : Side} {c : Channel}, u.channel = w.channel →
      (w.channel t).Moves c → (l.direction ≠ some t → (w.channel t).SameData c) →
      ((u.setChannel t c).channel s = w.channel s ∨
          (w.channel s).Moves ((u.setChannel t c).channel s)) ∧
        (l.direction ≠ some s → (w.channel s).SameData ((u.setChannel t c).channel s)) := by
    intro u t c hu hm hd
    obtain rfl | hst := eq_or_ne s t
    · rw [setChannel_self]
      exact ⟨.inr hm, hd⟩
    · rw [setChannel_of_ne hst, hu]
      exact ⟨.inl rfl, fun _ => ⟨rfl, rfl, rfl⟩⟩
  cases l with
  | pollRead t waker room =>
    obtain ⟨-, rfl⟩ := of_guard hs
    exact hset rfl (Channel.moves_pollRead _ _ _) fun hne => absurd rfl hne
  | pollWrite t waker data =>
    obtain ⟨-, rfl⟩ := of_guard hs
    exact hset rfl (Channel.moves_pollWrite _ _ _ _) fun hne => absurd rfl hne
  | pollShutdown t =>
    obtain ⟨-, rfl⟩ := of_guard hs
    exact hset rfl .shutdown fun _ => ⟨rfl, rfl, rfl⟩
  | leaveRead t =>
    obtain ⟨-, rfl⟩ := of_guard hs
    exact hset rfl .leaveRead fun _ => ⟨rfl, rfl, rfl⟩
  | leaveWrite t =>
    obtain ⟨-, rfl⟩ := of_guard hs
    exact hset rfl .leaveWrite fun _ => ⟨rfl, rfl, rfl⟩
  | drop t =>
    obtain ⟨-, rfl⟩ := of_guard hs
    obtain rfl | hst := eq_or_ne s t.other
    · simp only [setStage, setChannel_self]
      exact ⟨.inr .leaveRead, fun _ => ⟨rfl, rfl, rfl⟩⟩
    · have hother : ((w.setChannel t (w.channel t).dropWriter).setChannel t.other
          { w.incoming t with reader := .idle }).channel s =
          (w.setChannel t (w.channel t).dropWriter).channel s := setChannel_of_ne hst _ _
      simp only [setStage, hother]
      exact hset rfl .dropWriter fun _ => ⟨rfl, rfl, rfl⟩
  | finishDrop t =>
    obtain ⟨-, rfl⟩ := of_guard hs
    exact hset rfl .dropReader fun _ => ⟨rfl, rfl, rfl⟩

theorem sound_of_reachable (h : (duplex maxBufSize).Reachable w) (s : Side) :
    (w.channel s).Sound maxBufSize := by
  refine System.inv_of_reachable (I := fun w : World => (w.channel s).Sound maxBufSize)
    (Channel.Sound.new _) (fun w l v hI hs => ?_) h
  rcases (channel_of_step hs s).1 with heq | hm
  · rw [heq]
    exact hI
  · exact hI.moves hm

/-- **Two bounded queues.**  However calls and drops interleave, in each direction: what was
received and what is in the buffer is what was accepted, within the capacity; a read with room for
a byte returns none only at the end, and a write fails only when the reader is dropped; and whoever
sleeps has nothing to do and somebody to wait for. -/
theorem bounded_fifo (maxBufSize : ℕ) (w : World) (h : (duplex maxBufSize).Reachable w) : (∀ s,
      (w.channel s).received ++ (w.channel s).pipe.buf = (w.channel s).accepted ∧
      (w.channel s).pipe.buf.length ≤ maxBufSize ∧
      (∀ waker room, 0 < room → ((w.channel s).pollRead waker room).2 = .ready (.ok []) →
        (w.channel s).pipe.buf = [] ∧
          ((w.channel s).shut = true ∨ (w.channel s).writerDropped = true)) ∧
      (∀ waker data e, ((w.channel s).pollWrite message waker data).2 = .ready (.error e) →
        (w.channel s).readerDropped = true) ∧ (∀ k, (w.channel s).reader = .parked k false →
        (w.channel s).pipe.buf = [] ∧ (w.channel s).shut = false ∧
          (w.channel s).writerDropped = false) ∧ ∀ k, (w.channel s).writer = .parked k false →
        (w.channel s).pipe.buf.length = maxBufSize ∧ (w.channel s).readerDropped = false) ∧
    ∀ l v, w.step l = some v → ∀ s, l.direction ≠ some s →
      (w.channel s).SameData (v.channel s) := by
  refine ⟨fun s => ?_, fun l v hs s => (channel_of_step hs s).2⟩
  have hsound := sound_of_reachable h s
  have hclosed := hsound.closed
  refine ⟨hsound.fifo, hsound.bounded, fun waker room hr hread => ?_, fun waker data e hwrite => ?_,
    fun k hk => ?_, fun k hk => ?_⟩
  · rw [Channel.pollRead_answer] at hread
    obtain ⟨hb, hc⟩ := Pipe.eof_of_pollRead hr hread
    rw [hclosed, or_eq_true] at hc
    exact ⟨hb, hc⟩
  · rw [Channel.pollWrite_answer] at hwrite
    rw [← hsound.dropped]
    exact Pipe.dropped_of_pollWrite hwrite
  · obtain ⟨-, hb, hc⟩ := hsound.reader k hk
    rw [hclosed, or_eq_false_iff] at hc
    exact ⟨hb, hc⟩
  · obtain ⟨-, hf, hd⟩ := hsound.writer k hk
    exact ⟨Nat.le_antisymm hsound.bounded hf, hsound.dropped ▸ hd⟩

theorem bounded_fifo_of_two : ∃ w, (duplex 2).Reachable w ∧ (w.channel .a).accepted = [1, 2, 3] ∧
      (w.channel .a).received ++ (w.channel .a).pipe.buf = [1, 2, 3] ∧
      (w.channel .a).writerDropped = true ∧ (w.channel .b).received = [7] := by
  have hr : (duplex 2).Reachable _ :=
    ⟨[.pollWrite .a 0 [1, 2, 3], .pollWrite .a 0 [3], .pollWrite .b 1 [7], .pollRead .b 1 1,
      .pollRead .a 0 4, .pollWrite .a 0 [3], .pollRead .b 1 9, .pollRead .b 1 9, .drop .a,
      .finishDrop .a], rfl⟩
  exact ⟨_, hr, rfl, ((bounded_fifo 2 _ hr).1 .a).1, rfl, rfl⟩

/-! ### After the end -/

/-- A write puts a byte into a pipe whose reader is there and was told that it is at the end. -/
def revives (w : World) : Label → Bool
  | .pollWrite s _ data =>
    decide (w.stage s.other = .live) && (w.channel s).ended && (w.channel s).pipe.takes data
  | _ => false

theorem stage_of_step (hs : w.step l = some v) (h : v.stage s = .live) : w.stage s = .live := by
  have hset : ∀ {t : Side} {stage : Stage}, stage ≠ .live →
      Function.update w.stage t stage s = .live → w.stage s = .live := by
    intro t stage hne hlive
    obtain rfl | hst := eq_or_ne s t
    · rw [update_self] at hlive
      exact absurd hlive hne
    · rwa [update_of_ne hst] at hlive
  cases l with
  | drop t | finishDrop t =>
    obtain ⟨-, hs⟩ := ite_none_right_eq_some.mp hs
    rw [← some.inj hs] at h
    exact hset Stage.noConfusion h
  | pollRead t waker room | pollWrite t waker data | pollShutdown t | leaveRead t | leaveWrite t =>
    obtain ⟨-, hs⟩ := ite_none_right_eq_some.mp hs
    rw [← some.inj hs] at h
    exact h

theorem drained_of_step (hs : w.step l = some v) (hl : w.revives l = false)
    (h : w.stage s.other = .live → (w.channel s).ended → (w.channel s).pipe.buf = [])
    (hlive : v.stage s.other = .live) (he : (v.channel s).ended) : (v.channel s).pipe.buf = [] := by
  have hlive' := stage_of_step hs hlive
  rcases (channel_of_step hs s).1 with heq | hm
  · rw [heq] at he ⊢
    exact h hlive' he
  refine hm.drained (h hlive') (fun hended hb => ?_) he
  by_cases hdir : l.direction = some s
  · cases l with
    | pollRead t waker room =>
      obtain rfl : t.other = s := some.inj hdir
      obtain ⟨-, hs⟩ := ite_none_right_eq_some.mp hs
      rw [← some.inj hs, setChannel_self, incoming]
      cases hc : (w.channel t.other).pipe.writeHalfClosed with
      | true => exact (congrArg (·.pipe.buf) (Channel.pollRead_eof hb hc)).trans hb
      | false => exact (congrArg (·.pipe.buf) (Channel.pollRead_wait hb hc)).trans hb
    | pollWrite t waker data =>
      obtain rfl : t = s := some.inj hdir
      obtain ⟨-, hs⟩ := ite_none_right_eq_some.mp hs
      have htakes : (w.channel t).pipe.takes data = false := by
        simpa [revives, hlive', hended] using hl
      rw [← some.inj hs, setChannel_self, Channel.pollWrite_pipe, Pipe.buf_of_not_takes htakes]
      exact hb
    | pollShutdown | leaveRead | leaveWrite | drop | finishDrop =>
      simp [Label.direction] at hdir
  · rw [((channel_of_step hs s).2 hdir).1]
    exact hb

theorem eof_of_ended
    (h : (duplex maxBufSize).ReachableUnder (fun w l => w.revives l = false) w) (s : Side)
    (hlive : w.stage s = .live) (he : (w.incoming s).ended) (waker room : ℕ) :
    ((w.incoming s).pollRead waker room).2 = .ready (.ok []) := by
  have hlive' : w.stage s.other.other = .live := by cases s <;> exact hlive
  have hb : (w.incoming s).pipe.buf = [] :=
    System.inv_of_reachableUnder
      (I := fun w : World => w.stage s.other.other = .live →
        (w.channel s.other).ended → (w.channel s.other).pipe.buf = [])
      (fun _ _ => rfl) (fun _ _ _ hI hl hs => drained_of_step hs hl hI) h hlive' he
  have hc := (sound_of_reachable h.reachable s.other).ended he
  rw [Channel.pollRead_answer, Pipe.pollRead_eof hb hc]

theorem read_of_revives (hs : w.step l = some v) (hl : w.revives l) :
    ∃ s, v.stage s = .live ∧ (v.incoming s).ended ∧ ∀ waker room, 0 < room →
      ∃ b bs, ((v.incoming s).pollRead waker room).2 = .ready (.ok (b :: bs)) := by
  cases l with
  | pollWrite t waker data =>
    simp only [revives, and_eq_true, decide_eq_true_eq] at hl
    obtain ⟨⟨hlive, he⟩, htakes⟩ := hl
    obtain ⟨-, hs⟩ := ite_none_right_eq_some.mp hs
    have hback : v.incoming t.other = ((w.channel t).pollWrite message waker data).1 := by
      cases hs
      cases t <;> exact setChannel_self ..
    refine ⟨t.other, ?_, ?_, fun waker' room hr => ?_⟩
    · cases hs
      exact hlive
    · rw [hback, Channel.pollWrite_ended]
      exact he
    · rw [hback, Channel.pollRead_answer, Channel.pollWrite_pipe]
      exact Pipe.exists_byte_of_takes htakes hr
  | pollRead | pollShutdown | leaveRead | leaveWrite | drop | finishDrop =>
    cases hl

end World

end Duplex

end RustyTokio.InMemory

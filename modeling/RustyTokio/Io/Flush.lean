import RustyTokio.Transition.System
import Mathlib.Data.List.DropRight

/-!
# What a flush of `Stdout` and `Stderr` does

`poll_flush` of both returns `Ok` and does nothing (`src/io/stdio.rs`).  Under `Stdout` lies the
`LineWriter` of `std::io::stdout`, which all handles share: a write passes on everything up to its
last newline, and keeps the rest in a buffer as long as it fits.  `std::io::stderr` keeps nothing.
-/

namespace RustyTokio.Stdio
namespace Flush

open Transition List

/-- A byte, with the number of the handle that it was written on. -/
abbrev Byte := ℕ × ℕ

/-- `LineWriter` of the standard library: what it has passed on, and its buffer. -/
structure LineWriter where
  handed : List Byte
  buffer : List Byte
  deriving DecidableEq

namespace LineWriter

def flushBuf (s : LineWriter) : LineWriter := ⟨s.handed ++ s.buffer, []⟩

def bufWriteAll (capacity : ℕ) (s : LineWriter) (data : List Byte) : LineWriter :=
  if data.length < capacity - s.buffer.length then { s with buffer := s.buffer ++ data }
  else
    let s := if capacity - s.buffer.length < data.length then s.flushBuf else s
    if capacity ≤ data.length then { s with handed := s.handed ++ data }
    else { s with buffer := s.buffer ++ data }

def inLine (b : Byte) : Bool := b.2 != 10

/-- `LineWriterShim::write_all`.  The buffer never ends in a newline. -/
def writeAll (capacity : ℕ) (s : LineWriter) (data : List Byte) : LineWriter :=
  let lines := data.rdropWhile inLine
  let tail := data.rtakeWhile inLine
  if lines = [] then s.bufWriteAll capacity data
  else if s.buffer = [] then bufWriteAll capacity ⟨s.handed ++ lines, []⟩ tail
  else bufWriteAll capacity (s.bufWriteAll capacity lines).flushBuf tail

end LineWriter

inductive Label where
  | write (handle : ℕ) (buf : List ℕ)
  | flush (handle : ℕ)
  deriving DecidableEq

structure World where
  stream : LineWriter
  /-- The bytes of all writes that returned. -/
  accepted : List Byte
  deriving DecidableEq

def World.step (writeAll : LineWriter → List Byte → LineWriter) (w : World) : Label → Option World
  | .write handle buf =>
    let data := buf.map fun b => (handle, b)
    some ⟨writeAll w.stream data, w.accepted ++ data⟩
  | .flush _ => some w

def stdout (capacity : ℕ) : System World Label where
  init := ⟨⟨[], []⟩, []⟩
  step := World.step (LineWriter.writeAll capacity)

def stderr : System World Label where
  init := ⟨⟨[], []⟩, []⟩
  step := World.step fun s data => { s with handed := s.handed ++ data }

def of (handle : ℕ) (bytes : List Byte) : List Byte := bytes.filter fun b => b.1 == handle

namespace LineWriter

variable {capacity : ℕ} {s : LineWriter} {data : List Byte}

theorem bufWriteAll_append : (s.bufWriteAll capacity data).handed ++
    (s.bufWriteAll capacity data).buffer = s.handed ++ s.buffer ++ data := by
  rw [bufWriteAll]
  split_ifs with hroom hspare hlong
  · exact (append_assoc _ _ _).symm
  · simp [flushBuf]
  · simp [flushBuf]
  · -- the data fills the whole buffer, which is empty then
    have hnil : s.buffer = [] ∨ data = [] := by
      simp only [← length_eq_zero_iff]
      omega
    rcases hnil with hnil | hnil <;> simp [hnil]
  · exact (append_assoc _ _ _).symm

theorem inLine_of_bufWriteAll (hs : ∀ b ∈ s.buffer, inLine b) (hd : ∀ b ∈ data, inLine b) :
    ∀ b ∈ (s.bufWriteAll capacity data).buffer, inLine b := by
  have happend : ∀ b ∈ s.buffer ++ data, inLine b := fun b hb =>
    (mem_append.mp hb).elim (hs b) (hd b)
  rw [bufWriteAll]
  split_ifs
  · exact happend
  · exact fun b hb => absurd hb not_mem_nil
  · exact hd
  · exact hs
  · exact happend

theorem writeAll_spec (hs : ∀ b ∈ s.buffer, inLine b) :
    (s.writeAll capacity data).handed ++ (s.writeAll capacity data).buffer =
      s.handed ++ s.buffer ++ data ∧ ∀ b ∈ (s.writeAll capacity data).buffer, inLine b := by
  have hsplit : data.rdropWhile inLine ++ data.rtakeWhile inLine = data :=
    rdropWhile_append_rtakeWhile
  have htail : ∀ b ∈ data.rtakeWhile inLine, inLine b :=
    fun b hb => mem_rtakeWhile_imp hb
  rw [writeAll]
  split_ifs with hlines hempty
  · exact ⟨bufWriteAll_append, inLine_of_bufWriteAll hs (rdropWhile_eq_nil_iff.mp hlines)⟩
  · refine ⟨?_, inLine_of_bufWriteAll (fun b hb => absurd hb not_mem_nil) htail⟩
    rw [bufWriteAll_append, hempty, append_nil, append_nil, append_assoc, hsplit]
  · refine ⟨?_, inLine_of_bufWriteAll (fun b hb => absurd hb not_mem_nil) htail⟩
    rw [bufWriteAll_append, flushBuf, bufWriteAll_append, append_nil, append_assoc, hsplit]

end LineWriter

/-- The buffer holds the end of what was accepted, and no newline. -/
structure World.Kept (w : World) : Prop where
  all : w.stream.handed ++ w.stream.buffer = w.accepted
  inLine : ∀ b ∈ w.stream.buffer, LineWriter.inLine b = true

theorem kept_of_reachable {capacity : ℕ} {w : World} (h : (stdout capacity).Reachable w) :
    w.Kept := by
  refine System.inv_of_reachable (I := World.Kept)
    ⟨rfl, fun b hb => absurd hb not_mem_nil⟩ (fun w l v hk hs => ?_) h
  cases l with
  | flush handle =>
    cases hs
    exact hk
  | write handle buf =>
    cases hs
    obtain ⟨hall, hline⟩ := LineWriter.writeAll_spec hk.inLine
    exact ⟨hall.trans (congrArg (· ++ _) hk.all), hline⟩

variable {w : World} {handle : ℕ}

theorem handed_iff (h : w.Kept) :
    of handle w.stream.handed = of handle w.accepted ↔ of handle w.stream.buffer = [] := by
  rw [← h.all, of, of, of, filter_append]
  exact self_eq_append_right

theorem buffer_of_line (h : w.Kept)
    (hl : of handle (w.accepted.rtakeWhile LineWriter.inLine) = []) :
    of handle w.stream.buffer = [] := by
  have hpos : ∀ b ∈ w.stream.buffer.reverse, LineWriter.inLine b :=
    fun b hb => h.inLine b (mem_reverse.mp hb)
  rw [← h.all, List.rtakeWhile, reverse_append, takeWhile_append_of_pos hpos,
    reverse_append, reverse_reverse, of, filter_append] at hl
  exact (append_eq_nil_iff.mp hl).2

theorem handed_of_stderr (h : stderr.Reachable w) : w.stream.handed = w.accepted := by
  refine System.inv_of_reachable (I := fun w : World => w.stream.handed = w.accepted) rfl
    (fun w l v hk hs => ?_) h
  cases l with
  | flush handle =>
    cases hs
    exact hk
  | write handle buf =>
    cases hs
    exact congrArg (· ++ _) hk

/-- **A flush hands over what the buffer does not keep.**  When a flush of `Stdout` returns, which
it always does, every byte of the handle is with the operating system if and only if the buffer
holds none of its bytes; and so it is if no byte of the handle came after the last newline of all
the handles.  A flush of `Stderr` finds everything handed over. -/
theorem flush_hands_over_iff (capacity : ℕ) : (∀ w, (stdout capacity).Reachable w → ∀ handle,
      (stdout capacity).step w (.flush handle) = some w ∧
      (of handle w.stream.handed = of handle w.accepted ↔ of handle w.stream.buffer = []) ∧
      (of handle (w.accepted.rtakeWhile LineWriter.inLine) = [] →
        of handle w.stream.handed = of handle w.accepted)) ∧
    ∀ w, stderr.Reachable w → w.stream.handed = w.accepted := by
  refine ⟨fun w h handle => ?_, fun w => handed_of_stderr⟩
  have hk := kept_of_reachable h
  exact ⟨rfl, handed_iff hk, fun hl => (handed_iff hk).mpr (buffer_of_line hk hl)⟩

theorem flush_hands_over_line : ∃ w, (stdout 1024).Reachable w ∧ w.stream.buffer = [(1, 98)] ∧
      of 0 w.stream.handed = of 0 w.accepted := by
  have hr : (stdout 1024).Reachable _ := ⟨[.write 0 [97, 10], .write 1 [98]], rfl⟩
  exact ⟨_, hr, rfl, ((flush_hands_over_iff 1024).1 _ hr 0).2.1.mpr rfl⟩

/-- `hi` is written and flushed: nothing is with the operating system. -/
theorem exists_unflushed :
    ∃ w, (stdout 1024).run (stdout 1024).init [.write 0 [104, 105], .flush 0] = some w ∧
      w.accepted = [(0, 104), (0, 105)] ∧ w.stream.handed = [] :=
  ⟨_, rfl, rfl, rfl⟩

end Flush
end RustyTokio.Stdio

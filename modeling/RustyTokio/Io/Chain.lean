import RustyTokio.Io.Buffered
import RustyTokio.Transition.System

/-!
# `Chain`: one reader after the other

`Chain::poll_read` (`io/async_io.rs`) reads from the first reader until a read has filled nothing,
and from then on from the second.  A read into an empty buffer fills nothing whatever the first
reader has to say, and switches to the second one before its time (`World.skips`).
-/

namespace RustyTokio.AsyncIo

open Transition List Bool
open Transition.Script (Source)

structure Chain where
  first : Reader
  second : Reader
  firstDone : Bool
  deriving DecidableEq

namespace Chain

def pollSecond (c : Chain) (room : ℕ) : Chain × Poll (List UInt8) :=
  ({ c with second := (c.second.pollRead room).1 }, (c.second.pollRead room).2)

def pollRead (c : Chain) (room : ℕ) : Chain × Poll (List UInt8) :=
  if c.firstDone then
    c.pollSecond room
  else
    match c.first.pollRead room with
    | (first, .ready (.ok [])) => ({ c with first := first, firstDone := true }).pollSecond room
    | (first, answer) => ({ c with first := first }, answer)

def ofScripts (first second : List (Poll (List UInt8))) : Chain :=
  ⟨.ofScript first, .ofScript second, false⟩

inductive Polls (c : Chain) (room : ℕ) : Chain → Poll (List UInt8) → Prop where
  | second (h : c.firstDone) :
      Polls c room { c with second := (c.second.pollRead room).1 } (c.second.pollRead room).2
  | turn (h : c.firstDone = false) (hend : (c.first.pollRead room).2 = .ready (.ok [])) :
      Polls c room
        ⟨(c.first.pollRead room).1, (c.second.pollRead room).1, true⟩ (c.second.pollRead room).2
  | first (h : c.firstDone = false) (hmore : (c.first.pollRead room).2 ≠ .ready (.ok [])) :
      Polls c room { c with first := (c.first.pollRead room).1 } (c.first.pollRead room).2

theorem polls_pollRead (c : Chain) (room : ℕ) :
    Polls c room (c.pollRead room).1 (c.pollRead room).2 := by
  obtain ⟨first, second, firstDone⟩ := c
  cases firstDone with
  | true => exact .second rfl
  | false =>
    have hturn := @Polls.turn ⟨first, second, false⟩ room rfl
    have hfirst := @Polls.first ⟨first, second, false⟩ room rfl
    simp only [pollRead, false_eq_true, if_false]
    dsimp only at hturn hfirst
    rcases hread : first.pollRead room with ⟨first', _ | e | _ | ⟨x, bytes⟩⟩ <;>
      rw [hread] at hturn hfirst
    · exact hfirst nofun
    · exact hfirst nofun
    · exact hturn rfl
    · exact hfirst nofun

/-- The first reader has said that it is at its end, to a read with room for a byte. -/
def Reported (c : Chain) : Prop := ∃ call ∈ c.first.log, 0 < call.1 ∧ call.2 = .ready (.ok [])

/-- The second reader was polled. -/
def Turned (c : Chain) : Prop := c.second.log ≠ []

/-! ## Polls with buffers of any lengths -/

structure World where
  chain : Chain
  delivered : List UInt8
  deriving DecidableEq

def World.poll (w : World) (room : ℕ) : World :=
  ⟨(w.chain.pollRead room).1, w.delivered ++ (w.chain.pollRead room).2.bytes⟩

theorem World.exists_polls (w : World) (room : ℕ) : ∃ c answer, Polls w.chain room c answer ∧
    w.poll room = ⟨c, w.delivered ++ answer.bytes⟩ :=
  ⟨_, _, w.chain.polls_pollRead room, rfl⟩

def chained (first second : List (Poll (List UInt8))) : System World ℕ where
  init := ⟨ofScripts first second, []⟩
  step w room := some (w.poll room)

namespace World

variable {first second : List (Poll (List UInt8))} {w v : World} {room : ℕ}

/-- A poll with an empty buffer that the first reader answers: that nothing was filled is taken for
its end. -/
def skips (w : World) (room : ℕ) : Bool :=
  room == 0 && !w.chain.firstDone && decide ((w.chain.first.pollRead room).2 = .ready (.ok []))

theorem pos_of_not_skips (h : w.skips room = false) (hdone : w.chain.firstDone = false)
    (hend : (w.chain.first.pollRead room).2 = .ready (.ok [])) : 0 < room := by
  rcases Nat.eq_zero_or_pos room with rfl | hroom
  · simp [skips, hdone, hend] at h
  · exact hroom

def Fresh (w : World) : Prop :=
  w.chain.firstDone = false → ¬ w.chain.Turned ∧ ¬ w.chain.Reported

theorem Fresh.poll (h : w.Fresh) (room : ℕ) : (w.poll room).Fresh := by
  obtain ⟨c, answer, hpolls, hpoll⟩ := w.exists_polls room
  rw [hpoll]
  intro hdone
  cases hpolls with
  | second hdone' => exact absurd (hdone'.symm.trans hdone) nofun
  | turn _ _ => exact absurd hdone nofun
  | first hdone' hmore =>
    refine ⟨(h hdone').1, ?_⟩
    rintro ⟨call, hmem, hpos, hend⟩
    rcases mem_append.mp hmem with hmem | hmem
    · exact (h hdone').2 ⟨call, hmem, hpos, hend⟩
    · rw [mem_singleton.mp hmem] at hend
      exact hmore hend

theorem fresh_of_reachable (h : (chained first second).Reachable w) : w.Fresh := by
  refine System.inv_of_reachable (S := chained first second) (I := World.Fresh) ?_ ?_ h
  · exact fun _ => ⟨fun h => h rfl, fun ⟨_, hmem, _⟩ => absurd hmem not_mem_nil⟩
  · rintro s room t hs ⟨⟩
    exact hs.poll room

/-- What was delivered, and what is to come, is the first stream and then the second. -/
structure Joined (first second : List (Poll (List UInt8))) (w : World) : Prop where
  before : w.chain.firstDone = false →
    w.chain.second = .ofScript second ∧
      w.delivered ++ Source.untilEnd w.chain.first.script = Source.untilEnd first
  after : w.chain.firstDone = true →
    w.chain.Reported ∧
      w.delivered ++ w.chain.second.rest = Source.untilEnd first ++ (Source.ofScript second).rest

theorem Joined.poll (h : w.Joined first second) (hroom : w.skips room = false) :
    (w.poll room).Joined first second := by
  obtain ⟨c, answer, hpolls, hpoll⟩ := w.exists_polls room
  rw [hpoll]
  cases hpolls with
  | second hdone =>
    obtain ⟨hreported, hstream⟩ := h.after hdone
    refine ⟨fun hdone' => absurd (hdone.symm.trans hdone') nofun, fun _ => ⟨hreported, ?_⟩⟩
    rw [← hstream, w.chain.second.rest_eq_append room, append_assoc]
  | turn hdone hend =>
    have hpos := pos_of_not_skips hroom hdone hend
    obtain ⟨hsecond, hstream⟩ := h.before hdone
    refine ⟨nofun, fun _ => ⟨⟨(room, .ready (.ok [])), ?_, hpos, rfl⟩, ?_⟩⟩
    · rw [Source.log_pollRead, hend]
      exact mem_append_right _ mem_cons_self
    · rw [Source.untilEnd_of_ended hpos hend, append_nil] at hstream
      rw [← hstream, ← hsecond, w.chain.second.rest_eq_append room, append_assoc]
  | first hdone hmore =>
    obtain ⟨hsecond, hstream⟩ := h.before hdone
    refine ⟨fun _ => ⟨hsecond, ?_⟩, fun hdone' => absurd (hdone.symm.trans hdone') nofun⟩
    rw [← hstream, Source.untilEnd_eq_append hmore, append_assoc]

theorem joined_of_reachableUnder
    (h : (chained first second).ReachableUnder (fun w room => w.skips room = false) w) :
    w.Joined first second := by
  refine System.inv_of_reachableUnder (I := World.Joined first second) ?_ ?_ h
  · exact ⟨fun _ => ⟨rfl, rfl⟩, nofun⟩
  · rintro s room t hs hroom ⟨⟩
    exact hs.poll hroom

theorem Joined.isPrefix (h : w.Joined first second) :
    w.delivered <+: Source.untilEnd first ++ (Source.ofScript second).rest := by
  cases hdone : w.chain.firstDone with
  | false =>
    rw [← (h.before hdone).2, append_assoc]
    exact prefix_append _ _
  | true =>
    rw [← (h.after hdone).2]
    exact prefix_append _ _

theorem Joined.reported_of_turned (h : w.Joined first second) (hturned : w.chain.Turned) :
    w.chain.Reported := by
  cases hdone : w.chain.firstDone with
  | false =>
    rw [Turned, (h.before hdone).1] at hturned
    exact absurd rfl hturned
  | true => exact (h.after hdone).1

theorem turned_of_skips (h : w.Fresh) (hroom : w.skips room) :
    (w.poll room).chain.Turned ∧ ¬ (w.poll room).chain.Reported := by
  simp only [skips, and_eq_true, beq_iff_eq, not_eq_true', decide_eq_true_eq] at hroom
  obtain ⟨⟨rfl, hdone⟩, hend⟩ := hroom
  obtain ⟨c, answer, hpolls, hpoll⟩ := w.exists_polls 0
  rw [hpoll]
  cases hpolls with
  | second hdone' => exact absurd (hdone'.symm.trans hdone) nofun
  | first _ hmore => exact absurd hend hmore
  | turn _ _ =>
    refine ⟨by simp [Turned, Source.log_pollRead], ?_⟩
    rintro ⟨call, hmem, hpos, hcall⟩
    rcases mem_append.mp hmem with hmem | hmem
    · exact (h hdone).2 ⟨call, hmem, hpos, hcall⟩
    · rw [mem_singleton.mp hmem] at hpos
      exact Nat.lt_irrefl 0 hpos

/-- `Chain` concatenates its readers as long as no poll skips.  The bytes delivered are then a
front of the first reader's bytes up to its end followed by the second one's, and the second is
read only after the first has reported its end.  A poll that skips reads it without such a report.
-/
theorem concatenates_unless_skips (first second : List (Poll (List UInt8))) :
    (∀ w, (chained first second).ReachableUnder (fun w room => w.skips room = false) w →
      w.delivered <+: Source.untilEnd first ++ (Source.ofScript second).rest ∧
        (w.chain.Turned → w.chain.Reported)) ∧
      ∀ w room, (chained first second).Reachable w → w.skips room = true →
        (w.poll room).chain.Turned ∧ ¬ (w.poll room).chain.Reported := by
  refine ⟨fun w hw => ?_, fun w room hw hroom => turned_of_skips (fresh_of_reachable hw) hroom⟩
  have hjoined := joined_of_reachableUnder hw
  exact ⟨hjoined.isPrefix, hjoined.reported_of_turned⟩

theorem concatenates_unless_skips_of_two : let first := [.ready (.ok [1, 2, 3]), .pending]
    let second := [.ready (.ok [4, 5, 6])]
    (∃ w, (chained first second).run (chained first second).init [2, 2, 2, 2] = some w ∧
      w.delivered = [1, 2, 3, 4, 5] ∧
      w.delivered <+: Source.untilEnd first ++ (Source.ofScript second).rest ∧
      w.chain.Turned ∧ w.chain.Reported) ∧
    ∃ w, (chained first second).run (chained first second).init [0] = some w ∧
      w.chain.Turned ∧ ¬ w.chain.Reported := by
  intro first second
  have hw : (chained first second).ReachableUnder (fun w room => w.skips room = false) _ :=
    ⟨[2, 2, 2, 2], rfl, by decide⟩
  obtain ⟨hdelivered, hreported⟩ := (concatenates_unless_skips first second).1 _ hw
  have hskipped := (concatenates_unless_skips first second).2 _ 0 ⟨[], rfl⟩ (by decide)
  exact ⟨⟨_, rfl, rfl, hdelivered, nofun, hreported nofun⟩, _, rfl, hskipped⟩

/-- A poll with an empty buffer, and then one with room: the first reader's bytes are left out. -/
theorem exists_skipped_reader : let first : List (Poll (List UInt8)) := [.ready (.ok [1, 2])]
    let second : List (Poll (List UInt8)) := [.ready (.ok [9])]
    ∃ w, (chained first second).run (chained first second).init [0, 4] = some w ∧
      w.delivered = [9] ∧
      ¬ w.delivered <+: Source.untilEnd first ++ (Source.ofScript second).rest ∧
      w.chain.Turned ∧ w.chain.first.log = [(0, .ready (.ok []))] ∧ ¬ w.chain.Reported := by
  intro first second
  refine ⟨_, rfl, rfl, by decide, nofun, rfl, ?_⟩
  rintro ⟨call, hmem, hpos, -⟩
  rw [mem_singleton.mp hmem] at hpos
  exact Nat.lt_irrefl 0 hpos

end World

end Chain

end RustyTokio.AsyncIo

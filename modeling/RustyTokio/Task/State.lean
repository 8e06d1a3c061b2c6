import Mathlib.Data.BitVec

/-!
# The state word of a task

`src/task/state.rs`.  A task carries one atomic byte with five flags.  The methods of `State` are
sequences of atomic operations on that byte; what each of them decides from the value it loaded is a
pure function of that value, and those functions are here.
-/

namespace RustyTokio.Task

abbrev Word := BitVec 8

/-- In a run queue, or about to be put there. -/
def queued : Word := 1#8 <<< 0
/-- Between `begin_poll` and `end_poll`. -/
def running : Word := 1#8 <<< 1
def notified : Word := 1#8 <<< 2
/-- The last poll has been made. -/
def complete : Word := 1#8 <<< 3
def aborted : Word := 1#8 <<< 4

def has (w flag : Word) : Bool := w &&& flag != 0#8

/-- `State::new`: a fresh task is handed straight to the scheduler. -/
def newWord : Word := queued

inductive StateSnapshot where
  | shouldSchedule
  | noOp
  deriving DecidableEq

/-- One pass of a compare-and-exchange loop, from the value it loaded. -/
inductive Attempt (α : Type) where
  | done (result : α)
  | exchange (new : Word) (result : α)
  deriving DecidableEq

def wakeAttempt (state : Word) : Attempt StateSnapshot :=
  if has state complete then .done .noOp
  else if has state running then
    if has state notified then .done .noOp else .exchange (state ||| notified) .noOp
  else if has state queued then .done .noOp
  else .exchange (state ||| queued) .shouldSchedule

def beginWord (state : Word) : Word := (state &&& ~~~(queued ||| notified)) ||| running

def beginAssert (state : Word) : Bool := has state queued && !has state running

/-- One pass of the loop of `end_poll(false)`: what it stores, and whether the
caller must schedule the task again. -/
def endAttempt (state : Word) : Word × Bool :=
  if has state notified then ((state &&& ~~~(running ||| notified)) ||| queued, true)
  else (state &&& ~~~running, false)

/-! ## The flags of a word -/

structure Flags where
  queued : Bool
  running : Bool
  notified : Bool
  complete : Bool
  aborted : Bool
  deriving DecidableEq

def flags (w : Word) : Flags :=
  ⟨has w queued, has w running, has w notified, has w complete, has w aborted⟩

@[simp] theorem has_queued (w : Word) : has w queued = (flags w).queued := rfl
@[simp] theorem has_running (w : Word) : has w running = (flags w).running := rfl
@[simp] theorem has_notified (w : Word) : has w notified = (flags w).notified := rfl
@[simp] theorem has_complete (w : Word) : has w complete = (flags w).complete := rfl
@[simp] theorem has_aborted (w : Word) : has w aborted = (flags w).aborted := rfl

@[simp] theorem flags_newWord : flags newWord = ⟨true, false, false, false, false⟩ := by
  decide

@[simp] theorem flags_or_queued (w : Word) :
    flags (w ||| queued) = { flags w with queued := true } := by
  revert w
  decide +kernel

@[simp] theorem flags_or_notified (w : Word) :
    flags (w ||| notified) = { flags w with notified := true } := by
  revert w
  decide +kernel

@[simp] theorem flags_or_complete (w : Word) :
    flags (w ||| complete) = { flags w with complete := true } := by
  revert w
  decide +kernel

@[simp] theorem flags_or_aborted (w : Word) :
    flags (w ||| aborted) = { flags w with aborted := true } := by
  revert w
  decide +kernel

@[simp] theorem flags_and_not_running (w : Word) :
    flags (w &&& ~~~running) = { flags w with running := false } := by
  revert w
  decide +kernel

@[simp] theorem flags_beginWord (w : Word) : flags (beginWord w) =
      { flags w with queued := false, notified := false, running := true } := by
  revert w
  decide +kernel

theorem flags_reschedule (w : Word) : flags ((w &&& ~~~(running ||| notified)) ||| queued) =
      { flags w with queued := true, notified := false, running := false } := by
  revert w
  decide +kernel

theorem or_aborted_idem (w : Word) : (w ||| aborted) ||| aborted = w ||| aborted := by
  rw [BitVec.or_assoc, BitVec.or_self]

theorem or_aborted_of_has {w : Word} (h : has w aborted) : w ||| aborted = w := by
  revert w
  decide +kernel

/-! ## What an attempt can be -/

/-- **The passes of `wake`.**  Nothing is stored on a complete word, on a
running word already notified, or on a queued word; a running word gets
notified; an idle word gets queued, and only then must the caller schedule. -/
theorem wakeAttempt_cases (w : Word) : (wakeAttempt w = .done .noOp ∧
      ((flags w).complete ∨ (flags w).queued ∨ ((flags w).running ∧ (flags w).notified))) ∨
    (wakeAttempt w = .exchange (w ||| notified) .noOp ∧
      (flags w).complete = false ∧ (flags w).running) ∨
    (wakeAttempt w = .exchange (w ||| queued) .shouldSchedule ∧
      (flags w).complete = false ∧ (flags w).running = false ∧ (flags w).queued = false) := by
  by_cases hc : (flags w).complete
  · exact .inl ⟨by simp [wakeAttempt, hc], .inl hc⟩
  · by_cases hr : (flags w).running
    · by_cases hn : (flags w).notified
      · exact .inl ⟨by simp [wakeAttempt, hc, hr, hn], .inr (.inr ⟨hr, hn⟩)⟩
      · exact .inr (.inl ⟨by simp [wakeAttempt, hc, hr, hn], by simpa using hc, hr⟩)
    · by_cases hq : (flags w).queued
      · exact .inl ⟨by simp [wakeAttempt, hc, hr, hq], .inr (.inl hq)⟩
      · exact .inr (.inr ⟨by simp [wakeAttempt, hc, hr, hq], by simpa using hc,
          by simpa using hr, by simpa using hq⟩)

theorem flags_endAttempt (w : Word) : (flags w).notified = (endAttempt w).2 ∧
      flags (endAttempt w).1 =
        { flags w with queued := (flags w).queued || (flags w).notified,
                       notified := false, running := false } := by
  by_cases hn : (flags w).notified
  · have he : endAttempt w = ((w &&& ~~~(running ||| notified)) ||| queued, true) := by
      simp [endAttempt, hn]
    rw [he, flags_reschedule, hn, Bool.or_true]
    exact ⟨rfl, rfl⟩
  · have he : endAttempt w = (w &&& ~~~running, false) := by simp [endAttempt, hn]
    have hn' : (flags w).notified = false := by simpa using hn
    rw [he, flags_and_not_running, hn', Bool.or_false, ← hn']
    exact ⟨rfl, rfl⟩

end RustyTokio.Task

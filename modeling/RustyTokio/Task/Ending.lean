import RustyTokio.Task.Join
import RustyTokio.Transition.Pool

/-!
# How a task ends

The books a task keeps about its own end: the hook for an abnormal end, the cell shared with the
`JoinHandle`, and the record of what has been decided, handed over and marked.
-/

namespace RustyTokio.Task

open Transition

variable {T P : Type}

inductive Progress (T P : Type) where
  | outside
  | before
  | due (result : JoinResult T P) (hook : Bool)
  | handing (old : JoinState T P) (hook : Bool)
  | given (hook : Bool)
  | broken

/-- The part of the memory that is about the end of the task. -/
structure Books (T P : Type) where
  hook : Bool
  join : JoinInner T P
  handle : Phase
  lastWaker : ℕ
  freed : Bool
  terminals : List (JoinResult T P)
  finishes : List (JoinResult T P)
  marks : ℕ

namespace Books

def Untouched (b : Books T P) : Prop :=
  b.terminals = [] ∧ b.finishes = [] ∧ (b.freed = false → b.hook = true)

/-- One result was decided, and `finish` has been called with it. -/
def Handed (b : Books T P) : Prop := ∃ r, b.terminals = [r] ∧ b.finishes = [r]

/-- What the join state says of the results. -/
def JoinOk (b : Books T P) : Prop :=
  match b.join.state with
  | .running => b.finishes = [] ∧ b.handle ≠ .parked false
  | .waiting w => b.finishes = [] ∧ w = b.lastWaker
  | .done r => b.finishes = [r]
  | .taken => (∃ r, b.finishes = [r]) ∧ b.handle.isLive = false

end Books

/-- What the books say when a thread is that far. -/
def Progress.Ok (b : Books T P) : Progress T P → Prop
  | .outside => True
  | .before => b.terminals = [] ∧ b.finishes = [] ∧ b.hook = true
  | .due r k => b.terminals = [r] ∧ b.finishes = [] ∧ b.hook = k
  | .handing old k =>
    b.Handed ∧ b.hook = k ∧ (b.handle = .parked false → old.waker = some b.lastWaker)
  | .given k => b.Handed ∧ b.hook = k ∧ b.handle ≠ .parked false
  | .broken => b.terminals.length ≤ 1 ∧ (b.finishes = [] ∨ b.handle ≠ .parked false)

inductive Settles : Books T P → Progress T P → Books T P → Progress T P → Prop
  | keep (b : Books T P) (p : Progress T P) : Settles b p b p
  | start (b : Books T P) : Settles b .outside b .before
  | startAborted (b : Books T P) (r : JoinResult T P) :
      Settles b .outside { b with terminals := b.terminals ++ [r] } (.due r true)
  | decide (b : Books T P) (r : JoinResult T P) :
      Settles b .before { b with terminals := b.terminals ++ [r] } (.due r true)
  | pause (b : Books T P) : Settles b .before b .outside
  | fire (b : Books T P) (r : JoinResult T P) :
      Settles b (.due r true) { b with hook := false } (.due r false)
  | skip (b : Books T P) (r : JoinResult T P) (h : b.hook = false) :
      Settles b (.due r true) b (.given false)
  | swap (b : Books T P) (r : JoinResult T P) (k : Bool) :
      Settles b (.due r k)
        { b with join := (b.join.swapDone r).1, finishes := b.finishes ++ [r] }
        (.handing (b.join.swapDone r).2 k)
  | store (b : Books T P) (old : JoinState T P) (k : Bool) :
      Settles b (.handing old k) { b with join := b.join.storeFinished } (.handing old k)
  | wake (b : Books T P) (old : JoinState T P) (k : Bool) :
      Settles b (.handing old k)
        { b with handle := if old.waker = some b.lastWaker then b.handle.wake else b.handle }
        (.given k)
  | dropHook (b : Books T P) : Settles b (.given true) { b with hook := false } (.given false)
  | mark (b : Books T P) : Settles b (.given false) { b with marks := b.marks + 1 } .outside
  | unwind (b : Books T P) {p} (h : p = .before ∨ ∃ r, p = .due r true) :
      Settles b p b .broken
  | abandon (b : Books T P) (k hook : Bool) : Settles b (.given k) { b with hook } .broken

/-! ## One step -/

namespace Settles

variable {b b' : Books T P} {p p' : Progress T P}

theorem ok (h : Settles b p b' p') (hp : p.Ok b) (hj : b.JoinOk)
    (hu : p = .outside → b.Untouched ∧ b.freed = false) : p'.Ok b' := by
  cases h with
  | keep | store old k => exact hp
  | start =>
    obtain ⟨⟨ht, hf, hh⟩, hn⟩ := hu rfl
    exact ⟨ht, hf, hh hn⟩
  | startAborted r =>
    obtain ⟨⟨ht, hf, hh⟩, hn⟩ := hu rfl
    exact ⟨by simp [ht], hf, hh hn⟩
  | decide r =>
    obtain ⟨ht, hf, hh⟩ := hp
    exact ⟨by simp [ht], hf, hh⟩
  | pause | mark => trivial
  | fire r => exact ⟨hp.1, hp.2.1, rfl⟩
  | skip r hk => exact absurd hp.2.2 (by simp [hk])
  | swap r k =>
    obtain ⟨ht, hf, hh⟩ := hp
    refine ⟨⟨r, ht, by simp [hf]⟩, hh, fun hpark => ?_⟩
    -- what `finish` finds in the cell of a parked handle is the waker of its last poll
    unfold Books.JoinOk at hj
    simp only [JoinInner.swapDone]
    split at hj
    · exact absurd hpark hj.2
    next w hw =>
      rw [hw, hj.2]
      rfl
    · simp [hf] at hj
    · obtain ⟨⟨r', hr'⟩, -⟩ := hj
      simp [hf] at hr'
  | wake old k =>
    obtain ⟨hr, hh, hw⟩ := hp
    refine ⟨hr, hh, ?_⟩
    dsimp only
    by_cases hpark : b.handle = .parked false
    · rw [if_pos (hw hpark), hpark]
      simp [Phase.wake]
    · split
      · cases hb : b.handle with
        | parked w => simp [Phase.wake]
        | _ => simp [Phase.wake]
      · exact hpark
  | dropHook => exact ⟨hp.1, rfl, hp.2.2⟩
  | unwind hb =>
    rcases hb with rfl | ⟨r, rfl⟩ <;> exact ⟨by simp [hp.1], .inl hp.2.1⟩
  | abandon k hook =>
    obtain ⟨⟨r, ht, -⟩, -, hpark⟩ := hp
    exact ⟨by simp [ht], .inr hpark⟩

theorem joinOk (h : Settles b p b' p') (hp : p.Ok b) (hj : b.JoinOk) : b'.JoinOk := by
  cases h with
  | swap r k =>
    obtain ⟨-, hf, -⟩ := hp
    simp [Books.JoinOk, JoinInner.swapDone, hf]
  | wake old k =>
    obtain ⟨⟨r, -, hf⟩, -, -⟩ := hp
    unfold Books.JoinOk at hj ⊢
    dsimp only
    split at hj
    · exact absurd hj.1 (by simp [hf])
    · exact absurd hj.1 (by simp [hf])
    · exact hj
    · refine ⟨hj.1, ?_⟩
      have hl := hj.2
      cases hb : b.handle <;> simp_all [Phase.wake, Phase.isLive]
  | _ => exact hj

theorem leaves (h : Settles b p b' p') (hp : p.Ok b) (hne : p ≠ .outside) (hp' : p' = .outside) :
    (b' = b ∧ b.Untouched) ∨ (b'.marks = b.marks + 1 ∧ b'.Handed ∧ b'.handle ≠ .parked false) := by
  cases h with
  | keep => exact absurd hp' hne
  | pause => exact .inl ⟨rfl, hp.1, hp.2.1, fun _ => hp.2.2⟩
  | mark => exact .inr ⟨rfl, hp.1, hp.2.2⟩
  | _ => cases hp'

theorem marks_eq (h : Settles b p b' p') (hp' : p' ≠ .outside) : b'.marks = b.marks := by
  cases h with
  | mark => exact absurd rfl hp'
  | _ => rfl

end Settles

/-! ## The books of all threads -/

/-- The books agree with the join state and with every thread. -/
structure Ledger (b : Books T P) (ps : List (Progress T P)) : Prop where
  join : b.JoinOk
  untouched : (∀ p ∈ ps, p = .outside) → b.marks = 0 → b.Untouched
  marked : 0 < b.marks → b.Handed ∧ b.handle ≠ .parked false
  ok : ∀ p ∈ ps, p.Ok b

namespace Ledger

variable {b b' : Books T P} {ps : List (Progress T P)} {i : ℕ} {p p' : Progress T P}

theorem settles (h : Ledger b ps) (hp : ps[i]? = some p) (hs : Settles b p b' p')
    (halone : ∀ j q, j ≠ i → ps[j]? = some q → q = .outside) (hm : b.marks = 0)
    (hf : b.freed = false) : Ledger b' (ps.set i p') := by
  have hok := h.ok p (List.mem_of_getElem? hp)
  have hall : p = .outside → ∀ q ∈ ps, q = .outside := by
    rintro rfl q hq
    obtain ⟨j, hj⟩ := List.mem_iff_getElem?.mp hq
    obtain rfl | hji := eq_or_ne j i
    · exact (Option.some.inj (hp.symm.trans hj)).symm
    · exact halone j q hji hj
  have hu : p = .outside → b.Untouched ∧ b.freed = false := fun he =>
    ⟨h.untouched (hall he) hm, hf⟩
  have hself : p' ∈ ps.set i p' := by
    refine List.mem_of_getElem? (i := i) ?_
    rw [List.getElem?_set_self (List.getElem?_eq_some_iff.mp hp).1]
  refine ⟨hs.joinOk hok h.join, ?_, ?_, ?_⟩
  · intro hout hm'
    have hp' := hout p' hself
    obtain rfl | hpo := eq_or_ne p .outside
    · subst hp'
      cases hs with
      | keep => exact (hu rfl).1
    · rcases hs.leaves hok hpo hp' with ⟨rfl, hu'⟩ | ⟨hmk, -⟩
      · exact hu'
      · omega
  · intro hm'
    by_cases hp' : p' = .outside
    · obtain rfl | hpo := eq_or_ne p .outside
      · subst hp'
        cases hs with
        | keep => exact h.marked hm'
      · rcases hs.leaves hok hpo hp' with ⟨rfl, -⟩ | ⟨-, hr⟩
        · exact h.marked hm'
        · exact hr
    · have := hs.marks_eq hp'
      omega
  · intro q hq
    rcases Pool.mem_set_cases hp hq with rfl | ⟨j, hji, hj⟩
    · exact hs.ok hok h.join hu
    · rw [halone j q hji hj]
      trivial

theorem joinPoll (h : Ledger b ps) {w : ℕ} {j : JoinInner T P} {r : Option (JoinResult T P)}
    (hpoll : b.join.poll w = some (j, r)) : Ledger { b with
      join := j, lastWaker := w, handle := if r.isSome then .finished else .parked false } ps := by
  have hj := h.join
  unfold Books.JoinOk at hj
  unfold JoinInner.poll at hpoll
  by_cases hf : b.finishes = []
  · -- nothing handed over: the handle parks with its new waker
    have hst : j.state = .waiting w ∧ r = none := by
      split at hj <;> rename_i hs <;> simp only [hs] at hpoll
      · cases hpoll
        exact ⟨rfl, rfl⟩
      · cases hpoll
        exact ⟨rfl, rfl⟩
      · simp [hj] at hf
      · cases hpoll
    have hno : ¬ b.Handed := by
      rintro ⟨r', -, hr'⟩
      simp [hr'] at hf
    refine ⟨by simp [Books.JoinOk, hst.1, hf], h.untouched, fun hm => absurd (h.marked hm).1 hno,
      fun p hp => ?_⟩
    have hok := h.ok p hp
    cases p with
    | handing old k | given k => exact absurd hok.1 hno
    | broken => exact ⟨hok.1, .inl hf⟩
    | _ => exact hok
  · -- the result is there: the handle takes it
    obtain ⟨rd, hst, rfl, rfl⟩ : ∃ rd, b.finishes = [rd] ∧ j = { b.join with state := .taken } ∧
        r = some rd := by
      split at hj <;> rename_i hs <;> simp only [hs] at hpoll
      · exact absurd hj.1 hf
      · exact absurd hj.1 hf
      · cases hpoll
        exact ⟨_, hj, rfl, rfl⟩
      · cases hpoll
    refine ⟨⟨⟨rd, hst⟩, rfl⟩, h.untouched, fun hm => ⟨(h.marked hm).1, by simp⟩, fun p hp => ?_⟩
    have hok := h.ok p hp
    cases p with
    | handing old k => exact ⟨hok.1, hok.2.1, by simp⟩
    | given k => exact ⟨hok.1, hok.2.1, by simp⟩
    | broken => exact ⟨hok.1, .inr (by simp)⟩
    | _ => exact hok

theorem joinDrop (h : Ledger b ps) : Ledger { b with handle := .dropped } ps := by
  have hj := h.join
  refine ⟨?_, h.untouched, fun hm => ⟨(h.marked hm).1, by simp⟩, fun p hp => ?_⟩
  · unfold Books.JoinOk at hj ⊢
    dsimp only
    split at hj
    · exact ⟨hj.1, by simp⟩
    · exact hj
    · exact hj
    · exact ⟨hj.1, rfl⟩
  · have hok := h.ok p hp
    cases p with
    | handing old k => exact ⟨hok.1, hok.2.1, by simp⟩
    | given k => exact ⟨hok.1, hok.2.1, by simp⟩
    | broken => exact ⟨hok.1, .inr (by simp)⟩
    | _ => exact hok

theorem frees (h : Ledger b ps) (hps : ∀ p ∈ ps, p = .outside ∨ p = .broken) :
    Ledger { b with freed := true, hook := false } ps := by
  refine ⟨h.join, fun hout hm => ?_, h.marked, fun p hp => ?_⟩
  · obtain ⟨ht, hf, -⟩ := h.untouched hout hm
    exact ⟨ht, hf, by simp⟩
  · rcases hps p hp with rfl | rfl
    · trivial
    · exact h.ok _ hp

end Ledger

end RustyTokio.Task

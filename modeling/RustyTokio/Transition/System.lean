import Mathlib.Data.List.Basic
import Mathlib.Logic.Basic

/-!
# Labelled transition systems and their runs

A concurrent component is given here by an initial state and a partial step
function on labels: a label names the party that moves and every choice that
party leaves open, so that a run is nothing but its list of labels.

* `System.run`: follow a list of labels, failing as soon as one is not enabled.
* `System.Along`: every label of the list is taken in a state that meets a
  condition on the state *before* the step.
* `System.Reachable`, `System.ReachableUnder`: the states at the end of some
  run, and of some run along a condition.
* `System.inv_of_reachableUnder`: the one induction on runs.  An invariant is
  proved by its step lemma and read off here.
* `System.LeadsTo`: labels of a certain sort alone can lead to a state with a
  property; `System.LeadsTo.of_rank` proves it by a rank that falls.
-/

namespace RustyTokio.Transition

open List Option

/-! ## Steps behind a guard -/

section

variable {α β : Type*} {p : Prop} [Decidable p] {a b : α} {x y : β}

/-- A guarded step that was taken: the guard holds, and the step led there. -/
theorem of_guard (h : (if p then some a else none) = some b) : p ∧ a = b := by
  obtain ⟨hp, hab⟩ := ite_none_right_eq_some.mp h
  exact ⟨hp, some.inj hab⟩

theorem of_guard_not (h : (if p then none else some a) = some b) : ¬ p ∧ a = b := by
  obtain ⟨hp, hab⟩ := ite_none_left_eq_some.mp h
  exact ⟨hp, some.inj hab⟩

/-- The same for a step that first looks something up. -/
theorem bind_guard_eq_some {o : Option α} {p : α → Prop} [DecidablePred p] {g : α → β} :
    (o.bind fun a => if p a then some (g a) else none) = some x ↔
      ∃ a, o = some a ∧ p a ∧ g a = x := by
  simp only [bind_eq_some_iff, ite_none_right_eq_some, some.injEq]

theorem pair_of_some (h : some (a, x) = some (b, y)) : a = b ∧ x = y :=
  Prod.mk.inj (some.inj h)

theorem lt_of_some {l : List α} {i : ℕ} (h : l[i]? = some a) : i < l.length :=
  (List.getElem?_eq_some_iff.mp h).1

end

/-- A labelled transition system.  `step s e` is `none` when the label `e` is
not enabled in `s`. -/
structure System (σ ε : Type*) where
  init : σ
  step : σ → ε → Option σ

namespace System

variable {σ ε : Type*} (S : System σ ε) {C D : ε → Prop} {P Q : σ → Prop} {s t : σ} {e : ε}
  {es : List ε}

/-! ## Runs -/

/-- The state after the labels of a list, if each of them was enabled. -/
def run : σ → List ε → Option σ
  | s, [] => some s
  | s, e :: es => (S.step s e).bind fun t => run t es

/-- Every label of the list is taken in a state meeting `C`.  Nothing is asked
of the labels after one that is not enabled. -/
def Along (C : σ → ε → Prop) : σ → List ε → Prop
  | _, [] => True
  | s, e :: es => C s e ∧ match S.step s e with
    | none => True
    | some t => Along C t es

instance decidableAlong (C : σ → ε → Prop) [∀ s e, Decidable (C s e)] :
    ∀ s es, Decidable (S.Along C s es)
  | _, [] => .isTrue trivial
  | s, e :: es =>
    match hC : (inferInstance : Decidable (C s e)) with
    | .isFalse h => .isFalse fun hA => h hA.1
    | .isTrue h =>
      match hs : S.step s e with
      | none => .isTrue ⟨h, by rw [hs]; trivial⟩
      | some t =>
        match decidableAlong C t es with
        | .isTrue ht => .isTrue ⟨h, by rw [hs]; exact ht⟩
        | .isFalse ht => .isFalse fun hA => ht (by have := hA.2; rwa [hs] at this)

theorem run_cons (s : σ) (e : ε) (es : List ε) :
    S.run s (e :: es) = (S.step s e).bind fun t => S.run t es := rfl

variable {S}

section

variable {C D : σ → ε → Prop} {I : σ → Prop} {s t u : σ} {e : ε} {es fs : List ε}

theorem run_cons_eq_some :
    S.run s (e :: es) = some u ↔ ∃ t, S.step s e = some t ∧ S.run t es = some u := by
  rw [run_cons, bind_eq_some_iff]

theorem along_cons_of_step (h : S.step s e = some t) :
    S.Along C s (e :: es) ↔ C s e ∧ S.Along C t es := by
  rw [Along, h]

theorem run_append (h : S.run s es = some t) : S.run s (es ++ fs) = S.run t fs := by
  induction es generalizing s with
  | nil => rw [nil_append, ← some.inj h]
  | cons e es ih =>
    obtain ⟨u, hu, hr⟩ := run_cons_eq_some.mp h
    rw [cons_append, run_cons, hu]
    exact ih hr

theorem Along.mono (hCD : ∀ s e, C s e → D s e) :
    ∀ {es : List ε} {s : σ}, S.Along C s es → S.Along D s es
  | [], _, _ => trivial
  | e :: es, s, h => by
    refine ⟨hCD s e h.1, ?_⟩
    have h2 := h.2
    cases hs : S.step s e with
    | none => trivial
    | some t =>
      rw [hs] at h2
      exact Along.mono hCD h2

/-- **The induction on runs.**  What holds at the start and is kept by every
step taken under the condition holds at the end of the run. -/
theorem inv_of_run (hstep : ∀ s e t, I s → C s e → S.step s e = some t → I t) :
    ∀ {es : List ε} {s t : σ}, I s → S.run s es = some t → S.Along C s es → I t
  | [], _, _, h0, hr, _ => by rwa [← some.inj hr]
  | e :: es, s, t, h0, hr, hA => by
    obtain ⟨u, hu, hr⟩ := run_cons_eq_some.mp hr
    rw [along_cons_of_step hu] at hA
    exact inv_of_run hstep (hstep s e u h0 hA.1 hu) hr hA.2

theorem along_of_forall (hC : ∀ s e, C s e) : ∀ (s : σ) (es : List ε), S.Along C s es
  | _, [] => trivial
  | s, e :: es => by
    refine ⟨hC s e, ?_⟩
    cases S.step s e with
    | none => trivial
    | some t => exact along_of_forall hC t es

theorem inv_of_any_run (hstep : ∀ s e t, I s → S.step s e = some t → I t) (h0 : I s)
    (hr : S.run s es = some t) : I t :=
  inv_of_run (C := fun _ _ => True) (fun s e t hI _ hs => hstep s e t hI hs) h0 hr
    (along_of_forall (fun _ _ => trivial) _ _)

end

/-! ## Reachable states -/

variable (S)

/-- The end states of the runs along `C`. -/
def ReachableUnder (C : σ → ε → Prop) (s : σ) : Prop :=
  ∃ es, S.run S.init es = some s ∧ S.Along C S.init es

def Reachable (s : σ) : Prop := ∃ es, S.run S.init es = some s

variable {S}

section

variable {C D : σ → ε → Prop} {I : σ → Prop} {s t : σ} {e : ε}

theorem ReachableUnder.reachable (h : S.ReachableUnder C s) : S.Reachable s :=
  h.imp fun _ he => he.1

theorem ReachableUnder.mono (hCD : ∀ s e, C s e → D s e) (h : S.ReachableUnder C s) :
    S.ReachableUnder D s := by
  obtain ⟨es, hr, hA⟩ := h
  exact ⟨es, hr, hA.mono hCD⟩

theorem reachable_init : S.Reachable S.init := ⟨[], rfl⟩

theorem Reachable.step (h : S.Reachable s) (hs : S.step s e = some t) : S.Reachable t := by
  obtain ⟨es, hr⟩ := h
  exact ⟨es ++ [e], by rw [run_append hr, run_cons, hs]; rfl⟩

/-- **Invariants along conditioned runs.** -/
theorem inv_of_reachableUnder (h0 : I S.init)
    (hstep : ∀ s e t, I s → C s e → S.step s e = some t → I t) (h : S.ReachableUnder C s) :
    I s := by
  obtain ⟨es, hr, hA⟩ := h
  exact inv_of_run hstep h0 hr hA

/-- **Invariants of all reachable states.** -/
theorem inv_of_reachable (h0 : I S.init) (hstep : ∀ s e t, I s → S.step s e = some t → I t)
    (h : S.Reachable s) : I s := by
  obtain ⟨es, hr⟩ := h
  exact inv_of_any_run hstep h0 hr

/-- An invariant of conditioned runs whose steps may use what is known of all reachable
states. -/
theorem ReachableUnder.inv (h : S.ReachableUnder C s) (h0 : I S.init)
    (hstep : ∀ s e t, S.Reachable s → I s → C s e → S.step s e = some t → I t) : I s := by
  have hboth : S.Reachable s ∧ I s := by
    refine inv_of_reachableUnder (I := fun s => S.Reachable s ∧ I s) ⟨reachable_init, h0⟩ ?_ h
    rintro s e t ⟨hr, hI⟩ hC hs
    exact ⟨hr.step hs, hstep s e t hr hI hC hs⟩
  exact hboth.2

theorem Reachable.inv (h : S.Reachable s) (h0 : I S.init)
    (hstep : ∀ s e t, S.Reachable s → I s → S.step s e = some t → I t) : I s := by
  obtain ⟨es, hr⟩ := h
  have hunder : S.ReachableUnder (fun _ _ => True) s :=
    ⟨es, hr, along_of_forall (fun _ _ => trivial) _ _⟩
  exact hunder.inv h0 fun s e t hr hI _ hs => hstep s e t hr hI hs

end

/-! ## What can still be reached -/

variable (S)

/-- Labels meeting `C` alone can lead to a state with the property. -/
def LeadsTo (C : ε → Prop) (P : σ → Prop) (s : σ) : Prop :=
  ∃ es u, (∀ e ∈ es, C e) ∧ S.run s es = some u ∧ P u

variable {S}

theorem LeadsTo.of_run (hC : ∀ e ∈ es, C e) (hr : S.run s es = some t) (h : S.LeadsTo C P t) :
    S.LeadsTo C P s := by
  obtain ⟨fs, v, hfs, hv, hP⟩ := h
  refine ⟨es ++ fs, v, fun e he => ?_, by rw [run_append hr, hv], hP⟩
  rcases mem_append.mp he with he | he
  · exact hC e he
  · exact hfs e he

theorem LeadsTo.of_step (hC : C e) (hs : S.step s e = some t) (h : S.LeadsTo C P t) :
    S.LeadsTo C P s := by
  have hr : S.run s [e] = some t := run_cons_eq_some.mpr ⟨t, hs, rfl⟩
  exact LeadsTo.of_run (fun d hd => by rwa [mem_singleton.mp hd]) hr h

theorem LeadsTo.mono (hPQ : ∀ t, P t → Q t) (h : S.LeadsTo C P s) : S.LeadsTo C Q s := by
  obtain ⟨es, u, hC, hr, hP⟩ := h
  exact ⟨es, u, hC, hr, hPQ u hP⟩

theorem LeadsTo.mono_label (hCD : ∀ e, C e → D e) (h : S.LeadsTo C P s) : S.LeadsTo D P s := by
  obtain ⟨es, u, hC, hr, hP⟩ := h
  exact ⟨es, u, fun e he => hCD e (hC e he), hr, hP⟩

theorem LeadsTo.bind (h : S.LeadsTo C P s) (hPQ : ∀ t, P t → S.LeadsTo C Q t) :
    S.LeadsTo C Q s := by
  obtain ⟨es, u, hC, hr, hP⟩ := h
  exact .of_run hC hr (hPQ u hP)

theorem LeadsTo.now (h : P s) : S.LeadsTo C P s :=
  ⟨[], s, by simp, rfl, h⟩

/-- **Progress by a rank.**  As long as the property does not hold, some move leads to it or lowers
the rank. -/
theorem LeadsTo.of_rank {I : σ → Prop} (rank : σ → ℕ) (hnext : ∀ s, I s → P s ∨
      ∃ e t, C e ∧ S.step s e = some t ∧ (P t ∨ I t ∧ rank t < rank s)) (h : I s) :
    S.LeadsTo C P s := by
  induction hn : rank s using Nat.strongRecOn generalizing s with
  | _ n ih =>
    subst hn
    rcases hnext s h with hP | ⟨e, t, he, hs, hP | ⟨ht, hlt⟩⟩
    · exact .now hP
    · exact .of_step he hs (.now hP)
    · exact .of_step he hs (ih (rank t) hlt ht rfl)

end System

end RustyTokio.Transition

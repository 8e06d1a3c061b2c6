import RustyTokio.Transition.Script

/-!
# Futures whose poll is a loop

A poll that goes round a loop until something ends it is given by one pass: the state after the
pass, and what the poll returns if the pass ends it.  The loop is run with a bound on its passes.
-/

namespace RustyTokio.Transition
namespace Loop

variable {σ ε α : Type} (pass : σ → σ × Option (Script.Poll ε α)) (size : σ → ℕ) {I : σ → Prop}
  {s t : σ} {answer : Script.Poll ε α} {waits : σ → ℕ}

def passes : ℕ → σ → σ × Script.Poll ε α
  | 0, s => (s, .pending)
  | n + 1, s =>
    match pass s with
    | (t, some answer) => (t, answer)
    | (t, none) => passes n t

/-- The state in which the last of so many passes begins. -/
def last : ℕ → σ → σ
  | 0, s => s
  | n + 1, s =>
    match pass s with
    | (_, some _) => s
    | (t, none) => last n t

/-- One poll, with more passes than the number that falls. -/
def poll (s : σ) : σ × Script.Poll ε α := passes pass (size s + 1) s

/-- A future polled until it is ready, at most so many times. -/
def await (poll : σ → σ × Script.Poll ε α) : ℕ → σ → Option (σ × Except ε α)
  | 0, _ => none
  | polls + 1, s =>
    match poll s with
    | (t, .pending) => await poll polls t
    | (t, .ready result) => some (t, result)

/-- A pass that goes on keeps `I` and makes the state smaller. -/
def Falls (I : σ → Prop) : Prop := ∀ s t, I s → pass s = (t, none) → I t ∧ size t < size s

variable {pass size}

theorem passes_of_le (hfalls : Falls pass size I) {n m : ℕ} (h : I s) (hn : size s < n)
    (hm : n ≤ m) : passes pass m s = passes pass n s := by
  induction n generalizing s m with
  | zero => cases hn
  | succ n ih =>
    obtain ⟨m, rfl⟩ : ∃ k, m = k + 1 := ⟨m - 1, by omega⟩
    rw [passes, passes]
    rcases hp : pass s with ⟨t, _ | answer⟩
    · obtain ⟨ht, hless⟩ := hfalls s t h hp
      exact ih ht (by omega) (by omega)
    · rfl

theorem poll_eq (hfalls : Falls pass size I) (h : I s) : poll pass size s = match pass s with
      | (t, some answer) => (t, answer)
      | (t, none) => poll pass size t := by
  rw [poll, passes]
  rcases hp : pass s with ⟨t, _ | answer⟩
  · obtain ⟨ht, hless⟩ := hfalls s t h hp
    exact passes_of_le hfalls ht (Nat.lt_succ_self _) (by omega)
  · rfl

theorem pass_last (hfalls : Falls pass size I) {n : ℕ} (h : I s) (hn : size s < n) :
    I (last pass n s) ∧
      pass (last pass n s) = ((passes pass n s).1, some (passes pass n s).2) := by
  induction n generalizing s with
  | zero => cases hn
  | succ n ih =>
    rw [last, passes]
    rcases hp : pass s with ⟨t, _ | answer⟩
    · obtain ⟨ht, hless⟩ := hfalls s t h hp
      exact ih ht (by omega)
    · exact ⟨h, hp⟩

theorem poll_spec {Q : σ → Script.Poll ε α → Prop} (hfalls : Falls pass size I)
    (hends : ∀ s t answer, I s → pass s = (t, some answer) → Q t answer) (h : I s) :
    Q (poll pass size s).1 (poll pass size s).2 := by
  obtain ⟨hI, hp⟩ := pass_last hfalls h (Nat.lt_succ_self _)
  exact hends _ _ _ hI hp

/-- What the passes keep holds however many of them there are. -/
theorem passes_inv {Q : σ → Script.Poll ε α → Prop} (hon : ∀ s t, I s → pass s = (t, none) → I t)
    (hends : ∀ s t answer, I s → pass s = (t, some answer) → Q t answer)
    (hpending : ∀ s, I s → Q s .pending) (n : ℕ) (h : I s) :
    Q (passes pass n s).1 (passes pass n s).2 := by
  induction n generalizing s with
  | zero => exact hpending s h
  | succ n ih =>
    rw [passes]
    rcases hp : pass s with ⟨t, _ | answer⟩
    · exact ih (hon s t h hp)
    · exact hends s t answer h hp

theorem await_spec {poll : σ → σ × Script.Poll ε α} {Q : σ → Except ε α → Prop}
    (hpending : ∀ s t, I s → poll s = (t, .pending) → I t ∧ waits t < waits s)
    (hready : ∀ s t result, I s → poll s = (t, .ready result) → Q t result) {polls : ℕ}
    (h : I s) (hpolls : waits s < polls) :
    ∃ t result, await poll polls s = some (t, result) ∧ Q t result := by
  induction polls generalizing s with
  | zero => cases hpolls
  | succ polls ih =>
    rw [await]
    rcases hp : poll s with ⟨t, _ | result⟩
    · obtain ⟨ht, hless⟩ := hpending s t h hp
      exact ih ht (by omega)
    · exact ⟨t, result, rfl, hready s t result h hp⟩

/-- What a pass does to a future that has only so often to wait, by what it ends with. -/
inductive Goes (I : σ → Prop) (waits : σ → ℕ) (Q : σ → Except ε α → Prop) (s t : σ) :
    Option (Script.Poll ε α) → Prop where
  | on (h : I t) (hle : waits t ≤ waits s) : Goes I waits Q s t none
  | pending (h : I t) (hless : waits t < waits s) : Goes I waits Q s t (some .pending)
  | ready {result} (h : Q t result) : Goes I waits Q s t (some (.ready result))

theorem Goes.of_le {Q : σ → Except ε α → Prop} {r : σ}
    {result : Option (Script.Poll ε α)} (hle : waits s ≤ waits r) (h : Goes I waits Q s t result) :
    Goes I waits Q r t result := by
  cases h with
  | on ht hle' => exact .on ht (Nat.le_trans hle' hle)
  | pending ht hless => exact .pending ht (Nat.lt_of_lt_of_le hless hle)
  | ready hQ => exact .ready hQ

section

variable {waits : σ → ℕ} {Q : σ → Except ε α → Prop}
  (hgoes : ∀ s t result, I s → pass s = (t, result) → Goes I waits Q s t result)
  (hsize : ∀ s t, I s → pass s = (t, none) → size t < size s)

include hgoes hsize

theorem poll_of_goes (h : I s) :
    Goes I waits Q s (poll pass size s).1 (some (poll pass size s).2) := by
  -- along the passes of one poll the number of waits does not rise
  refine poll_spec (I := fun t => I t ∧ waits t ≤ waits s)
    (Q := fun t answer => Goes I waits Q s t (some answer)) ?_ ?_ ⟨h, Nat.le_refl _⟩
  · rintro t u ⟨ht, hle⟩ hpass
    cases hgoes t u none ht hpass with
    | on hu hle' => exact ⟨⟨hu, Nat.le_trans hle' hle⟩, hsize t u ht hpass⟩
  · rintro t u answer ⟨ht, hle⟩ hpass
    exact (hgoes t u (some answer) ht hpass).of_le hle

/-- **A future whose passes go so is ready** after as many polls as it has to wait and one more. -/
theorem await_of_goes {polls : ℕ} (h : I s) (hpolls : waits s < polls) :
    ∃ t result, await (poll pass size) polls s = some (t, result) ∧ Q t result := by
  refine await_spec (fun s t hs hp => ?_) (fun s t result hs hp => ?_) h hpolls
  · have hgo := poll_of_goes hgoes hsize hs
    rw [hp] at hgo
    cases hgo with
    | pending ht hless => exact ⟨ht, hless⟩
  · have hgo := poll_of_goes hgoes hsize hs
    rw [hp] at hgo
    cases hgo with
    | ready hQ => exact hQ

end

end Loop
end RustyTokio.Transition

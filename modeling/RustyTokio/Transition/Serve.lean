import Mathlib.Algebra.BigOperators.Group.List.Basic
import Mathlib.Algebra.GroupWithZero.Nat
import Mathlib.Tactic.Common

/-!
# A line served in order

Everybody in a line needs some amount.  Whoever is in front is served as long as what is
there suffices, and the first whose need is too large stops the line.
-/

namespace RustyTokio.Transition

open List

variable {α : Type*} (need : α → ℕ) {p : ℕ} {a : α} {line : List α}

/-- Serve a line from an amount: what is left, who is served and who goes on waiting. -/
def serve : ℕ → List α → ℕ × List α × List α
  | p, [] => (p, [], [])
  | p, a :: line =>
    if p < need a then (p, [], a :: line)
    else
      ((serve (p - need a) line).1, a :: (serve (p - need a) line).2.1,
        (serve (p - need a) line).2.2)

theorem serve_cons_of_lt (line : List α) (h : p < need a) :
    serve need p (a :: line) = (p, [], a :: line) := if_pos h

theorem serve_cons_of_le (line : List α) (h : need a ≤ p) : serve need p (a :: line) =
      ((serve need (p - need a) line).1, a :: (serve need (p - need a) line).2.1,
        (serve need (p - need a) line).2.2) :=
  if_neg (Nat.not_lt.mpr h)

/-- **Nobody is lost and the order is kept.** -/
theorem served_append_rest (p : ℕ) (line : List α) :
    (serve need p line).2.1 ++ (serve need p line).2.2 = line := by
  induction line generalizing p with
  | nil => rfl
  | cons a line ih =>
    rcases Nat.lt_or_ge p (need a) with h | h
    · rw [serve_cons_of_lt need line h]
      rfl
    · rw [serve_cons_of_le need line h, cons_append, ih]

/-- **What is handed out is what those need who are served.** -/
theorem left_add_sum_served (p : ℕ) (line : List α) :
    (serve need p line).1 + ((serve need p line).2.1.map need).sum = p := by
  induction line generalizing p with
  | nil => rfl
  | cons a line ih =>
    rcases Nat.lt_or_ge p (need a) with h | h
    · rw [serve_cons_of_lt need line h]
      rfl
    · rw [serve_cons_of_le need line h, map_cons, sum_cons]
      have hrest := ih (p - need a)
      omega

/-- **Whoever is in front afterwards needs more than what is left.** -/
theorem lt_need_of_rest {rest : List α}
    (h : (serve need p line).2.2 = a :: rest) : (serve need p line).1 < need a := by
  induction line generalizing p with
  | nil => simp [serve] at h
  | cons b line ih =>
    rcases Nat.lt_or_ge p (need b) with hb | hb
    · rw [serve_cons_of_lt need line hb] at h ⊢
      cases h
      exact hb
    · rw [serve_cons_of_le need line hb] at h ⊢
      exact ih h

/-- **A place in the line is served exactly when the needs up to it fit.** -/
theorem lt_length_served_iff {j : ℕ} (hj : j < line.length) :
    j < (serve need p line).2.1.length ↔ ((line.take (j + 1)).map need).sum ≤ p := by
  induction line generalizing p j with
  | nil => exact absurd hj (Nat.not_lt_zero j)
  | cons a line ih =>
    rcases Nat.lt_or_ge p (need a) with h | h
    · rw [serve_cons_of_lt need line h, take_succ_cons, map_cons, sum_cons]
      refine iff_of_false (Nat.not_lt_zero j) fun hle => ?_
      omega
    · rw [serve_cons_of_le need line h, take_succ_cons, map_cons, sum_cons]
      cases j with
      | zero =>
        rw [take_zero, map_nil, sum_nil]
        exact iff_of_true (Nat.succ_pos _) h
      | succ j =>
        have hrest := ih (p := p - need a) (Nat.lt_of_succ_lt_succ hj)
        rw [length_cons, Nat.succ_lt_succ_iff, hrest]
        omega

end RustyTokio.Transition

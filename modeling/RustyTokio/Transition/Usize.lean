import Mathlib.Algebra.GroupWithZero.Nat

/-!
# Sums and differences of a machine word

A `usize` of 64 bits, whose arithmetic wraps around in the release profile.  A wrap is written as an
`if`, so that what does not overflow is seen to be plain arithmetic.

* `uadd_eq`, `usub_eq`: without overflow they are the sum and the difference.
* `Profile.add`: the sum in either profile.
-/

namespace RustyTokio.Transition

/-- A sum of two `usize`, which wraps around in the release profile. -/
def uadd (m n : ℕ) : ℕ := if m + n < 2 ^ 64 then m + n else m + n - 2 ^ 64

/-- A difference of two `usize`, which wraps around as well. -/
def usub (m n : ℕ) : ℕ := if n ≤ m then m - n else m + 2 ^ 64 - n

variable {m n : ℕ}

theorem uadd_eq (h : m + n < 2 ^ 64) : uadd m n = m + n := if_pos h

theorem usub_eq (h : n ≤ m) : usub m n = m - n := if_pos h

theorem uadd_mod (m : ℕ) (hn : n < 2 ^ 64) : uadd (m % 2 ^ 64) n = (m + n) % 2 ^ 64 := by
  rw [uadd]
  split <;> omega

theorem usub_mod (m : ℕ) (hn : n < 2 ^ 64) : usub ((m + n) % 2 ^ 64) n = m % 2 ^ 64 := by
  rw [usub]
  split <;> omega

/-- How the crate is built: with its overflow checks, or without. -/
inductive Profile where
  | debug
  | release
  deriving DecidableEq

namespace Profile

/-- A sum of two `usize`: one that overflows panics in the debug profile. -/
def add (p : Profile) (m n : ℕ) : Option ℕ :=
  if m + n < 2 ^ 64 then some (m + n) else if p = .debug then none else some (m + n - 2 ^ 64)

theorem add_eq (p : Profile) (h : m + n < 2 ^ 64) : p.add m n = some (m + n) := if_pos h

theorem debug_add (h : 2 ^ 64 ≤ m + n) : debug.add m n = none := by
  rw [add, if_neg (Nat.not_lt.mpr h), if_pos rfl]

theorem release_add (m n : ℕ) : release.add m n = some (uadd m n) := by
  rw [add, uadd]
  split <;> rfl

theorem lt_of_add (p : Profile) {k : ℕ} (hm : m < 2 ^ 64) (hn : n < 2 ^ 64)
    (h : p.add m n = some k) : k < 2 ^ 64 := by
  rw [add] at h
  split at h
  · rw [← Option.some.inj h]
    assumption
  · split at h
    · cases h
    · rw [← Option.some.inj h]
      omega

end Profile

end RustyTokio.Transition

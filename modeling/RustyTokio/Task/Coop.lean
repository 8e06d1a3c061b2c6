import Mathlib.Data.Nat.Notation

/-!
# The cooperative budget

`src/coop.rs`: a thread-local counter, `none` outside of any task's poll.  The
primitives that charge it do so before they look at anything else.
-/

namespace RustyTokio.Coop

/-- `poll_proceed`: what is left of the budget, or `none` when it is used up; the
caller then wakes its own task and is pending. -/
def pollProceed : Option ℕ → Option (Option ℕ)
  | none => some none
  | some 0 => none
  | some (n + 1) => some (some n)

end RustyTokio.Coop

import Mathlib.Data.List.Count

/-!
# A submission queue

Entries are pushed up to the capacity of the ring.  A submit hands all of them to the kernel, or it
fails and leaves them where they are.

* `offer`: push, and on a full ring submit and push once more.
* `entries_offer`: what becomes of the entry.
-/

namespace RustyTokio.Transition

open Option

structure SubmitRing (α : Type) where
  sq : List α
  /-- What the kernel was handed so far. -/
  taken : List α

namespace SubmitRing

variable {α : Type}

def entries (r : SubmitRing α) : List α := r.taken ++ r.sq

def push (capacity : ℕ) (r : SubmitRing α) (a : α) : Option (SubmitRing α) :=
  if r.sq.length < capacity then some { r with sq := r.sq ++ [a] } else none

def submit (ok : Bool) (r : SubmitRing α) : SubmitRing α := if ok then ⟨[], r.taken ++ r.sq⟩ else r

def offer (capacity : ℕ) (ok : Bool) (r : SubmitRing α) (a : α) : SubmitRing α :=
  (r.push capacity a).getD (((r.submit ok).push capacity a).getD (r.submit ok))

/-- The ring is full, and is so after the submit. -/
def loses (capacity : ℕ) (ok : Bool) (r : SubmitRing α) : Bool :=
  decide (capacity ≤ r.sq.length) && (!ok || capacity == 0)

theorem entries_submit (ok : Bool) (r : SubmitRing α) : (r.submit ok).entries = r.entries := by
  cases ok with
  | false => rfl
  | true => exact List.append_nil _

theorem entries_push {capacity : ℕ} {r : SubmitRing α} (h : r.sq.length < capacity) (a : α) :
    ∃ s, r.push capacity a = some s ∧ s.entries = r.entries ++ [a] :=
  ⟨_, if_pos h, (List.append_assoc _ _ _).symm⟩

theorem push_eq_none {capacity : ℕ} {r : SubmitRing α} (h : capacity ≤ r.sq.length) (a : α) :
    r.push capacity a = none := if_neg (Nat.not_lt.mpr h)

theorem entries_offer (capacity : ℕ) (ok : Bool) (r : SubmitRing α) (a : α) :
    (r.offer capacity ok a).entries =
      r.entries ++ if r.loses capacity ok then [] else [a] := by
  rw [offer, loses]
  rcases Nat.lt_or_ge r.sq.length capacity with hlt | hge
  · obtain ⟨s, hs, hentries⟩ := entries_push hlt a
    rw [hs, getD_some, hentries, decide_eq_false (Nat.not_le.mpr hlt)]
    rfl
  · rw [push_eq_none hge, getD_none, decide_eq_true hge, Bool.true_and]
    rcases Nat.lt_or_ge (r.submit ok).sq.length capacity with hlt | hfull
    · obtain ⟨s, hs, hentries⟩ := entries_push hlt a
      rw [hs, getD_some, hentries, entries_submit]
      cases ok with
      | false => exact absurd hlt (Nat.not_lt.mpr hge)
      | true => simp [Nat.ne_zero_of_lt hlt]
    · rw [push_eq_none hfull, getD_none, entries_submit]
      cases ok with
      | false => simp
      | true => simp [Nat.le_zero.mp hfull]

end SubmitRing

end RustyTokio.Transition

import Mathlib.Algebra.BigOperators.Group.List.Basic
import Mathlib.Algebra.GroupWithZero.Nat
import Mathlib.Data.List.Forall2
import Mathlib.Tactic.Common

/-!
# Pools of threads

The threads of a program are a list of program counters, of any length; a step
replaces one entry.  What has to be counted over all threads --- who holds a
token, who is inside a section --- is a weight on program counters, and a pool
carries the sum of the weights.
-/

namespace RustyTokio.Transition
namespace Pool

open List

variable {π : Type*} (f : π → ℕ) {i k n : ℕ} {a b : π} {ns : List ℕ}

def total (l : List π) : ℕ := (l.map f).sum

@[simp] theorem total_cons (a : π) (l : List π) : total f (a :: l) = f a + total f l := by
  rw [total, map_cons, sum_cons, total]

@[simp] theorem total_replicate (n : ℕ) (a : π) : total f (List.replicate n a) = n * f a := by
  rw [total, map_replicate, sum_replicate]
  rfl

variable {f}

theorem total_eq_zero {l : List π} (h : ∀ a ∈ l, f a = 0) : total f l = 0 := by
  induction l with
  | nil => rfl
  | cons a l ih =>
    rw [total_cons, h a mem_cons_self, ih fun b hb => h b (mem_cons_of_mem a hb)]

theorem total_set : ∀ {l : List π} {i : ℕ} {a : π} (b : π), l[i]? = some a →
    total f (l.set i b) + f a = total f l + f b
  | [], _, _, _, h => by simp at h
  | x :: l, 0, a, b, h => by
    have hx : x = a := by simpa using h
    rw [set_cons_zero, total_cons, total_cons, hx]
    omega
  | x :: l, i + 1, a, b, h => by
    have ih := total_set b (show l[i]? = some a by simpa using h)
    rw [set_cons_succ, total_cons, total_cons]
    omega

theorem total_modify {l : List π} (g : π → π) (h : l[i]? = some a) :
    total f (l.modify i g) + f a = total f l + f (g a) := by
  rw [modify_eq_set_getElem?, h]
  exact total_set (g a) h

theorem total_append (l : List π) (a : π) : total f (l ++ [a]) = total f l + f a := by
  rw [total, map_append, sum_append, map_singleton, sum_singleton, total]

theorem total_append_list (l l' : List π) : total f (l ++ l') = total f l + total f l' := by
  rw [total, map_append, sum_append, total, total]

theorem total_map {g : π → π} (hg : ∀ a, f (g a) = f a) (l : List π) :
    total f (l.map g) = total f l := by
  rw [total, map_map, total]
  exact congrArg List.sum (map_congr_left fun a _ => hg a)

theorem le_total : ∀ {l : List π} {i : ℕ} {a : π}, l[i]? = some a → f a ≤ total f l
  | [], _, _, h => by simp at h
  | x :: l, 0, a, h => by
    have hx : x = a := by simpa using h
    rw [total_cons, hx]
    omega
  | x :: l, i + 1, a, h => by
    have ih := le_total (show l[i]? = some a by simpa using h)
    rw [total_cons]
    omega

theorem add_le_total {l : List π} {j : ℕ} (hij : i ≠ j) (hi : l[i]? = some a)
    (hj : l[j]? = some b) : f a + f b ≤ total f l := by
  -- take the weight of thread `i` out; thread `j` is still there
  induction l generalizing i j with
  | nil => simp at hi
  | cons x l ih =>
    rw [total_cons]
    cases i with
    | zero =>
      cases j with
      | zero => exact absurd rfl hij
      | succ j =>
        have hx : x = a := by simpa using hi
        have hle := le_total (f := f) (show l[j]? = some b by simpa using hj)
        rw [hx]
        omega
    | succ i =>
      cases j with
      | zero =>
        have hx : x = b := by simpa using hj
        have hle := le_total (f := f) (show l[i]? = some a by simpa using hi)
        rw [hx]
        omega
      | succ j =>
        have hij' : i ≠ j := fun h => hij (by rw [h])
        have hle := ih hij' (by simpa using hi) (by simpa using hj)
        omega

theorem set_eq_self {l : List π} (h : l[i]? = some a) : l.set i a = l := by
  refine ext_getElem? fun j => ?_
  rw [getElem?_set]
  obtain rfl | hij := eq_or_ne i j
  · rw [if_pos rfl, if_pos (List.getElem?_eq_some_iff.mp h).1, h]
  · rw [if_neg hij]

theorem mem_set_cases {l : List π} (hi : l[i]? = some a) {c : π}
    (hc : c ∈ l.set i b) : c = b ∨ ∃ j, j ≠ i ∧ l[j]? = some c := by
  obtain ⟨j, hj⟩ := mem_iff_getElem?.mp hc
  rw [getElem?_set] at hj
  obtain rfl | hij := eq_or_ne i j
  · have hlt : i < l.length := (List.getElem?_eq_some_iff.mp hi).1
    rw [if_pos rfl, if_pos hlt] at hj
    exact .inl (Option.some.inj hj).symm
  · rw [if_neg hij] at hj
    exact .inr ⟨j, fun h => hij h.symm, hj⟩

/-! ## Entries that are added or taken out -/

theorem length_eraseIdx_add_one {l : List π} (h : l[k]? = some a) :
    (l.eraseIdx k).length + 1 = l.length := by
  obtain ⟨hk, -⟩ := List.getElem?_eq_some_iff.mp h
  rw [length_eraseIdx_of_lt hk]
  omega

theorem countP_snoc (p : π → Bool) (l : List π) (a : π) :
    (l ++ [a]).countP p = l.countP p + (p a).toNat := by
  rw [countP_append, countP_singleton]
  cases p a <;> rfl

theorem countP_eraseIdx_add (p : π → Bool) {l : List π} (h : l[k]? = some a) :
    (l.eraseIdx k).countP p + (p a).toNat = l.countP p := by
  obtain ⟨hk, rfl⟩ := List.getElem?_eq_some_iff.mp h
  rw [← (getElem_cons_eraseIdx_perm hk).countP_eq p, countP_cons]
  cases p l[k] <;> rfl

theorem sum_eraseIdx_add (h : ns[k]? = some n) : (ns.eraseIdx k).sum + n = ns.sum := by
  obtain ⟨hk, rfl⟩ := List.getElem?_eq_some_iff.mp h
  rw [add_comm]
  exact (getElem_cons_eraseIdx_perm hk).sum_eq

theorem sum_set_add (m : ℕ) (h : ns[k]? = some n) : (ns.set k m).sum + n = ns.sum + m := by
  obtain ⟨hk, -⟩ := List.getElem?_eq_some_iff.mp h
  have hset : (ns.set k m).sum = m + (ns.eraseIdx k).sum :=
    (set_perm_cons_eraseIdx hk m).sum_eq
  have herase := sum_eraseIdx_add h
  omega

/-! ## Two tables of the same threads -/

section Related

variable {ρ : Type*} {R : π → ρ → Prop} {l : List π} {m : List ρ} {a : π} {b : ρ}

theorem related_get (h : List.Forall₂ R l m) {i : ℕ} (ha : l[i]? = some a)
    (hb : m[i]? = some b) : R a b := by
  obtain ⟨hi, rfl⟩ := List.getElem?_eq_some_iff.mp ha
  obtain ⟨hi', rfl⟩ := List.getElem?_eq_some_iff.mp hb
  exact h.get hi hi'

theorem related_set (h : List.Forall₂ R l m) (i : ℕ) (hab : R a b) :
    List.Forall₂ R (l.set i a) (m.set i b) := by
  induction h generalizing i with
  | nil => exact .nil
  | cons hcd h ih =>
    cases i with
    | zero => exact .cons hab h
    | succ i => exact .cons hcd (ih i)

theorem related_snoc (h : List.Forall₂ R l m) (hab : R a b) :
    List.Forall₂ R (l ++ [a]) (m ++ [b]) :=
  rel_append h (.cons hab .nil)

end Related

end Pool
end RustyTokio.Transition

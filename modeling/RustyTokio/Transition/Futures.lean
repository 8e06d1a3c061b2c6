import Mathlib.Data.List.Nodup
import Mathlib.Tactic.Common

/-!
# Tables of futures and their wakers

A primitive that parks futures keeps only wakers; which future a waker belongs to, and what has
become of it, is known to the tasks around the primitive.  A table holds that knowledge: the futures
created so far, numbered in the order of creation, each with its kind and its phase.
-/

namespace RustyTokio.Transition

open List Option

inductive Poll (α : Type*) where
  | pending
  | ready (a : α)
  deriving DecidableEq

def Poll.isPending {α : Type*} : Poll α → Bool
  | .pending => true
  | .ready _ => false

inductive Phase where
  | fresh
  | parked (woken : Bool)
  | finished
  | dropped
  deriving DecidableEq

namespace Phase

def wake : Phase → Phase
  | .parked _ => .parked true
  | p => p

/-- The last poll returned pending. -/
def isParked : Phase → Bool
  | .parked _ => true
  | _ => false

def isLive : Phase → Bool
  | .fresh => true
  | .parked _ => true
  | _ => false

def isWoken : Phase → Bool
  | .parked w => w
  | _ => false

def isAsleep : Phase → Bool
  | .parked w => !w
  | _ => false

@[simp] theorem wake_wake (p : Phase) : p.wake.wake = p.wake := by
  cases p <;> rfl

@[simp] theorem isAsleep_wake (p : Phase) : p.wake.isAsleep = false := by
  cases p <;> rfl

variable {p : Phase}

theorem isAsleep_iff : p.isAsleep ↔ p = .parked false := by
  cases p <;> simp [isAsleep]

theorem isWoken_iff : p.isWoken ↔ p = .parked true := by
  cases p <;> simp [isWoken]

theorem isLive_of_isParked (h : p.isParked) : p.isLive := by
  cases p <;> simp_all [isParked, isLive]

theorem isParked_iff : p.isParked ↔ ∃ w, p = .parked w := by
  cases p <;> simp [isParked]

end Phase

structure Future (κ : Type*) where
  kind : κ
  phase : Phase
  deriving DecidableEq

namespace Table

variable {κ : Type*} {α : Type*} {a b : α} {i j : ℕ} {g : α → α} {P : ℕ → α → Prop} {f : Future κ}
  {t : List (Future κ)}

def setPhase (t : List (Future κ)) (i : ℕ) (p : Phase) : List (Future κ) :=
  t.modify i fun f => { f with phase := p }

def wake (t : List (Future κ)) (i : ℕ) : List (Future κ) :=
  t.modify i fun f => { f with phase := f.phase.wake }

def wakeAll (t : List (Future κ)) (is : List ℕ) : List (Future κ) :=
  is.foldl wake t

@[simp] theorem wakeAll_nil (t : List (Future κ)) : wakeAll t [] = t := rfl

@[simp] theorem wakeAll_cons (t : List (Future κ)) (i : ℕ) (is : List ℕ) :
    wakeAll t (i :: is) = wakeAll (wake t i) is := rfl

theorem getElem?_setPhase (t : List (Future κ)) (i : ℕ) (p : Phase) (j : ℕ) : (setPhase t i p)[j]? =
      t[j]?.map fun f => if i = j then { f with phase := p } else f := by
  rw [setPhase, getElem?_modify]
  by_cases h : i = j <;> simp [h]

theorem getElem?_wake (t : List (Future κ)) (i j : ℕ) : (wake t i)[j]? =
      t[j]?.map fun f => if i = j then { f with phase := f.phase.wake } else f := by
  rw [wake, getElem?_modify]
  by_cases h : i = j <;> simp [h]

theorem of_snoc {t : List α} (h : (t ++ [a])[i]? = some b) :
    t[i]? = some b ∨ i = t.length ∧ b = a := by
  rcases Nat.lt_or_ge i t.length with hlt | hge
  · rw [getElem?_append_left hlt] at h
    exact .inl h
  · rw [getElem?_append_right hge, getElem?_singleton, ite_none_right_eq_some] at h
    exact .inr ⟨by omega, (some.inj h.2).symm⟩

theorem of_snoc_snoc {β : Type*} {t : List α} {u : List β} (hlen : t.length = u.length) {c d : β}
    (ht : (t ++ [a])[i]? = some b) (hu : (u ++ [c])[i]? = some d) :
    (t[i]? = some b ∧ u[i]? = some d) ∨ (b = a ∧ d = c) := by
  rcases of_snoc ht with ht | ⟨hi, hb⟩
  · rcases of_snoc hu with hu | ⟨hi, -⟩
    · exact .inl ⟨ht, hu⟩
    · have := (List.getElem?_eq_some_iff.mp ht).1
      omega
  · rcases of_snoc hu with hu | ⟨-, hd⟩
    · have := (List.getElem?_eq_some_iff.mp hu).1
      omega
    · exact .inr ⟨hb, hd⟩

theorem append_of_some {t : List α} (h : t[i]? = some b) (u : List α) : (t ++ u)[i]? = some b := by
  rw [getElem?_append_left (List.getElem?_eq_some_iff.mp h).1]
  exact h

theorem set_of_some {R : α → α → Prop} (hrefl : ∀ a, R a a) {t : List α} (hi : t[i]? = some a)
    (hab : R a b) (j : ℕ) (x : α) (hj : t[j]? = some x) :
    ∃ y, (t.set i b)[j]? = some y ∧ R x y := by
  obtain rfl | hij := eq_or_ne i j
  · cases hi.symm.trans hj
    exact ⟨b, getElem?_set_self (List.getElem?_eq_some_iff.mp hi).1, hab⟩
  · exact ⟨x, by rw [getElem?_set_ne hij, hj], hrefl x⟩

theorem of_modify {t : List α} (h : (t.modify i g)[j]? = some b) :
    (i = j ∧ ∃ a, t[j]? = some a ∧ b = g a) ∨ (i ≠ j ∧ t[j]? = some b) := by
  rw [getElem?_modify] at h
  obtain ⟨a, ha, rfl⟩ := map_eq_some_iff.mp h
  obtain rfl | hij := eq_or_ne i j
  · exact .inl ⟨rfl, a, ha, if_pos rfl⟩
  · exact .inr ⟨hij, ha.trans (congrArg some (if_neg hij).symm)⟩

theorem modify_self {t : List α} (hi : t[i]? = some a) (g : α → α) :
    (t.modify i g)[i]? = some (g a) := by
  rw [getElem?_modify, hi]
  simp

theorem modify_of_ne {t : List α} (hij : i ≠ j) (g : α → α) : (t.modify i g)[j]? = t[j]? := by
  rw [getElem?_modify]
  simp [hij]

theorem forall_modify {t : List α}
    (hi : t[i]? = some a) (hg : P i (g a)) (h : ∀ (j : ℕ) (b : α), t[j]? = some b → P j b)
    (j : ℕ) (b : α) (hj : (t.modify i g)[j]? = some b) : P j b := by
  rcases of_modify hj with ⟨rfl, c, hc, rfl⟩ | ⟨-, hj⟩
  · cases hi.symm.trans hc
    exact hg
  · exact h j b hj

theorem of_set {t : List α} (h : (t.set i a)[j]? = some b) :
    (i = j ∧ b = a) ∨ (i ≠ j ∧ t[j]? = some b) := by
  obtain rfl | hij := eq_or_ne i j
  · have hlt := (List.getElem?_eq_some_iff.mp h).1
    rw [length_set] at hlt
    rw [getElem?_set_self hlt] at h
    exact .inl ⟨rfl, (some.inj h).symm⟩
  · rw [getElem?_set_ne hij] at h
    exact .inr ⟨hij, h⟩

theorem set_self {t : List α} (hi : t[i]? = some a) (b : α) : (t.set i b)[i]? = some b :=
  getElem?_set_self (List.getElem?_eq_some_iff.mp hi).1

theorem forall_set {t : List α} (ha : P i a)
    (h : ∀ (j : ℕ) (b : α), t[j]? = some b → P j b) (j : ℕ) (b : α)
    (hj : (t.set i a)[j]? = some b) : P j b := by
  rcases of_set hj with ⟨rfl, rfl⟩ | ⟨-, hj⟩
  · exact ha
  · exact h j b hj

theorem getElem?_foldl_modify (hg : ∀ a, g (g a) = g a) (t : List α) (is : List ℕ) (j : ℕ) :
    (is.foldl (fun t i => t.modify i g) t)[j]? = t[j]?.map fun a => if j ∈ is then g a else a := by
  induction is generalizing t with
  | nil => simp
  | cons i is ih =>
    rw [List.foldl_cons, ih, List.getElem?_modify, Option.map_eq_map, Option.map_map]
    congr 1
    funext a
    obtain rfl | hi := eq_or_ne i j
    · by_cases hm : i ∈ is <;> simp [hm, hg]
    · have hj : ¬ j = i := fun h => hi h.symm
      by_cases hm : j ∈ is <;> simp [hm, hi, hj]

theorem getElem?_wakeAll (t : List (Future κ)) (is : List ℕ) (j : ℕ) : (wakeAll t is)[j]? =
      t[j]?.map fun f => if j ∈ is then { f with phase := f.phase.wake } else f :=
  getElem?_foldl_modify (fun f => by rw [Phase.wake_wake]) t is j

theorem countP_modify (p : α → Bool) (g : α → α) : ∀ {t : List α} {i : ℕ} {f : α}, t[i]? = some f →
      (t.modify i g).countP p + (p f).toNat = t.countP p + (p (g f)).toNat
  | [], _, _, h => by simp at h
  | x :: t, 0, f, h => by
    have hx : x = f := by simpa using h
    subst hx
    rw [modify_zero_cons, countP_cons, countP_cons]
    cases p x <;> cases p (g x) <;> simp
  | x :: t, i + 1, f, h => by
    have ih := countP_modify p g (t := t) (i := i) (by simpa using h)
    rw [modify_succ_cons, countP_cons, countP_cons]
    omega

/-! ## The live futures of a sort -/

def live (q : κ → Bool) (t : List (Future κ)) : ℕ :=
  t.countP fun f => f.phase.isLive && q f.kind

variable (q : κ → Bool)

theorem live_append (t : List (Future κ)) (k : κ) :
    live q (t ++ [⟨k, .fresh⟩]) = live q t + (q k).toNat := by
  rw [live, countP_append, countP_singleton, live]
  cases q k <;> simp [Phase.isLive]

theorem live_setPhase (hi : t[i]? = some f) (hf : f.phase.isLive) (p : Phase) :
    live q (setPhase t i p) + (q f.kind).toNat = live q t + (p.isLive && q f.kind).toNat := by
  have hc := countP_modify (fun f : Future κ => f.phase.isLive && q f.kind)
    (fun f => { f with phase := p }) hi
  rwa [hf, Bool.true_and] at hc

theorem live_pos (hi : t[i]? = some f) (hf : f.phase.isLive) (hq : q f.kind) : 0 < live q t := by
  refine countP_pos_iff.mpr ⟨f, mem_of_getElem? hi, ?_⟩
  rw [hf, hq]
  rfl

theorem live_wake (t : List (Future κ)) (i : ℕ) : live q (wake t i) = live q t := by
  cases hi : t[i]? with
  | none => rw [wake, modify_eq_self (List.getElem?_eq_none_iff.mp hi)]
  | some f =>
    have hc := countP_modify (fun f : Future κ => f.phase.isLive && q f.kind)
      (fun f => { f with phase := f.phase.wake }) hi
    have hlive : f.phase.wake.isLive = f.phase.isLive := by cases f.phase <;> rfl
    rw [hlive] at hc
    exact Nat.add_right_cancel hc

theorem live_wakeAll (t : List (Future κ)) (is : List ℕ) : live q (wakeAll t is) = live q t := by
  induction is generalizing t with
  | nil => rfl
  | cons i is ih => rw [wakeAll_cons, ih, live_wake]

end Table

end RustyTokio.Transition

import Mathlib.Algebra.BigOperators.Group.Multiset.Basic
import Mathlib.Algebra.Order.BigOperators.Group.Multiset
import Mathlib.Algebra.Order.Group.Nat
import Mathlib.Data.Finmap

/-!
# Finite maps that are counted

A store keeps its entries under keys, and often a number beside the map that is meant to be the
sum of something over the entries.  The map is `Finmap`, with values of one type; this module adds
that sum, and what it becomes when an entry is added, taken out or changed.
-/

namespace RustyTokio.Transition

open Option Finmap

abbrev FiniteMap (κ ν : Type*) := Finmap fun _ : κ => ν

namespace FiniteMap

variable {κ ν μ : Type*} [DecidableEq κ] {m : FiniteMap κ ν} {a : κ} {b c : ν}

/-! ## Entries put back -/

theorem insert_of_lookup (h : m.lookup a = some b) : m.insert a b = m := by
  refine ext_lookup fun x => ?_
  obtain rfl | hx := eq_or_ne x a
  · rw [lookup_insert, h]
  · rw [lookup_insert_of_ne _ hx]

theorem insert_erase : (m.erase a).insert a b = m.insert a b := by
  refine ext_lookup fun x => ?_
  obtain rfl | hx := eq_or_ne x a
  · rw [lookup_insert, lookup_insert]
  · rw [lookup_insert_of_ne _ hx, lookup_insert_of_ne _ hx, lookup_erase_ne hx]

theorem lookup_insert_eq (x : κ) :
    (m.insert a b).lookup x = if x = a then some b else m.lookup x := by
  split <;> rename_i h
  · rw [h, lookup_insert]
  · rw [lookup_insert_of_ne _ h]

theorem lookup_erase_eq (x : κ) : (m.erase a).lookup x = if x = a then none else m.lookup x := by
  split <;> rename_i h
  · rw [h, lookup_erase]
  · rw [lookup_erase_ne h]

/-- The value under a key is changed, if there is one. -/
def modify (a : κ) (g : ν → ν) (m : FiniteMap κ ν) : FiniteMap κ ν :=
  match m.lookup a with
  | some b => m.insert a (g b)
  | none => m

theorem modify_of_lookup (h : m.lookup a = some b) (g : ν → ν) :
    m.modify a g = m.insert a (g b) := by
  rw [modify, h]

theorem forall_insert {P : κ → ν → Prop} (hb : P a b)
    (h : ∀ x y, m.lookup x = some y → P x y) (x : κ) (y : ν)
    (hx : (m.insert a b).lookup x = some y) : P x y := by
  rw [lookup_insert_eq] at hx
  split at hx
  next hxa =>
    rw [hxa, ← some.inj hx]
    exact hb
  · exact h x y hx

theorem of_lookup_erase {x : κ} {y : ν} (h : (m.erase a).lookup x = some y) :
    x ≠ a ∧ m.lookup x = some y := by
  rw [lookup_erase_eq] at h
  split at h
  · cases h
  next hxa => exact ⟨hxa, h⟩

/-! ## The sum of a weight -/

section Total

variable (f : ν → ℕ)

def total (m : FiniteMap κ ν) : ℕ := (m.entries.map fun e => f e.2).sum

theorem total_insert (h : m.lookup a = none) : total f (m.insert a b) = total f m + f b := by
  have hnot : a ∉ m := lookup_eq_none.mp h
  rw [total, entries_insert_of_notMem hnot, Multiset.map_cons, Multiset.sum_cons, total, add_comm]

theorem total_erase (h : m.lookup a = some b) : total f (m.erase a) + f b = total f m := by
  have hadd : total f ((m.erase a).insert a b) = total f (m.erase a) + f b :=
    total_insert f (lookup_erase a m)
  rw [insert_erase, insert_of_lookup h] at hadd
  exact hadd.symm

theorem total_replace (h : m.lookup a = some b) :
    total f (m.insert a c) + f b = total f m + f c := by
  have hadd : total f ((m.erase a).insert a c) = total f (m.erase a) + f c :=
    total_insert f (lookup_erase a m)
  rw [insert_erase] at hadd
  have herase := total_erase f h
  omega

theorem le_total (h : m.lookup a = some b) : f b ≤ total f m := by
  rw [← total_erase f h]
  exact Nat.le_add_left _ _

end Total

/-! ## Every value changed -/

omit [DecidableEq κ] in
theorem nodupKeys_map (g : ν → μ) (m : FiniteMap κ ν) :
    (m.entries.map fun e : (_ : κ) × ν => (⟨e.1, g e.2⟩ : (_ : κ) × μ)).NodupKeys := by
  have hkeys := m.nodupKeys
  rw [← Multiset.nodup_keys] at hkeys ⊢
  rwa [Multiset.keys, Multiset.map_map]

def mapValues (g : ν → μ) (m : FiniteMap κ ν) : FiniteMap κ μ :=
  ⟨m.entries.map fun e => ⟨e.1, g e.2⟩, nodupKeys_map g m⟩

theorem mem_entries_iff : (⟨a, b⟩ : (_ : κ) × ν) ∈ m.entries ↔ m.lookup a = some b := by
  induction m using induction_on with
  | H l => exact (AList.mem_lookup_iff).symm

theorem lookup_mapValues (g : ν → μ) (a : κ) : (mapValues g m).lookup a = (m.lookup a).map g := by
  refine ext fun y => ?_
  rw [← mem_entries_iff, mapValues, Multiset.mem_map, map_eq_some_iff]
  constructor
  · rintro ⟨⟨x, z⟩, hz, heq⟩
    obtain ⟨rfl, hy⟩ := Sigma.mk.inj heq
    exact ⟨z, mem_entries_iff.mp hz, eq_of_heq hy⟩
  · rintro ⟨z, hz, rfl⟩
    exact ⟨⟨a, z⟩, mem_entries_iff.mpr hz, rfl⟩

omit [DecidableEq κ] in
theorem total_mapValues_le (f : μ → ℕ) (g : ν → μ) {f' : ν → ℕ} (h : ∀ b, f (g b) ≤ f' b) :
    total f (mapValues g m) ≤ total f' m := by
  rw [total, mapValues, Multiset.map_map]
  exact Multiset.sum_map_le_sum_map _ _ fun e _ => h e.2

/-! ## The values that occur -/

def values [DecidableEq ν] (m : FiniteMap κ ν) : Finset ν := (m.entries.map Sigma.snd).toFinset

/-! ## A map into the keys of another -/

/-- The values of `m` are the keys of `n`, each of them once. -/
structure Indexes {ι : Type*} [DecidableEq ι] (m : FiniteMap κ ι) (n : FiniteMap ι ν) : Prop where
  named : ∀ a i, m.lookup a = some i → i ∈ n
  alone : ∀ a b i, m.lookup a = some i → m.lookup b = some i → a = b
  reached : ∀ i, i ∈ n → ∃ a, m.lookup a = some i

namespace Indexes

variable {ι : Type*} [DecidableEq ι] {m : FiniteMap κ ι} {n : FiniteMap ι ν} {i : ι}

theorem congr {n' : FiniteMap ι μ} (h : Indexes m n) (hn : ∀ i, i ∈ n' ↔ i ∈ n) : Indexes m n' :=
  ⟨fun a i ha => (hn i).mpr (h.named a i ha), h.alone, fun i hi => h.reached i ((hn i).mp hi)⟩

theorem insert (h : Indexes m n) (ha : m.lookup a = none) (hi : i ∉ n) (b : ν) :
    Indexes (m.insert a i) (n.insert i b) := by
  -- the new value is nobody else's
  have hnew : ∀ x, m.lookup x ≠ some i := fun x hx => hi (h.named x i hx)
  refine ⟨fun x j hx => ?_, fun x y j hx hy => ?_, fun j hj => ?_⟩
  · rw [lookup_insert_eq] at hx
    rw [mem_insert]
    split at hx
    · exact .inl (some.inj hx).symm
    · exact .inr (h.named x j hx)
  · rw [lookup_insert_eq] at hx hy
    split at hx <;> split at hy
    next hxa hya => rw [hxa, hya]
    · rw [← some.inj hx] at hy
      exact absurd hy (hnew y)
    · rw [← some.inj hy] at hx
      exact absurd hx (hnew x)
    · exact h.alone x y j hx hy
  · rcases mem_insert.mp hj with rfl | hj
    · exact ⟨a, lookup_insert m⟩
    · obtain ⟨x, hx⟩ := h.reached j hj
      refine ⟨x, ?_⟩
      rw [lookup_insert_of_ne _ (fun hxa => ?_), hx]
      rw [hxa, ha] at hx
      cases hx

section

variable (h : Indexes m n) (ha : m.lookup a = some i)

include h ha

theorem erase : Indexes (m.erase a) (n.erase i) := by
  refine ⟨fun x j hx => ?_, fun x y j hx hy => ?_, fun j hj => ?_⟩
  · obtain ⟨hxa, hx⟩ := of_lookup_erase hx
    refine mem_erase.mpr ⟨fun hji => hxa ?_, h.named x j hx⟩
    exact h.alone x a i (hji ▸ hx) ha
  · exact h.alone x y j (of_lookup_erase hx).2 (of_lookup_erase hy).2
  · obtain ⟨hji, hj⟩ := mem_erase.mp hj
    obtain ⟨x, hx⟩ := h.reached j hj
    refine ⟨x, ?_⟩
    rw [lookup_erase_ne (fun hxa => ?_), hx]
    rw [hxa, ha] at hx
    exact hji (some.inj hx).symm

theorem move {c : κ} (hc : (m.erase a).lookup c = none) : Indexes ((m.erase a).insert c i) n := by
  -- whoever else is there has another value
  have hold : ∀ x j, (m.erase a).lookup x = some j → j ≠ i ∧ m.lookup x = some j := by
    intro x j hx
    obtain ⟨hxa, hx⟩ := of_lookup_erase hx
    exact ⟨fun hji => hxa (h.alone x a i (hji ▸ hx) ha), hx⟩
  refine ⟨fun x j hx => ?_, fun x y j hx hy => ?_, fun j hj => ?_⟩
  · rw [lookup_insert_eq] at hx
    split at hx
    · cases hx
      exact h.named a i ha
    · exact h.named x j (hold x j hx).2
  · rw [lookup_insert_eq] at hx hy
    split at hx <;> split at hy
    next hxc hyc => rw [hxc, hyc]
    · exact absurd (some.inj hx).symm (hold y j hy).1
    · exact absurd (some.inj hy).symm (hold x j hx).1
    · exact h.alone x y j (hold x j hx).2 (hold y j hy).2
  · obtain rfl | hji := eq_or_ne j i
    · exact ⟨c, lookup_insert _⟩
    · obtain ⟨x, hx⟩ := h.reached j hj
      have hxa : x ≠ a := by
        rintro rfl
        exact hji (some.inj (hx.symm.trans ha))
      have hx' : (m.erase a).lookup x = some j := (lookup_erase_ne hxa).trans hx
      refine ⟨x, ?_⟩
      rw [lookup_insert_of_ne _ (fun hxc => ?_), hx']
      rw [hxc, hc] at hx'
      cases hx'

theorem replace {c : κ} {j : ι}
    (hc : (m.erase a).lookup c = some j) : Indexes ((m.erase a).insert c i) (n.erase j) := by
  obtain ⟨hca, hc⟩ := of_lookup_erase hc
  have ha' : (m.erase c).lookup a = some i := (lookup_erase_ne (Ne.symm hca)).trans ha
  have hmove := (h.erase hc).move ha' (c := c) (by
    rw [erase_erase, lookup_erase])
  rwa [erase_erase, insert_erase] at hmove

end

end Indexes

end FiniteMap
end RustyTokio.Transition

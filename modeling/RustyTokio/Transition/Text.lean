import Mathlib.Data.List.Basic

/-!
# Pieces of a list, and texts that are cut where a letter stands

`pieces b l` cuts a list after every `b`.  A text is what the letters of some alphabet are written
as; where `b` is written for one letter only, and alone, the pieces of a text are texts: a cut after
`b` never goes through a letter.  UTF-8 is such a way of writing, for every byte below `128`.
-/

namespace RustyTokio.Transition
namespace Text

open List

variable {α β : Type*} {b : β} {s l : List β}

/-! ## Pieces -/

/-- The maximal pieces of a list that end at `b`. -/
def pieces [DecidableEq β] (b : β) : List β → List (List β)
  | [] => []
  | x :: l =>
    if x = b then [x] :: pieces b l
    else match pieces b l with
      | [] => [[x]]
      | p :: ps => (x :: p) :: ps

variable [DecidableEq β]

theorem pieces_append_of_notMem {p : List β} {ps : List (List β)} (hs : b ∉ s)
    (hl : pieces b l = p :: ps) : pieces b (s ++ l) = (s ++ p) :: ps := by
  induction s with
  | nil => exact hl
  | cons x s ih =>
    rw [mem_cons, not_or] at hs
    rw [cons_append, pieces, if_neg (Ne.symm hs.1), ih hs.2, cons_append]

theorem pieces_append_cons (hs : b ∉ s) (l : List β) :
    pieces b (s ++ b :: l) = (s ++ [b]) :: pieces b l :=
  pieces_append_of_notMem hs (by rw [pieces, if_pos rfl])

theorem pieces_of_notMem (hne : l ≠ []) (hl : b ∉ l) : pieces b l = [l] := by
  rcases eq_nil_or_concat l with rfl | ⟨s, x, rfl⟩
  · exact absurd rfl hne
  · rw [concat_eq_append, mem_append, not_or, mem_singleton] at hl
    rw [concat_eq_append]
    exact pieces_append_of_notMem hl.1 (by rw [pieces, if_neg (Ne.symm hl.2), pieces])

theorem flatten_pieces (b : β) (l : List β) : (pieces b l).flatten = l := by
  induction l with
  | nil => rfl
  | cons x l ih =>
    rw [pieces]
    split
    · rw [flatten_cons, ih, singleton_append]
    · cases hl : pieces b l with
      | nil =>
        rw [hl] at ih
        rw [← ih]
        rfl
      | cons p ps =>
        rw [hl] at ih
        rw [← ih]
        rfl

/-- What `pieces` cuts: no piece is empty, `b` stands nowhere but at the end of a piece, and at the
end of every piece but the last. -/
theorem pieces_spec (b : β) (l : List β) : (∀ p ∈ pieces b l, p ≠ [] ∧ b ∉ p.dropLast) ∧
      ∀ p ∈ (pieces b l).dropLast, p.getLast? = some b := by
  induction l with
  | nil => exact ⟨by simp [pieces], by simp [pieces]⟩
  | cons x l ih =>
    rw [pieces]
    split <;> rename_i hx
    · subst hx
      refine ⟨forall_mem_cons.mpr ⟨by simp, ih.1⟩, fun p hp => ?_⟩
      cases hl : pieces x l with
      | nil => simp [hl] at hp
      | cons q qs =>
        rw [hl, dropLast_cons_of_ne_nil (cons_ne_nil _ _), mem_cons] at hp
        rcases hp with rfl | hp
        · rfl
        · exact ih.2 p (hl ▸ hp)
    · cases hl : pieces b l with
      | nil => exact ⟨by simp, by simp⟩
      | cons q qs =>
        rw [hl] at ih
        obtain ⟨hqs, hends⟩ := ih
        obtain ⟨⟨hq, hb⟩, hqs⟩ := forall_mem_cons.mp hqs
        constructor
        · refine forall_mem_cons.mpr ⟨⟨cons_ne_nil _ _, ?_⟩, hqs⟩
          rw [dropLast_cons_of_ne_nil hq, mem_cons, not_or]
          exact ⟨Ne.symm hx, hb⟩
        · cases qs with
          | nil => simp
          | cons q' qs =>
            rw [dropLast_cons_of_ne_nil (cons_ne_nil _ _), forall_mem_cons] at hends ⊢
            refine ⟨?_, hends.2⟩
            obtain ⟨y, q, rfl⟩ := exists_cons_of_ne_nil hq
            rw [getLast?_cons_cons]
            exact hends.1

/-! ## Texts -/

omit [DecidableEq β] in
theorem exists_flatMap_split {encode : α → List β} (hb : ∀ a, b ∈ encode a → encode a = [b])
    {m : List α} {t : List β} (hm : m.flatMap encode = s ++ b :: t) :
    ∃ m₁ m₂ : List α, m₁.flatMap encode = s ++ [b] ∧ m₂.flatMap encode = t := by
  induction m generalizing s with
  | nil => exact absurd hm (by simp)
  | cons a m ih =>
    rw [flatMap_cons] at hm
    rcases append_eq_append_iff.mp hm with ⟨s', rfl, hrest⟩ | ⟨t', ha, hrest⟩
    · obtain ⟨m₁, m₂, h₁, h₂⟩ := ih hrest
      exact ⟨a :: m₁, m₂, by rw [flatMap_cons, h₁, append_assoc], h₂⟩
    · -- the cut is in the first letter, or right before the next
      cases t' with
      | nil =>
        rw [append_nil] at ha
        obtain ⟨m₁, m₂, h₁, h₂⟩ := ih (s := []) hrest.symm
        exact ⟨a :: m₁, m₂, by rw [flatMap_cons, h₁, ha, nil_append], h₂⟩
      | cons x t' =>
        cases hrest
        have halone := hb a (by rw [ha]; simp)
        rw [halone] at ha
        obtain ⟨rfl, rfl⟩ : s = [] ∧ t' = [] := by
          cases s with
          | nil => exact ⟨rfl, (cons.inj ha).2.symm⟩
          | cons y s => exact absurd (cons.inj ha).2 (by simp)
        exact ⟨[a], m, by simp [halone], rfl⟩

/-! ## UTF-8 -/

theorem utf8EncodeChar_eq_singleton {b : UInt8} (hb : b.toNat < 128) (c : Char)
    (h : b ∈ String.utf8EncodeChar c) : String.utf8EncodeChar c = [b] := by
  -- the bytes of a longer encoding are all `128` or more
  have hhigh : ∀ n, 128 ≤ n → n < 256 → b ≠ UInt8.ofNat n := by
    rintro n hlow hup rfl
    rw [UInt8.toNat_ofNat'] at hb
    omega
  simp only [String.utf8EncodeChar] at h ⊢
  split at h
  next hone => rw [if_pos hone, mem_singleton.mp h]
  · exfalso
    split at h
    · simp only [mem_cons, not_mem_nil, or_false] at h
      rcases h with h | h <;> exact hhigh _ (by omega) (by omega) h
    · split at h <;> simp only [mem_cons, not_mem_nil, or_false] at h
      · rcases h with h | h | h <;> exact hhigh _ (by omega) (by omega) h
      · rcases h with h | h | h | h <;> exact hhigh _ (by omega) (by omega) h

/-- **Valid UTF-8 that is cut after a byte below `128`** is valid on both sides. -/
theorem isValidUTF8_split {b : UInt8} (hb : b.toNat < 128) {s t : List UInt8}
    (h : (s ++ b :: t).toByteArray.IsValidUTF8) :
    (s ++ [b]).toByteArray.IsValidUTF8 ∧ t.toByteArray.IsValidUTF8 := by
  obtain ⟨m, hm⟩ := h
  have hm : m.flatMap String.utf8EncodeChar = s ++ b :: t :=
    (toByteArray_inj.mp hm).symm
  obtain ⟨m₁, m₂, h₁, h₂⟩ := exists_flatMap_split (utf8EncodeChar_eq_singleton hb) hm
  exact ⟨⟨m₁, congrArg List.toByteArray h₁.symm⟩, ⟨m₂, congrArg List.toByteArray h₂.symm⟩⟩

end Text
end RustyTokio.Transition

import Mathlib.Data.List.Basic

/-!
# What a file holds

A list of cells is how a program keeps a file in memory.  What the file means is said here without
the list: a length, and a cell at every position, which is blank from the length on.  Writing past
the end then needs no filling up, and a position that was cut off comes back blank.
-/

namespace RustyTokio.Transition

open List Option

/-- A length and the cells, blank from the length on. -/
@[ext]
structure Content (α : Type*) (blank : α) where
  len : ℕ
  cell : ℕ → α
  blank_of_le : ∀ i, len ≤ i → cell i = blank

namespace Content

variable {α : Type*} {blank : α} {l : List α}

def empty : Content α blank := ⟨0, fun _ => blank, fun _ _ => rfl⟩

/-- The cells `[pos, pos + n)` are replaced by the `n` given ones. -/
def write (c : Content α blank) (pos : ℕ) (src : List α) : Content α blank where
  len := max c.len (pos + src.length)
  cell i := if pos ≤ i ∧ i < pos + src.length then src[i - pos]?.getD blank else c.cell i
  blank_of_le i h := by
    rw [if_neg (by omega)]
    exact c.blank_of_le i (by omega)

def setLen (c : Content α blank) (n : ℕ) : Content α blank where
  len := n
  cell i := if i < n then c.cell i else blank
  blank_of_le _ h := if_neg (Nat.not_lt.mpr h)

def extend (c : Content α blank) (n : ℕ) : Content α blank where
  len := max c.len n
  cell := c.cell
  blank_of_le i h := c.blank_of_le i (Nat.le_trans (Nat.le_max_left _ _) h)

/-- At most `n` cells from a position on, as many as there are. -/
def read (c : Content α blank) (pos n : ℕ) : List α :=
  (List.range (min (c.len - pos) n)).map fun i => c.cell (pos + i)

theorem extend_eq_setLen {c : Content α blank} {n : ℕ} (h : c.len ≤ n) :
    c.extend n = c.setLen n := by
  refine Content.ext (Nat.max_eq_right h) (funext fun i => ?_)
  simp only [extend, setLen]
  split
  · rfl
  next hi => exact c.blank_of_le i (by omega)

theorem write_extend (c : Content α blank) (pos : ℕ) (src : List α) :
    (c.extend (pos + src.length)).write pos src = c.write pos src := by
  refine Content.ext ?_ rfl
  simp only [write, extend]
  omega

/-! ## Lists -/

def ofList (l : List α) : Content α blank where
  len := l.length
  cell i := l[i]?.getD blank
  blank_of_le i h := by rw [getElem?_eq_none h, getD_none]

theorem ofList_rightpad (l : List α) (n : ℕ) :
    ofList (l.rightpad n blank) = (ofList l : Content α blank).extend n := by
  refine Content.ext ?_ (funext fun i => ?_)
  · simp only [ofList, extend, List.rightpad, length_append, length_replicate]
    omega
  · simp only [ofList, extend, List.rightpad, getElem?_append]
    split
    · rfl
    next hi =>
      rw [getElem?_eq_none (Nat.le_of_not_lt hi), getD_none, getElem?_replicate]
      split <;> rfl

theorem ofList_splice {src : List α} {pos : ℕ} (h : pos + src.length ≤ l.length) :
    ofList (l.take pos ++ src ++ l.drop (pos + src.length)) =
      (ofList l : Content α blank).write pos src := by
  have htake : (l.take pos).length = pos := length_take_of_le (by omega)
  refine Content.ext ?_ (funext fun i => ?_)
  · simp only [ofList, write, length_append, length_drop, htake]
    omega
  · simp only [ofList, write, getElem?_append, length_append, htake]
    by_cases hlow : i < pos
    · rw [if_pos (by omega), if_pos hlow, if_neg (by omega), getElem?_take_of_lt hlow]
    · by_cases hmid : i < pos + src.length
      · rw [if_pos hmid, if_neg hlow, if_pos ⟨Nat.le_of_not_lt hlow, hmid⟩]
      · rw [if_neg hmid, if_neg (fun hin => hmid hin.2), getElem?_drop]
        congr 2
        omega

theorem ofList_take {n : ℕ} (h : n ≤ l.length) :
    ofList (l.take n) = (ofList l : Content α blank).setLen n := by
  refine Content.ext (length_take_of_le h) (funext fun i => ?_)
  simp only [ofList, setLen]
  split <;> rename_i hi
  · rw [getElem?_take_of_lt hi]
  · have hlen : (l.take n).length ≤ i := Nat.le_trans (length_take_le _ _) (by omega)
    rw [getElem?_eq_none hlen, getD_none]

theorem read_ofList (l : List α) (pos n : ℕ) :
    (ofList l : Content α blank).read pos n = (l.drop pos).take (min (l.length - pos) n) := by
  refine ext_getElem ?_ fun i hi _ => ?_
  · simp only [read, ofList, length_map, length_range, length_take, length_drop]
    omega
  · simp only [read, ofList, length_map, length_range] at hi
    simp only [read, ofList, getElem_map, getElem_range, getElem_take, getElem_drop]
    rw [getElem?_eq_getElem (by omega), getD_some]

end Content

end RustyTokio.Transition

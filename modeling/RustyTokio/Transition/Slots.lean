import RustyTokio.Transition.Futures
import RustyTokio.Transition.System

/-!
# Slots handed out by waking

A resource has a number of free slots.  A future needs some of them; polled, it takes them and
finishes, or it queues its waker and parks.
-/

namespace RustyTokio.Transition

open List Option Bool Table Phase

/-- Free slots, futures that want some, and the queued wakers. -/
structure Room (κ : Type*) where
  free : ℕ
  futures : List (Future κ)
  waiters : List ℕ

namespace Room

variable {κ : Type*} (need : κ → ℕ) {r : Room κ}

def asleepSingle (f : Future κ) : Bool := need f.kind == 1 && f.phase.isAsleep

def wokenSingle (f : Future κ) : Bool := need f.kind == 1 && f.phase.isWoken

def asleep (r : Room κ) : Bool := r.futures.any (asleepSingle need)

def woken (r : Room κ) : ℕ := r.futures.countP (wokenSingle need)

def awake (r : Room κ) : ℕ := r.futures.countP fun f => f.phase.isWoken

def setPhase (r : Room κ) (i : ℕ) (p : Phase) : Room κ :=
  { r with futures := Table.setPhase r.futures i p }

/-- `n` slots are given back, and `n` wakers woken. -/
def release (r : Room κ) (n : ℕ) : Room κ :=
  ⟨r.free + n, Table.wakeAll r.futures (r.waiters.take n), r.waiters.drop n⟩

/-- The waker at the front is not that of a sleeping single-slot future, though
there is one, and no woken future is to spare. -/
def wasteful (r : Room κ) : Bool :=
  r.asleep need && decide (r.woken need ≤ r.free) &&
    !(r.waiters.head?.any fun i => r.futures[i]?.any (asleepSingle need))

/-- One of the next `n` wakes is wasted. -/
def squanders : ℕ → Room κ → Bool
  | 0, _ => false
  | n + 1, r => r.wasteful need || squanders n (r.release 1)

/-- Future `i` is woken and its slot was spoken for, while another sleeps. -/
def abandons (r : Room κ) (i : ℕ) : Bool :=
  r.futures[i]?.any (wokenSingle need) && r.asleep need && decide (r.woken need ≤ r.free)

/-- Every sleeping future has a waker in the queue. -/
def Queued (r : Room κ) : Prop :=
  ∀ (i : ℕ) (f : Future κ), r.futures[i]? = some f → f.phase = .parked false → i ∈ r.waiters

/-- If a future sleeps, no more slots are free than futures awake for them. -/
structure Balanced (r : Room κ) : Prop where
  queued : r.Queued
  balance : r.asleep need = true → r.free ≤ r.woken need

/-- A slot is free, a future asleep, and nobody awake. -/
structure Stranded (r : Room κ) : Prop where
  free : 0 < r.free
  asleep : r.asleep need
  still : ∀ f ∈ r.futures, f.phase ≠ .parked true

variable {need}

/-! ## Counting after a change -/

theorem asleep_iff : r.asleep need ↔
    ∃ (i : ℕ) (f : Future κ), r.futures[i]? = some f ∧ need f.kind = 1 ∧
      f.phase = .parked false := by
  rw [asleep, List.any_eq_true]
  constructor
  · rintro ⟨f, hf, hs⟩
    obtain ⟨i, hi⟩ := getElem?_of_mem hf
    rw [asleepSingle, and_eq_true, beq_iff_eq, isAsleep_iff] at hs
    exact ⟨i, f, hi, hs.1, hs.2⟩
  · rintro ⟨i, f, hi, hn, hp⟩
    refine ⟨f, mem_of_getElem? hi, ?_⟩
    rw [asleepSingle, and_eq_true, beq_iff_eq, isAsleep_iff]
    exact ⟨hn, hp⟩

theorem woken_setPhase (need : κ → ℕ) {i : ℕ} {f : Future κ}
    (hi : r.futures[i]? = some f) (p : Phase) :
    (r.setPhase i p).woken need + (wokenSingle need f).toNat =
      r.woken need + (wokenSingle need { f with phase := p }).toNat :=
  countP_modify (wokenSingle need) (fun f => { f with phase := p }) hi

theorem asleep_of_setPhase {i : ℕ} {p : Phase} (hp : p ≠ .parked false)
    (h : (r.setPhase i p).asleep need) :
    ∃ (j : ℕ) (f : Future κ), j ≠ i ∧ r.futures[j]? = some f ∧ need f.kind = 1 ∧
      f.phase = .parked false := by
  obtain ⟨j, f, hj, hn, hf⟩ := asleep_iff.mp h
  rw [setPhase, getElem?_setPhase] at hj
  obtain ⟨g, hg, rfl⟩ := map_eq_some_iff.mp hj
  by_cases hij : i = j
  · simp only [hij, if_true] at hf
    exact absurd hf hp
  · simp only [if_neg hij] at hn hf
    exact ⟨j, g, fun he => hij he.symm, hg, hn, hf⟩

namespace Balanced

variable {r : Room κ} {i : ℕ} {f : Future κ}

section

variable (h : Balanced need r)

include h

theorem claim (m : ℕ) : Balanced need { r with free := r.free - m } :=
  ⟨h.queued, fun ha => Nat.le_trans (Nat.sub_le _ _) (h.balance ha)⟩

theorem create (k : κ) : Balanced need { r with futures := r.futures ++ [⟨k, .fresh⟩] } := by
  have hold : ∀ (j : ℕ) (g : Future κ), (r.futures ++ [⟨k, .fresh⟩])[j]? = some g →
      g.phase = .parked false → r.futures[j]? = some g := by
    intro j g hg hp
    rcases of_snoc hg with hg | ⟨-, rfl⟩
    · exact hg
    · cases hp
  refine ⟨fun j g hg hp => h.queued j g (hold j g hg hp) hp, fun ha => ?_⟩
  obtain ⟨j, g, hg, hn, hp⟩ := asleep_iff.mp ha
  have hb := h.balance (asleep_iff.mpr ⟨j, g, hold j g hg hp, hn, hp⟩)
  refine Nat.le_trans hb (Nat.le_of_eq ?_)
  rw [woken, woken, countP_append]
  simp [wokenSingle, Phase.isWoken]

theorem queued_setPhase {p : Phase} (hp : p ≠ .parked false) :
    ∀ j g, (r.setPhase i p).futures[j]? = some g → g.phase = .parked false → j ∈ r.waiters := by
  intro j g hg hgp
  rw [setPhase, getElem?_setPhase] at hg
  obtain ⟨g', hg', rfl⟩ := map_eq_some_iff.mp hg
  by_cases hij : i = j
  · simp only [hij, if_true] at hgp
    exact absurd hgp hp
  · simp only [if_neg hij] at hgp
    exact h.queued j g' hg' hgp

theorem finish (hi : r.futures[i]? = some f) :
    Balanced need { r.setPhase i .finished with free := r.free - need f.kind } := by
  refine ⟨h.queued_setPhase (by simp), fun ha => ?_⟩
  obtain ⟨j, g, -, hg⟩ := asleep_of_setPhase (by simp) ha
  have hb := h.balance (asleep_iff.mpr ⟨j, g, hg⟩)
  have hw := woken_setPhase need hi .finished
  change r.free - need f.kind ≤ (r.setPhase i .finished).woken need
  -- a single-slot future that was woken is struck off together with its slot
  by_cases hn : need f.kind = 1
  · have hle : (wokenSingle need f).toNat ≤ 1 := toNat_le _
    omega
  · have hnot : wokenSingle need f = false := by simp [wokenSingle, hn]
    rw [hnot] at hw
    simp only [toNat_false] at hw
    omega

theorem park (hi : r.futures[i]? = some f) (hfull : r.free < need f.kind) :
    Balanced need { r.setPhase i (.parked false) with waiters := r.waiters ++ [i] } := by
  refine ⟨fun j g hg hp => ?_, fun ha => ?_⟩
  · rw [setPhase, getElem?_setPhase] at hg
    obtain ⟨g', hg', rfl⟩ := map_eq_some_iff.mp hg
    by_cases hij : i = j
    · simp [hij]
    · simp only [if_neg hij] at hp
      exact mem_append_left _ (h.queued j g' hg' hp)
  · change r.free ≤ (r.setPhase i (.parked false)).woken need
    by_cases hn : need f.kind = 1
    · omega
    · -- it counts neither among the sleepers nor among the woken
      have hw := woken_setPhase need hi (.parked false)
      have hnot : ∀ p, wokenSingle need { f with phase := p } = false := fun p => by
        simp [wokenSingle, hn]
      have hf : wokenSingle need f = false := hnot f.phase
      rw [hf, hnot] at hw
      obtain ⟨j, g, hg, hgn, hgp⟩ := asleep_iff.mp ha
      rw [setPhase, getElem?_setPhase] at hg
      obtain ⟨g', hg', rfl⟩ := map_eq_some_iff.mp hg
      obtain rfl | hij := eq_or_ne i j
      · cases hi.symm.trans hg'
        simp only [if_true] at hgn
        exact absurd hgn hn
      · simp only [if_neg hij] at hgn hgp
        have hb := h.balance (asleep_iff.mpr ⟨j, g', hg', hgn, hgp⟩)
        simp only [toNat_false] at hw
        omega

theorem expire (i : ℕ) (hfull : r.free = 0) :
    Balanced need { r.setPhase i .finished with waiters := r.waiters ++ [i] } := by
  refine ⟨fun j g hg hp => ?_, fun _ => ?_⟩
  · exact mem_append_left _ (h.queued_setPhase (by simp) j g hg hp)
  · change r.free ≤ _
    omega

theorem drop (hi : r.futures[i]? = some f)
    (hc : r.abandons need i = false) : Balanced need (r.setPhase i .dropped) := by
  refine ⟨h.queued_setPhase (by simp), fun ha => ?_⟩
  obtain ⟨j, g, -, hg⟩ := asleep_of_setPhase (by simp) ha
  have hold := asleep_iff.mpr ⟨j, g, hg⟩
  have hb := h.balance hold
  have hw := woken_setPhase need hi .dropped
  change r.free ≤ (r.setPhase i .dropped).woken need
  have hnot : wokenSingle need { f with phase := .dropped } = false := by
    simp [wokenSingle, Phase.isWoken]
  rw [hnot, toNat_false] at hw
  cases hf : wokenSingle need f with
  | false =>
    rw [hf, toNat_false] at hw
    omega
  | true =>
    -- it was woken, and another one is to spare
    rw [hf, toNat_true] at hw
    simp only [abandons, hi, any_some, hf, hold, Bool.true_and, decide_eq_false_iff_not] at hc
    omega

end

end Balanced

/-! ## Giving slots back -/

section Release

variable {r : Room κ} {i : ℕ}

theorem release_zero (r : Room κ) : r.release 0 = r := by
  simp [release]

theorem release_succ (r : Room κ) (n : ℕ) : r.release (n + 1) = (r.release 1).release n := by
  obtain ⟨free, futures, waiters⟩ := r
  cases waiters with
  | nil | cons i rest => simp [release, Nat.add_comm, Nat.add_left_comm]

theorem woken_wake (futures : List (Future κ)) (i : ℕ) :
    (Table.wake futures i).countP (wokenSingle need) =
      futures.countP (wokenSingle need) + (futures[i]?.any (asleepSingle need)).toNat := by
  cases hi : futures[i]? with
  | none =>
    have hw : Table.wake futures i = futures := by
      rw [Table.wake]
      exact modify_eq_self (List.getElem?_eq_none_iff.mp hi)
    rw [hw]
    rfl
  | some f =>
    have hc := countP_modify (wokenSingle need)
      (fun f : Future κ => { f with phase := f.phase.wake }) hi
    rw [Table.wake, any_some]
    have key : (wokenSingle need { f with phase := f.phase.wake }).toNat =
        (wokenSingle need f).toNat + (asleepSingle need f).toNat := by
      obtain ⟨k, p⟩ := f
      cases p with
      | parked b => cases b <;> cases hk : need k == 1 <;>
          simp [wokenSingle, asleepSingle, Phase.wake, Phase.isWoken, Phase.isAsleep, hk]
      | _ => simp [wokenSingle, asleepSingle, Phase.wake, Phase.isWoken, Phase.isAsleep]
    omega

theorem phase_of_wake {futures : List (Future κ)} {j : ℕ} {f : Future κ}
    (hj : (Table.wake futures i)[j]? = some f) (hp : f.phase = .parked false) :
    j ≠ i ∧ futures[j]? = some f := by
  rw [getElem?_wake] at hj
  obtain ⟨g, hg, rfl⟩ := map_eq_some_iff.mp hj
  by_cases hij : i = j
  · simp only [hij, if_true] at hp
    have hs := isAsleep_wake g.phase
    rw [Phase.isAsleep_iff.mpr hp] at hs
    cases hs
  · refine ⟨fun he => hij he.symm, ?_⟩
    simp only [if_neg hij]
    exact hg

theorem release_one_nil (hw : r.waiters = []) : r.release 1 = { r with free := r.free + 1 } := by
  simp [release, hw]

theorem release_one_cons {rest : List ℕ} (hw : r.waiters = i :: rest) :
    r.release 1 = ⟨r.free + 1, Table.wake r.futures i, rest⟩ := by
  simp [release, hw]

theorem asleep_of_release_one (h : (r.release 1).asleep need) : r.asleep need := by
  obtain ⟨j, f, hj, hn, hp⟩ := asleep_iff.mp h
  cases hw : r.waiters with
  | nil =>
    rw [release_one_nil hw] at hj
    exact asleep_iff.mpr ⟨j, f, hj, hn, hp⟩
  | cons i rest =>
    rw [release_one_cons hw] at hj
    exact asleep_iff.mpr ⟨j, f, (phase_of_wake hj hp).2, hn, hp⟩

theorem Queued.release_one (h : r.Queued) : (r.release 1).Queued := by
  intro j f hj hp
  cases hw : r.waiters with
  | nil =>
    rw [release_one_nil hw] at hj ⊢
    exact h j f hj hp
  | cons i rest =>
    rw [release_one_cons hw] at hj ⊢
    obtain ⟨hne, hold⟩ := phase_of_wake hj hp
    have hm := h j f hold hp
    rw [hw] at hm
    exact (mem_cons.mp hm).resolve_left hne

theorem Queued.release (h : r.Queued) (n : ℕ) : (r.release n).Queued := by
  induction n generalizing r with
  | zero =>
    rw [release_zero]
    exact h
  | succ n ih =>
    rw [release_succ]
    exact ih h.release_one

theorem Balanced.release_one (h : Balanced need r) (hc : r.wasteful need = false) :
    Balanced need (r.release 1) := by
  refine ⟨h.queued.release_one, fun ha => ?_⟩
  have hold := asleep_of_release_one ha
  have hb := h.balance hold
  cases hw : r.waiters with
  | nil =>
    -- whoever sleeps is in the queue, so nobody does
    obtain ⟨j, f, hj, -, hp⟩ := asleep_iff.mp hold
    exact absurd (h.queued j f hj hp) (by simp [hw])
  | cons i rest =>
    rw [release_one_cons hw]
    change r.free + 1 ≤ (Table.wake r.futures i).countP (wokenSingle need)
    rw [woken_wake]
    cases hs : r.futures[i]?.any (asleepSingle need) with
    | true =>
      rw [toNat_true]
      exact Nat.add_le_add_right hb 1
    | false =>
      rw [toNat_false, Nat.add_zero]
      simp only [wasteful, hold, hw, head?_cons, any_some, hs, Bool.true_and,
        Bool.not_false, Bool.and_true, decide_eq_false_iff_not] at hc
      exact Nat.lt_of_not_le hc

/-- **Giving slots back keeps the balance**, unless a wake is wasted and somebody
still sleeps. -/
theorem Balanced.release (h : Balanced need r) (n : ℕ)
    (hc : squanders need n r = false ∨ (r.release n).asleep need = false) :
    Balanced need (r.release n) := by
  rcases hc with hc | hc
  · induction n generalizing r with
    | zero =>
      rw [release_zero]
      exact h
    | succ n ih =>
      obtain ⟨h1, h2⟩ := or_eq_false_iff.mp hc
      rw [release_succ]
      exact ih (h.release_one h1) h2
  · exact ⟨h.queued.release n, fun ha => absurd (hc.symm.trans ha) (by simp)⟩

end Release

/-! ## Once the balance is broken -/

structure Overdrawn (need : κ → ℕ) (r : Room κ) : Prop where
  asleep : r.asleep need
  short : r.woken need < r.free

section Overdrawn

variable {r : Room κ} {i : ℕ} {f : Future κ}

theorem woken_release_one_le (need : κ → ℕ) (r : Room κ) :
    (r.release 1).woken need ≤ r.woken need + 1 := by
  cases hw : r.waiters with
  | nil =>
    rw [release_one_nil hw]
    exact Nat.le_succ _
  | cons i rest =>
    rw [release_one_cons hw]
    change (Table.wake r.futures i).countP (wokenSingle need) ≤ _
    rw [woken_wake]
    exact Nat.add_le_add_left (toNat_le _) _

theorem short_release (h : r.woken need < r.free) (n : ℕ) :
    (r.release n).woken need < (r.release n).free := by
  induction n generalizing r with
  | zero =>
    rw [release_zero]
    exact h
  | succ n ih =>
    rw [release_succ]
    refine ih ?_
    have hle := woken_release_one_le need r
    change (r.release 1).woken need < r.free + 1
    omega

theorem short_of_wasteful (h : r.wasteful need) :
    (r.release 1).woken need < (r.release 1).free := by
  simp only [wasteful, and_eq_true, decide_eq_true_eq, not_eq_true'] at h
  obtain ⟨⟨-, hle⟩, hs⟩ := h
  change (r.release 1).woken need < r.free + 1
  cases hw : r.waiters with
  | nil =>
    rw [release_one_nil hw]
    exact Nat.lt_succ_of_le hle
  | cons i rest =>
    simp only [hw, head?_cons, any_some] at hs
    rw [release_one_cons hw]
    change (Table.wake r.futures i).countP (wokenSingle need) < _
    rw [woken_wake, hs, toNat_false, Nat.add_zero]
    exact Nat.lt_succ_of_le hle

/-- **Wasted wakes overdraw the room**, if somebody is left asleep. -/
theorem overdrawn_of_squanders {n : ℕ} (h : squanders need n r)
    (ha : (r.release n).asleep need) : Overdrawn need (r.release n) := by
  refine ⟨ha, ?_⟩
  clear ha
  induction n generalizing r with
  | zero => simp [squanders] at h
  | succ n ih =>
    rw [release_succ]
    rcases or_eq_true_iff.mp h with hw | hs
    · exact short_release (short_of_wasteful hw) n
    · exact ih hs

theorem asleep_of_wasteful (h : r.wasteful need) : (r.release 1).asleep need := by
  simp only [wasteful, and_eq_true, not_eq_true'] at h
  obtain ⟨⟨ha, -⟩, hs⟩ := h
  obtain ⟨j, f, hj, hn, hp⟩ := asleep_iff.mp ha
  refine asleep_iff.mpr ⟨j, f, ?_, hn, hp⟩
  cases hw : r.waiters with
  | nil =>
    rw [release_one_nil hw]
    exact hj
  | cons i rest =>
    simp only [hw, head?_cons, any_some] at hs
    have hij : i ≠ j := by
      rintro rfl
      rw [hj, any_some] at hs
      simp [asleepSingle, hn, hp, Phase.isAsleep] at hs
    rw [release_one_cons hw]
    change (Table.wake r.futures i)[j]? = some f
    rw [getElem?_wake, hj]
    simp [hij]

theorem overdrawn_of_wasteful (h : r.wasteful need) : Overdrawn need (r.release 1) :=
  ⟨asleep_of_wasteful h, short_of_wasteful h⟩

theorem asleep_setPhase_of_awake (hi : r.futures[i]? = some f) (hf : f.phase = .parked true)
    (h : r.asleep need) (p : Phase) : (r.setPhase i p).asleep need := by
  obtain ⟨j, g, hg, hn, hp⟩ := asleep_iff.mp h
  have hij : i ≠ j := by
    rintro rfl
    cases hi.symm.trans hg
    cases hf.symm.trans hp
  refine asleep_iff.mpr ⟨j, g, ?_, hn, hp⟩
  rw [setPhase, getElem?_setPhase, hg]
  simp [hij]

theorem overdrawn_of_abandons (hi : r.futures[i]? = some f) (h : r.abandons need i) :
    Overdrawn need (r.setPhase i .dropped) := by
  simp only [abandons, hi, any_some, and_eq_true, decide_eq_true_eq] at h
  obtain ⟨⟨hf, ha⟩, hle⟩ := h
  have hp : f.phase = .parked true := by
    rw [wokenSingle, and_eq_true] at hf
    exact Phase.isWoken_iff.mp hf.2
  refine ⟨asleep_setPhase_of_awake hi hp ha _, ?_⟩
  have hw := woken_setPhase need hi .dropped
  have hnot : wokenSingle need { f with phase := .dropped } = false := by
    simp [wokenSingle, Phase.isWoken]
  rw [hf, hnot, toNat_true, toNat_false] at hw
  change (r.setPhase i .dropped).woken need < r.free
  omega

namespace Overdrawn

theorem finish (h : Overdrawn need r) (hi : r.futures[i]? = some f) (hf : f.phase = .parked true)
    (hn : need f.kind = 1) :
    1 ≤ r.free ∧ Overdrawn need { r.setPhase i .finished with free := r.free - 1 } := by
  have hs : wokenSingle need f := by simp [wokenSingle, hn, hf, Phase.isWoken]
  have hw := woken_setPhase need hi .finished
  have hnot : wokenSingle need { f with phase := .finished } = false := by
    simp [wokenSingle, Phase.isWoken]
  rw [hs, hnot, toNat_true, toNat_false] at hw
  have hlt := h.short
  refine ⟨by omega, asleep_setPhase_of_awake hi hf h.asleep _, ?_⟩
  change (r.setPhase i .finished).woken need < r.free - 1
  omega

theorem drop (h : Overdrawn need r) (hi : r.futures[i]? = some f) (hf : f.phase = .parked true)
    (hn : need f.kind ≠ 1) : Overdrawn need (r.setPhase i .dropped) := by
  have hw := woken_setPhase need hi .dropped
  have hnot : ∀ p, wokenSingle need { f with phase := p } = false := fun p => by
    simp [wokenSingle, hn]
  have hs : wokenSingle need f = false := hnot f.phase
  rw [hs, hnot] at hw
  refine ⟨asleep_setPhase_of_awake hi hf h.asleep _, ?_⟩
  have hlt := h.short
  change (r.setPhase i .dropped).woken need < r.free
  simp only [toNat_false] at hw
  omega

theorem awake_setPhase_lt (hi : r.futures[i]? = some f) (hf : f.phase = .parked true) {p : Phase}
    (hp : p.isWoken = false) : (r.setPhase i p).awake < r.awake := by
  have hc := countP_modify (fun f : Future κ => f.phase.isWoken)
    (fun f => { f with phase := p }) hi
  have hw : f.phase.isWoken := Phase.isWoken_iff.mpr hf
  rw [hw, hp, toNat_true, toNat_false] at hc
  change (Table.setPhase r.futures i p).countP _ < r.futures.countP _
  rw [Table.setPhase]
  omega

theorem stranded (h : Overdrawn need r) (hs : ∀ f ∈ r.futures, f.phase ≠ .parked true) :
    Stranded need r :=
  ⟨Nat.lt_of_le_of_lt (Nat.zero_le _) h.short, h.asleep, hs⟩

/-- **An overdrawn room can be stranded**, in a system with a condition `I` under
which a woken single-slot future can take its slot and any other woken future can
be dropped. -/
theorem leadsTo {σ ε : Type*} {S : System σ ε} {C : ε → Prop} {I : σ → Prop} (room : σ → Room κ)
    (hfinish : ∀ s (i : ℕ) (f : Future κ), I s → (room s).futures[i]? = some f →
      f.phase = .parked true → need f.kind = 1 → 1 ≤ (room s).free →
      ∃ e t, C e ∧ S.step s e = some t ∧ I t ∧
        room t = { (room s).setPhase i .finished with free := (room s).free - 1 })
    (hdrop : ∀ s (i : ℕ) (f : Future κ), I s → (room s).futures[i]? = some f →
      f.phase = .parked true → need f.kind ≠ 1 →
      ∃ e t, C e ∧ S.step s e = some t ∧ I t ∧ room t = (room s).setPhase i .dropped)
    {s : σ} (hI : I s) (h : Overdrawn need (room s)) :
    S.LeadsTo C (fun t => I t ∧ Stranded need (room t)) s := by
  -- on the number of futures that are awake
  induction hn : (room s).awake using Nat.strongRecOn generalizing s with
  | ind n ih =>
    by_cases hs : ∀ f ∈ (room s).futures, f.phase ≠ .parked true
    · exact .now ⟨hI, h.stranded hs⟩
    · obtain ⟨f, hf⟩ := not_forall.mp hs
      obtain ⟨hm, hp⟩ := Classical.not_imp.mp hf
      have hp := not_not.mp hp
      obtain ⟨i, hi⟩ := getElem?_of_mem hm
      by_cases hk : need f.kind = 1
      · obtain ⟨hfree, hover⟩ := h.finish hi hp hk
        obtain ⟨e, t, hC, hstep, hIt, ht⟩ := hfinish s i f hI hi hp hk hfree
        refine .of_step hC hstep (ih _ ?_ hIt (ht ▸ hover) rfl)
        rw [← hn, ht]
        exact awake_setPhase_lt hi hp rfl
      · obtain ⟨e, t, hC, hstep, hIt, ht⟩ := hdrop s i f hI hi hp hk
        refine .of_step hC hstep (ih _ ?_ hIt (ht ▸ h.drop hi hp hk) rfl)
        rw [← hn, ht]
        exact awake_setPhase_lt hi hp rfl

end Overdrawn

end Overdrawn

theorem Balanced.not_stranded (h : Balanced need r) : ¬ Stranded need r := by
  rintro ⟨hf, ha, hs⟩
  have hb := h.balance ha
  have hw : r.woken need = 0 := by
    rw [woken, countP_eq_zero]
    intro f hf' hwk
    rw [wokenSingle, and_eq_true] at hwk
    exact hs f hf' (Phase.isWoken_iff.mp hwk.2)
  omega

end Room
end RustyTokio.Transition

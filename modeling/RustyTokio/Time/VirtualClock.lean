import RustyTokio.Time.Timers

/-!
# The paused clock

While the clock is paused, only `advance` writes it: in its loop the earliest deadline of the heap,
and at the end the target it computed when it began.  Neither is compared with what the clock shows.
-/

namespace RustyTokio.Time

open Transition List Option Bool Table

/-- What a call of `advance` writes next is this or less: the deadline it has found, or the
target. -/
def Stage.bound : Stage → Option ℕ
  | .peek target => some target
  | .set _ deadline => some deadline
  | .fire target _ => some target
  | .yielding target => some target
  | .finish target => some target
  | _ => none

/-- How far a call of `advance` is from its next write. -/
def Stage.distance : Stage → ℕ
  | .fire _ _ => 3
  | .yielding _ => 2
  | .peek _ => 1
  | _ => 0

namespace World

def behind (w : World) (instant : ℕ) : Bool :=
  w.advances.any fun a => a.stage.bound.any (· < instant)

/-- The step overtakes a call of `advance` in progress: the clock is moved past its bound, or it
finds an overdue entry. -/
def overtakes (w : World) : Label → Bool
  | .pause => w.behind w.real
  | .go k =>
    match w.advances[k]? with
    | some ⟨.peek target, _⟩ =>
      w.heap.head?.any fun e => decide (e.1 ≤ target) && w.paused.any (e.1 < ·)
    | some ⟨.set _ deadline, _⟩ => w.paused.isSome && w.behind deadline
    | some ⟨.finish target, _⟩ => w.paused.isSome && w.behind target
    | _ => false
  | _ => false

/-- What the clock has shown since it was paused never went down. -/
def Ascending (w : World) : Prop := w.shown.Pairwise (· ≤ ·)

instance (w : World) : Decidable w.Ascending := inferInstanceAs (Decidable (List.Pairwise _ _))

variable {w : World} {instant c : ℕ} {a : Advance} {v : World} {l : Label} {k b : ℕ}

theorem behind_iff : w.behind instant ↔ ∃ (k : ℕ) (a : Advance) (b : ℕ),
      w.advances[k]? = some a ∧ a.stage.bound = some b ∧ b < instant := by
  simp only [behind, List.any_eq_true, Option.any_eq_true, decide_eq_true_eq]
  constructor
  · rintro ⟨a, hmem, b, hb, hlt⟩
    obtain ⟨k, hk⟩ := List.getElem?_of_mem hmem
    exact ⟨k, a, b, hk, hb, hlt⟩
  · rintro ⟨k, a, b, hk, hb, hlt⟩
    exact ⟨a, List.mem_of_getElem? hk, b, hb, hlt⟩

theorem le_bound_of_not_behind (h : ¬ w.behind instant) {k b : ℕ}
    (hk : w.advances[k]? = some a) (hb : a.stage.bound = some b) : instant ≤ b :=
  le_of_not_gt fun hlt => h (behind_iff.mpr ⟨k, a, b, hk, hb, hlt⟩)

/-! ## What the clock has shown -/

structure Kept (w : World) : Prop where
  last : w.shown.getLast? = w.paused
  found : ∀ (k : ℕ) (a : Advance), w.advances[k]? = some a → ∀ target deadline,
    a.stage = .set target deadline → deadline ≤ target

theorem Kept.setAdvance (h : w.Kept) (k : ℕ)
    (ha : ∀ target deadline, a.stage = .set target deadline → deadline ≤ target) :
    (w.setAdvance k a).Kept :=
  ⟨h.last, forall_set ha h.found⟩

theorem Kept.set (h : w.Kept) (instant : ℕ) : (w.set instant).Kept :=
  ⟨getLast?_concat, h.found⟩

theorem Kept.fireDue (h : w.Kept) (now : ℕ) : (w.fireDue now).Kept :=
  ⟨by simpa using h.last, by simpa using h.found⟩

theorem kept_of_steps (h : w.Kept) (hs : w.Steps l v) : v.Kept := by
  cases hs with
  | pause hp | resume hp => exact ⟨rfl, h.found⟩
  | @fire now hh =>
    have hf := h.fireDue now
    exact ⟨hf.last, hf.found⟩
  | advance hp =>
    refine ⟨h.last, fun k a hk target deadline ha => ?_⟩
    rcases of_snoc hk with hk | ⟨-, rfl⟩
    · exact h.found k a hk target deadline ha
    · cases ha
  | found hk hh hheap hd =>
    refine h.setAdvance _ fun t d ha => ?_
    cases ha
    exact hd
  | start hk | checked hk hh hd | yielded hk | unpaused hk hp | dropAdvance hk =>
    exact h.setAdvance _ fun _ _ ha => absurd ha (by simp)
  | set hk hp | finish hk hp => exact (h.set _).setAdvance _ fun _ _ ha => absurd ha (by simp)
  | fired hk hh => exact (h.fireDue _).setAdvance _ fun _ _ ha => absurd ha (by simp)
  | _ => exact ⟨h.last, h.found⟩

theorem kept_of_reachable (h : driver.Reachable w) : w.Kept :=
  System.inv_of_reachable (I := Kept) ⟨rfl, fun k a hk => by simp [driver] at hk⟩
    (fun _ _ _ hI hs => kept_of_steps hI (steps_of_step hs)) h

/-! ## A clock that is not overtaken -/

/-- No call of `advance` in progress is behind the clock. -/
structure Abreast (w : World) : Prop where
  ascending : w.Ascending
  bounds : ∀ c, w.paused = some c → ∀ (k : ℕ) (a : Advance), w.advances[k]? = some a →
    ∀ b, a.stage.bound = some b → c ≤ b

theorem ascending_concat (h : w.Ascending) (hk : w.Kept)
    (hp : w.paused = some c) (hle : c ≤ instant) : (w.shown ++ [instant]).Pairwise (· ≤ ·) := by
  refine pairwise_append.mpr ⟨h, pairwise_singleton _ _, fun a ha b hb => ?_⟩
  rw [mem_singleton.mp hb]
  -- the last instant shown is the greatest
  obtain ⟨front, hfront⟩ := getLast?_eq_some_iff.mp (hk.last.trans hp)
  rw [Ascending, hfront] at h
  rw [hfront, mem_append, mem_singleton] at ha
  rcases ha with ha | rfl
  · exact ((pairwise_append.mp h).2.2 a ha c (mem_singleton.mpr rfl)).trans hle
  · exact hle

theorem Abreast.setAdvance (h : w.Abreast) (k : ℕ)
    (ha : ∀ c, w.paused = some c → ∀ b, a.stage.bound = some b → c ≤ b) :
    (w.setAdvance k a).Abreast :=
  ⟨h.ascending, fun c hc => forall_set (ha c hc) (h.bounds c hc)⟩

theorem Abreast.set (h : w.Abreast) (hk : w.Kept) {k : ℕ} {a' : Advance}
    (ha : w.advances[k]? = some a) (hb : a.stage.bound = some instant) (hp : w.paused = some c)
    (hn : ¬ w.behind instant) (ha' : ∀ b, a'.stage.bound = some b → instant ≤ b) :
    ((w.set instant).setAdvance k a').Abreast := by
  refine ⟨ascending_concat h.ascending hk hp (h.bounds c hp k a ha instant hb), fun c' hc' => ?_⟩
  cases hc'
  exact forall_set ha' fun j b hj x hx => le_bound_of_not_behind hn hj hx

theorem abreast_of_steps (h : w.Abreast) (hk : w.Kept)
    (hl : w.overtakes l = false) (hs : w.Steps l v) : v.Abreast := by
  cases hs with
  | pause hp =>
    refine ⟨pairwise_singleton _ _, fun c hc k a ha b hb => ?_⟩
    cases hc
    exact le_bound_of_not_behind (eq_false_iff.mp hl) ha hb
  | resume hp => exact ⟨List.Pairwise.nil, by simp⟩
  | fire hh => exact ⟨by simpa [Ascending] using h.ascending, by simpa using h.bounds⟩
  | advance hp =>
    refine ⟨h.ascending, fun c hc k a hk b hb => ?_⟩
    rcases of_snoc hk with hk | ⟨-, rfl⟩
    · exact h.bounds c hc k a hk b hb
    · simp [Stage.bound] at hb
  | start hi =>
    refine h.setAdvance _ fun c hc b hb => ?_
    rw [← some.inj hb, World.now, hc]
    exact Nat.le_add_right _ _
  | found hi hh hheap hd =>
    refine h.setAdvance _ fun c hc b hb => ?_
    cases hb
    by_contra hlt
    simp only [overtakes, hi, hheap, head?_cons, any_some, hc] at hl
    simp [hd, lt_of_not_ge hlt] at hl
  | checked hi hh hd | yielded hi => exact h.setAdvance _ fun c hc b hb => h.bounds c hc _ _ hi b hb
  | set hi hp =>
    refine h.set hk hi rfl hp (fun hb => ?_) fun b hb => ?_
    · simp [overtakes, hi, hp, hb] at hl
    · cases hb
      exact hk.found _ _ hi _ _ rfl
  | fired hi hh =>
    refine Abreast.setAdvance ⟨by simpa [Ascending] using h.ascending, by simpa using h.bounds⟩ _
      fun c hc b hb => ?_
    rw [fireDue_paused] at hc
    exact h.bounds c hc _ _ hi b hb
  | finish hi hp =>
    refine h.set hk hi rfl hp (fun hb => ?_) fun b hb => absurd hb (by simp [Stage.bound])
    simp [overtakes, hi, hp, hb] at hl
  | unpaused hi hp | dropAdvance hi =>
    exact h.setAdvance _ fun c hc b hb => absurd hb (by simp [Stage.bound])
  | _ => exact ⟨h.ascending, h.bounds⟩

theorem abreast_of_reachableUnder
    (h : driver.ReachableUnder (fun w l => w.overtakes l = false) w) : w.Abreast :=
  h.inv (I := Abreast) ⟨List.Pairwise.nil, fun c hc => by simp [driver] at hc⟩
    fun _ _ _ hr hI hl hs => abreast_of_steps hI (kept_of_reachable hr) hl (steps_of_step hs)

/-! ## A call that was overtaken -/

/-- The timer thread, if it has the lock, and one call of `advance`. -/
def goes (k : ℕ) (l : Label) : Prop := l = .fire ∨ l = .go k

theorem not_ascending_concat (hk : w.Kept) (hp : w.paused = some c)
    (hlt : instant < c) : ¬ (w.shown ++ [instant]).Pairwise (· ≤ ·) := by
  intro h
  have hmem : c ∈ w.shown := mem_of_getLast? (hk.last.trans hp)
  have hle := (pairwise_append.mp h).2.2 c hmem instant (mem_singleton.mpr rfl)
  omega

/-- Call `k` of `advance` is in progress, and its bound is less than what the clock shows. -/
structure Overtaken (w : World) (k c : ℕ) : Prop where
  kept : w.Kept
  paused : w.paused = some c
  behind : ∃ a b, w.advances[k]? = some a ∧ a.stage.bound = some b ∧ b < c

def distance (k : ℕ) (w : World) : ℕ :=
  (w.advances[k]?.elim 0 fun a => a.stage.distance) + if w.holding.isSome then 1 else 0

theorem Overtaken.setAdvance (h : w.Overtaken k c) (a' : Advance) (hk : w.advances[k]? = some a)
    (hb : a'.stage.bound = some b) (hlt : b < c) (hd : a'.stage.distance < a.stage.distance)
    (ha : ∀ target deadline, a'.stage = .set target deadline → deadline ≤ target) :
    (w.setAdvance k a').Overtaken k c ∧ (w.setAdvance k a').distance k < w.distance k := by
  have hk' : (w.setAdvance k a').advances[k]? = some a' := set_self hk a'
  refine ⟨⟨h.kept.setAdvance k ha, h.paused, a', b, hk', hb, hlt⟩, ?_⟩
  rw [distance, distance, hk', hk]
  exact Nat.add_lt_add_right hd _

theorem Overtaken.fireDue (h : w.Overtaken k c) (now : ℕ) : (w.fireDue now).Overtaken k c := by
  refine ⟨h.kept.fireDue now, ?_, ?_⟩
  · rw [fireDue_paused]
    exact h.paused
  · rw [fireDue_advances]
    exact h.behind

/-- The call goes on: it sets the clock back, or it comes nearer to that. -/
theorem Overtaken.exists_step (h : w.Overtaken k c) : ∃ l v, goes k l ∧ driver.step w l = some v ∧
    (¬ v.Ascending ∨ v.Overtaken k c ∧ v.distance k < w.distance k) := by
  cases hh : w.holding with
  | some now =>
    obtain ⟨hw, hp, hb⟩ := h.fireDue now
    refine ⟨.fire, { w.fireDue now with holding := none }, .inl rfl, by simp [driver, step, hh],
      .inr ⟨⟨⟨hw.last, hw.found⟩, hp, hb⟩, ?_⟩⟩
    simp [distance, hh]
  | none =>
    obtain ⟨⟨stage, checked⟩, b, hk, hb, hlt⟩ := h.behind
    have hp := h.paused
    cases stage with
    | set target deadline =>
      refine ⟨.go k, (w.set deadline).setAdvance k ⟨.fire target deadline, checked⟩, .inr rfl,
        by simp [driver, step, World.go, hk, hp], .inl ?_⟩
      exact not_ascending_concat h.kept hp (some.inj hb ▸ hlt)
    | finish target =>
      refine ⟨.go k, (w.set target).setAdvance k ⟨.returned, checked⟩, .inr rfl,
        by simp [driver, step, World.go, hk, hp], .inl ?_⟩
      exact not_ascending_concat h.kept hp (some.inj hb ▸ hlt)
    | yielding target =>
      exact ⟨.go k, _, .inr rfl, by simp [driver, step, World.go, hk],
        .inr (h.setAdvance ⟨.peek target, checked⟩ hk hb hlt (Nat.lt_add_one _) (by simp))⟩
    | fire target deadline =>
      have hk' : (w.fireDue deadline).advances[k]? = some ⟨.fire target deadline, checked⟩ := by
        rw [fireDue_advances, hk]
      have hgo := (h.fireDue deadline).setAdvance ⟨.yielding target, checked⟩ hk' hb hlt
        (Nat.lt_add_one _) (by simp)
      have hsame : (w.fireDue deadline).distance k = w.distance k := by
        rw [distance, distance, fireDue_advances, fireDue_holding]
      exact ⟨.go k, _, .inr rfl, by simp [driver, step, World.go, hk, hh],
        .inr ⟨hgo.1, hsame ▸ hgo.2⟩⟩
    | peek target =>
      have finish := h.setAdvance ⟨.finish target, w.timers.length⟩ hk hb hlt
        (Nat.lt_add_one _) (by simp)
      cases hheap : w.heap with
      | nil =>
        exact ⟨.go k, _, .inr rfl, by simp [driver, step, World.go, hk, hh, hheap], .inr finish⟩
      | cons e rest =>
        by_cases hd : e.1 ≤ target
        · refine ⟨.go k, _, .inr rfl, by simp [driver, step, World.go, hk, hh, hheap, hd],
            .inr (h.setAdvance ⟨.set target e.1, w.timers.length⟩ hk rfl
              (lt_of_le_of_lt hd (some.inj hb ▸ hlt)) (Nat.lt_add_one _) fun t d h => ?_)⟩
          cases h
          exact hd
        · exact ⟨.go k, _, .inr rfl, by simp [driver, step, World.go, hk, hh, hheap, hd],
            .inr finish⟩
    | _ => simp [Stage.bound] at hb

theorem leadsTo_of_overtaken (h : w.Overtaken k c) :
    driver.LeadsTo (goes k) (fun v => ¬ v.Ascending) w :=
  .of_rank (I := fun v => v.Overtaken k c) (distance k) (fun _ hv => .inr hv.exists_step) h

theorem exists_behind_of_set {k : ℕ} (a' : Advance)
    (hk : w.advances[k]? = some a) (hb : a.stage.bound = some instant)
    (hn : w.behind instant) : ∃ (j : ℕ) (a'' : Advance) (b : ℕ),
      ((w.set instant).setAdvance k a').advances[j]? = some a'' ∧
        a''.stage.bound = some b ∧ b < instant := by
  obtain ⟨j, a'', b, hj, hb', hlt⟩ := behind_iff.mp hn
  have hne : k ≠ j := by
    rintro rfl
    cases hk.symm.trans hj
    have := some.inj (hb.symm.trans hb')
    omega
  exact ⟨j, a'', b, (getElem?_set_ne hne).trans hj, hb', hlt⟩

theorem exists_behind_of_overtakes (hl : w.overtakes l) (hs : w.Steps l v) :
    ∃ (k : ℕ) (a : Advance) (b c : ℕ), v.advances[k]? = some a ∧ a.stage.bound = some b ∧
      v.paused = some c ∧ b < c := by
  cases hs with
  | pause hp =>
    obtain ⟨k, a, b, hk, hb, hlt⟩ := behind_iff.mp hl
    exact ⟨k, a, b, w.real, hk, hb, rfl, hlt⟩
  | found hk hh hheap hd =>
    simp only [overtakes, hk, hheap, head?_cons, any_some, and_eq_true,
      Option.any_eq_true, decide_eq_true_eq] at hl
    obtain ⟨-, c, hp, hlt⟩ := hl
    exact ⟨_, _, _, c, set_self hk _, rfl, hp, hlt⟩
  | @set k target deadline checked c hk hp =>
    simp only [overtakes, hk, and_eq_true] at hl
    obtain ⟨j, a, b, hj, hb, hlt⟩ := exists_behind_of_set ⟨.fire target deadline, checked⟩
      hk rfl hl.2
    exact ⟨j, a, b, deadline, hj, hb, rfl, hlt⟩
  | @finish k target checked c hk hp =>
    simp only [overtakes, hk, and_eq_true] at hl
    obtain ⟨j, a, b, hj, hb, hlt⟩ := exists_behind_of_set ⟨.returned, checked⟩ hk rfl hl.2
    exact ⟨j, a, b, target, hj, hb, rfl, hlt⟩
  | @checked k target checked hk hh hd =>
    simp only [overtakes, hk, Option.any_eq_true, Bool.and_eq_true, decide_eq_true_eq] at hl
    obtain ⟨e, he, hle, -⟩ := hl
    exact absurd (hd e he) (not_lt.mpr hle)
  | start hk | fired hk hh | yielded hk => simp [overtakes, hk] at hl
  | @unpaused k a hk hp =>
    obtain ⟨stage, checked⟩ := a
    cases stage <;> simp [overtakes, hk, hp] at hl
  | _ => simp [overtakes] at hl

/-- **The paused clock goes back only if a call of `advance` is overtaken.**  As long as no step
moves the clock past what a call in progress will set it to, and no call finds an overdue entry, it
never goes back while it is paused.  After a step that does, it goes back when that call goes on.
-/
theorem ascending_unless_overtakes (w : World) :
    (driver.ReachableUnder (fun w l => w.overtakes l = false) w → w.Ascending) ∧
    ∀ l v, driver.Reachable w → w.overtakes l = true → w.step l = some v →
      ∃ k, driver.LeadsTo (goes k) (fun v => ¬ v.Ascending) v := by
  constructor
  · exact fun h => (abreast_of_reachableUnder h).ascending
  · intro l v hr hl hs
    obtain ⟨k, a, b, c, hk, hb, hp, hlt⟩ := exists_behind_of_overtakes hl (steps_of_step hs)
    exact ⟨k, leadsTo_of_overtaken ⟨kept_of_reachable (hr.step hs), hp, a, b, hk, hb, hlt⟩⟩

theorem ascending_of_advance : (∃ w, driver.ReachableUnder (fun w l => w.overtakes l = false) w ∧
      w.shown = [0, 3, 5, 9] ∧ w.Ascending) ∧ ∃ w v : World, w.step (.go 0) = some v ∧
      ∃ k, driver.LeadsTo (goes k) (fun v => ¬ v.Ascending) v := by
  constructor
  · have hr : driver.ReachableUnder (fun w l => w.overtakes l = false) _ :=
      ⟨[.pause, .sleep 3, .poll 0 7, .enroll 0, .advance 5, .go 0, .go 0, .go 0, .go 0, .go 0,
        .go 0, .go 0, .advance 4, .go 1, .go 1, .go 1], rfl, by decide⟩
    exact ⟨_, hr, rfl, (ascending_unless_overtakes _).1 hr⟩
  · have hw : ∃ w v, driver.run driver.init [.pause, .advance 9, .advance 5, .go 0, .go 1, .go 0] =
        some w ∧ w.overtakes (.go 0) ∧ w.step (.go 0) = some v := ⟨_, _, rfl, by decide, rfl⟩
    obtain ⟨w, v, hr, hl, hs⟩ := hw
    exact ⟨w, v, hs, (ascending_unless_overtakes w).2 (.go 0) v ⟨_, hr⟩ hl hs⟩

/-- The clock goes back in two ways.  The deadline of a `Sleep` has passed when the clock is
paused, but the timer thread has not fired it: `advance` sets the clock back to that deadline.
And of two calls of `advance` that overlap, the one with the smaller target ends last. -/
theorem exists_not_ascending :
    (∃ w, driver.run driver.init [.sleep 5, .poll 0 7, .enroll 0, .tick 8, .pause, .advance 10,
      .go 0, .go 0, .go 0] = some w ∧ w.shown = [8, 5] ∧ ¬ w.Ascending) ∧
    ∃ w, driver.run driver.init [.pause, .advance 9, .advance 5, .go 0, .go 1, .go 0, .go 0, .go 1,
      .go 1] = some w ∧ w.shown = [0, 9, 5] ∧ ¬ w.Ascending :=
  ⟨⟨_, rfl, rfl, by decide⟩, ⟨_, rfl, rfl, by decide⟩⟩

end World

end RustyTokio.Time

import RustyTokio.Transition.System
import Mathlib.Order.Bounds.Defs
import Mathlib.Tactic.Ring

/-!
# `Interval`

`interval_at` and `Interval::poll_tick` of `src/time/mod.rs`.  A poll reads the clock twice: once in
the poll of its `Sleep`, and, when that is ready, once more where the next deadline is computed.
Instants are natural numbers and nothing overflows.
-/

namespace RustyTokio.Time

open Transition List Option

inductive MissedTickBehavior where
  | burst
  | delay
  | skip
  deriving DecidableEq

structure Interval where
  period : ℕ
  /-- The assertion of `interval_at`. -/
  pos : 0 < period
  nextDeadline : ℕ
  /-- The deadline of the `Sleep` that is waited for. -/
  sleep : Option ℕ
  missedTickBehavior : MissedTickBehavior
  deriving DecidableEq

def intervalAt (start period : ℕ) (pos : 0 < period) (behavior : MissedTickBehavior) : Interval :=
  ⟨period, pos, start, none, behavior⟩

/-- The `while` of `MissedTickBehavior::Skip`. -/
def catchUp (period now : ℕ) (pos : 0 < period) (next : ℕ) : ℕ :=
  if next ≤ now then catchUp period now pos (next + period) else next
termination_by now + 1 - next

namespace Interval

/-- The deadline after a tick, with the second reading of the clock. -/
def following (i : Interval) (now : ℕ) : ℕ :=
  match i.missedTickBehavior with
  | .burst => i.nextDeadline + i.period
  | .delay => now + i.period
  | .skip => catchUp i.period now i.pos (i.nextDeadline + i.period)

def pollTick (i : Interval) (seen now : ℕ) : Interval × Option ℕ :=
  let deadline := i.sleep.getD i.nextDeadline
  if deadline ≤ seen then
    ({ i with nextDeadline := i.following now, sleep := none }, some i.nextDeadline)
  else ({ i with sleep := some deadline }, none)

end Interval

/-! ## The catch-up loop -/

theorem catchUp_of_lt {period now next : ℕ} {pos : 0 < period} (h : now < next) :
    catchUp period now pos next = next := by
  rw [catchUp, if_neg (not_le.mpr h)]

/-- The loop ends at the least point of the schedule from `next` on that is past `now`. -/
theorem isLeast_catchUp (period now : ℕ) (pos : 0 < period) (next : ℕ) :
    IsLeast {d | (∃ k, d = next + k * period) ∧ now < d} (catchUp period now pos next) := by
  fun_induction catchUp with
  | case1 next hle ih =>
    obtain ⟨⟨⟨k, hk⟩, hlt⟩, hleast⟩ := ih
    refine ⟨⟨⟨k + 1, by rw [hk]; ring⟩, hlt⟩, ?_⟩
    rintro d ⟨⟨j, rfl⟩, hd⟩
    cases j with
    | zero => omega
    | succ j => exact hleast ⟨⟨j, by ring⟩, hd⟩
  | case2 next hlt =>
    refine ⟨⟨⟨0, by ring⟩, not_le.mp hlt⟩, ?_⟩
    rintro d ⟨⟨j, rfl⟩, -⟩
    exact Nat.le_add_right _ _

/-! ## Runs of one interval -/

structure Tick where
  instant : ℕ
  seen : ℕ
  now : ℕ
  deriving DecidableEq

structure Ticking where
  interval : Interval
  clock : ℕ
  ticks : List Tick
  deriving DecidableEq

/-- A poll, with readings of a clock that does not go back. -/
def Ticking.step (w : Ticking) : ℕ × ℕ → Option Ticking
  | (seen, now) =>
    if w.clock ≤ seen ∧ seen ≤ now then
      match w.interval.pollTick seen now with
      | (i, some instant) => some ⟨i, now, w.ticks ++ [⟨instant, seen, now⟩]⟩
      | (i, none) => some ⟨i, now, w.ticks⟩
    else none

def ticking (start period : ℕ) (pos : 0 < period) (behavior : MissedTickBehavior) :
    System Ticking (ℕ × ℕ) where
  init := ⟨intervalAt start period pos behavior, 0, []⟩
  step := Ticking.step

namespace Ticking

/-- The points `start + ℕ * period`. -/
def OnSchedule (start period d : ℕ) : Prop := ∃ k, d = start + k * period

/-- What each `MissedTickBehavior` says of the ticks so far. -/
structure Kept (start period : ℕ) (behavior : MissedTickBehavior) (w : Ticking) : Prop where
  period_eq : w.interval.period = period
  behavior_eq : w.interval.missedTickBehavior = behavior
  sleep : w.interval.sleep.getD w.interval.nextDeadline = w.interval.nextDeadline
  due : ∀ t ∈ w.ticks, t.instant ≤ t.seen
  burst : behavior = .burst → w.interval.nextDeadline = start + w.ticks.length * period ∧
    w.ticks.map Tick.instant = (List.range w.ticks.length).map (start + · * period)
  skip : behavior = .skip → OnSchedule start period w.interval.nextDeadline ∧
    (∀ t ∈ w.ticks, OnSchedule start period t.instant ∧ t.instant < w.interval.nextDeadline) ∧
    (w.ticks.map Tick.instant).Pairwise (· < ·)
  next : behavior = .skip → ∀ t, w.ticks.getLast? = some t →
    IsLeast {d | OnSchedule start period d ∧ t.now < d ∧ t.instant < d} w.interval.nextDeadline

variable {start period : ℕ} {behavior : MissedTickBehavior} {w v : Ticking} {seen now : ℕ}

theorem Kept.isLeast_following (h : w.Kept start period .skip) (now : ℕ) :
    IsLeast {d | OnSchedule start period d ∧ now < d ∧ w.interval.nextDeadline < d}
      (w.interval.following now) := by
  obtain ⟨⟨k, hk⟩, -⟩ := h.skip rfl
  have hperiod := h.period_eq
  have hpos := w.interval.pos
  have hfollowing : w.interval.following now = catchUp w.interval.period now w.interval.pos
      (w.interval.nextDeadline + w.interval.period) := by
    rw [Interval.following, h.behavior_eq]
  rw [hfollowing]
  obtain ⟨⟨⟨j, hj⟩, hlt⟩, hmin⟩ := isLeast_catchUp w.interval.period now w.interval.pos
    (w.interval.nextDeadline + w.interval.period)
  refine ⟨⟨⟨k + 1 + j, ?_⟩, hlt, by rw [hj]; omega⟩, ?_⟩
  · rw [hj, hk, hperiod]
    ring
  · rintro d ⟨⟨m, hm⟩, hd, hnext⟩
    refine hmin ⟨⟨m - (k + 1), ?_⟩, hd⟩
    have hkm : k < m := by
      rw [hk, hm] at hnext
      exact Nat.lt_of_mul_lt_mul_right (Nat.lt_of_add_lt_add_left hnext)
    obtain ⟨n, rfl⟩ := Nat.exists_eq_add_of_lt hkm
    rw [hm, hk, hperiod, show k + n + 1 - (k + 1) = n by omega]
    ring

theorem Kept.tick (h : w.Kept start period behavior) (hdue : w.interval.nextDeadline ≤ seen) :
    Kept start period behavior
      ⟨{ w.interval with nextDeadline := w.interval.following now, sleep := none }, now,
        w.ticks ++ [⟨w.interval.nextDeadline, seen, now⟩]⟩ where
  period_eq := h.period_eq
  behavior_eq := h.behavior_eq
  sleep := rfl
  due t ht := by
    rcases mem_append.mp ht with ht | ht
    · exact h.due t ht
    · rw [mem_singleton.mp ht]
      exact hdue
  burst hb := by
    subst hb
    obtain ⟨hnext, hticks⟩ := h.burst rfl
    rw [Interval.following, h.behavior_eq]
    simp only [length_append, length_singleton]
    refine ⟨?_, ?_⟩
    · rw [hnext, h.period_eq]
      ring
    · rw [map_append, hticks, range_succ, map_append, hnext]
      rfl
  skip hs := by
    subst hs
    obtain ⟨hon, hticks, hpair⟩ := h.skip rfl
    obtain ⟨⟨hon', -, hlt⟩, -⟩ := h.isLeast_following now
    refine ⟨hon', fun t ht => ?_, ?_⟩
    · rcases mem_append.mp ht with ht | ht
      · exact ⟨(hticks t ht).1, (hticks t ht).2.trans hlt⟩
      · rw [mem_singleton.mp ht]
        exact ⟨hon, hlt⟩
    · rw [map_append, pairwise_append]
      refine ⟨hpair, pairwise_singleton _ _, fun a ha b hb => ?_⟩
      obtain ⟨t, ht, rfl⟩ := mem_map.mp ha
      rw [mem_singleton.mp hb]
      exact (hticks t ht).2
  next hs t ht := by
    subst hs
    rw [getLast?_concat] at ht
    cases ht
    exact h.isLeast_following now

theorem kept_of_step {p : ℕ × ℕ} (h : w.Kept start period behavior) (hs : w.step p = some v) :
    v.Kept start period behavior := by
  obtain ⟨seen, now⟩ := p
  obtain ⟨-, hs⟩ := ite_none_right_eq_some.mp hs
  rw [Interval.pollTick, h.sleep] at hs
  by_cases hdue : w.interval.nextDeadline ≤ seen
  · rw [if_pos hdue] at hs
    exact some.inj hs ▸ h.tick hdue
  · rw [if_neg hdue] at hs
    exact some.inj hs ▸ ⟨h.period_eq, h.behavior_eq, rfl, h.due, h.burst, h.skip, h.next⟩

theorem kept_of_reachable {pos : 0 < period}
    (h : (ticking start period pos behavior).Reachable w) : w.Kept start period behavior := by
  refine System.inv_of_reachable (I := Kept start period behavior) ?_
    (fun _ _ _ hk hs => kept_of_step hk hs) h
  exact ⟨rfl, rfl, rfl, fun _ ht => absurd ht not_mem_nil,
    fun _ => ⟨(Nat.zero_mul period ▸ rfl), rfl⟩,
    fun _ => ⟨⟨0, by simp [ticking, intervalAt]⟩, fun _ ht => absurd ht not_mem_nil, .nil⟩,
    fun _ _ ht => absurd ht nofun⟩

/-- **The schedule of an interval.**  However late the polls are, no tick is returned before its
instant.  In `Burst` mode tick `k` is `start + k * period`; in `Skip` mode the ticks are increasing
points of the schedule, and after each the next deadline is the least point of the schedule past
both the tick and the time it was observed at. -/
theorem ticks_on_schedule (start period : ℕ) (pos : 0 < period) (behavior : MissedTickBehavior)
    (w : Ticking) (h : (ticking start period pos behavior).Reachable w) :
    (∀ t ∈ w.ticks, t.instant ≤ t.seen) ∧ (behavior = .burst →
      w.ticks.map Tick.instant = (List.range w.ticks.length).map (start + · * period)) ∧
    (behavior = .skip → (w.ticks.map Tick.instant).Pairwise (· < ·) ∧
      (∀ t ∈ w.ticks, OnSchedule start period t.instant) ∧ ∀ t, w.ticks.getLast? = some t →
        IsLeast {d | OnSchedule start period d ∧ t.now < d ∧ t.instant < d}
          w.interval.nextDeadline) := by
  have hk := kept_of_reachable h
  refine ⟨hk.due, fun hb => (hk.burst hb).2, fun hs => ?_⟩
  obtain ⟨-, hticks, hpair⟩ := hk.skip hs
  exact ⟨hpair, fun t ht => (hticks t ht).1, hk.next hs⟩

theorem ticks_on_schedule_late :
    ∃ w, (ticking 10 10 (by decide) .burst).run (ticking 10 10 (by decide) .burst).init
        [(25, 26), (27, 27)] = some w ∧
      w.ticks.map Tick.instant = [10, 20] ∧ ∀ t ∈ w.ticks, t.instant ≤ t.seen :=
  ⟨_, rfl, rfl, (ticks_on_schedule 10 10 (by decide) .burst _ ⟨[(25, 26), (27, 27)], rfl⟩).1⟩

end Ticking

/-! ## The three modes side by side -/

namespace Interval

/-- What each poll of a list returns, and the next deadline after it. -/
def trace (i : Interval) : List (ℕ × ℕ) → List (Option ℕ × ℕ)
  | [] => []
  | (seen, now) :: polls =>
    match i.pollTick seen now with
    | (j, answer) => (answer, j.nextDeadline) :: j.trace polls

/-- The second reading of the clock meets `C` at every tick; `C` is told the tick. -/
def AtTicks (C : ℕ → ℕ → Prop) (i : Interval) : List (ℕ × ℕ) → Prop
  | [] => True
  | (seen, now) :: polls =>
    match i.pollTick seen now with
    | (j, answer) => (∀ d, answer = some d → C d now) ∧ j.AtTicks C polls

/-- Every tick is observed before the following one is due. -/
def Prompt (i : Interval) (polls : List (ℕ × ℕ)) : Prop :=
  i.AtTicks (fun d now => now < d + i.period) polls

/-- Every tick is observed at its instant. -/
def Exact (i : Interval) (polls : List (ℕ × ℕ)) : Prop :=
  i.AtTicks (fun d now => now = d) polls

def inMode (i : Interval) (behavior : MissedTickBehavior) : Interval :=
  { i with missedTickBehavior := behavior }

variable {i : Interval} {seen now : ℕ}

theorem pollTick_inMode_of_lt (h : seen < i.sleep.getD i.nextDeadline)
    (behavior : MissedTickBehavior) : (i.inMode behavior).pollTick seen now =
      (({ i with sleep := some (i.sleep.getD i.nextDeadline) }).inMode behavior, none) := by
  rw [pollTick]
  exact if_neg (not_le.mpr h)

theorem pollTick_inMode (h : i.sleep.getD i.nextDeadline ≤ seen) (behavior : MissedTickBehavior) :
    (i.inMode behavior).pollTick seen now =
      (({ i with nextDeadline := (i.inMode behavior).following now, sleep := none }).inMode
        behavior, some i.nextDeadline) := by
  rw [pollTick]
  exact if_pos h

theorem trace_skip (polls : List (ℕ × ℕ)) : ∀ i : Interval, (i.inMode .burst).Prompt polls →
      (i.inMode .skip).trace polls = (i.inMode .burst).trace polls := by
  induction polls with
  | nil => exact fun _ _ => rfl
  | cons p polls ih =>
    obtain ⟨seen, now⟩ := p
    intro i hprompt
    rw [Prompt, AtTicks] at hprompt
    rw [trace, trace]
    by_cases hdue : i.sleep.getD i.nextDeadline ≤ seen
    · rw [pollTick_inMode hdue] at hprompt ⊢
      rw [pollTick_inMode hdue]
      have hsame : (i.inMode .skip).following now = (i.inMode .burst).following now :=
        catchUp_of_lt (hprompt.1 _ rfl)
      rw [hsame]
      exact congrArg _ (ih
        { i with nextDeadline := (i.inMode .burst).following now, sleep := none } hprompt.2)
    · have hlt := not_le.mp hdue
      rw [pollTick_inMode_of_lt hlt] at hprompt ⊢
      rw [pollTick_inMode_of_lt hlt]
      exact congrArg _ (ih { i with sleep := some (i.sleep.getD i.nextDeadline) } hprompt.2)

theorem trace_delay_iff (polls : List (ℕ × ℕ)) :
    ∀ i : Interval, (i.inMode .delay).trace polls = (i.inMode .burst).trace polls ↔
      (i.inMode .burst).Exact polls := by
  induction polls with
  | nil => exact fun _ => ⟨fun _ => trivial, fun _ => rfl⟩
  | cons p polls ih =>
    obtain ⟨seen, now⟩ := p
    intro i
    rw [Exact, AtTicks, trace, trace]
    by_cases hdue : i.sleep.getD i.nextDeadline ≤ seen
    · rw [pollTick_inMode hdue, pollTick_inMode hdue]
      have hsame : (i.inMode .delay).following now = (i.inMode .burst).following now ↔
          now = i.nextDeadline := Nat.add_right_cancel_iff
      constructor
      · intro htrace
        obtain ⟨hhead, htail⟩ := cons.inj htrace
        have hnext : (i.inMode .delay).following now = (i.inMode .burst).following now :=
          (Prod.mk.inj hhead).2
        rw [hnext] at htail
        exact ⟨fun d hd => some.inj hd ▸ hsame.mp hnext, (ih _).mp htail⟩
      · rintro ⟨hnow, hrest⟩
        rw [hsame.mpr (hnow _ rfl)]
        exact congrArg _ ((ih _).mpr hrest)
    · have hlt := not_le.mp hdue
      rw [pollTick_inMode_of_lt hlt, pollTick_inMode_of_lt hlt]
      refine ⟨fun htrace => ⟨nofun, (ih _).mp (cons.inj htrace).2⟩, fun h => ?_⟩
      exact congrArg _ ((ih _).mpr h.2)

/-- **Where the three modes agree.**  If every tick is observed before the following one is due,
`Skip` and `Burst` return the same and have the same deadlines; `Delay` does as well exactly if
every tick is observed at its very instant. -/
theorem modes_agree_iff_exact (start period : ℕ) (pos : 0 < period) (polls : List (ℕ × ℕ))
    (h : (intervalAt start period pos .burst).Prompt polls) :
    (intervalAt start period pos .skip).trace polls =
        (intervalAt start period pos .burst).trace polls ∧
      ((intervalAt start period pos .delay).trace polls =
          (intervalAt start period pos .burst).trace polls ↔
        (intervalAt start period pos .burst).Exact polls) :=
  ⟨trace_skip polls (intervalAt start period pos .burst) h,
    trace_delay_iff polls (intervalAt start period pos .burst)⟩

theorem modes_agree_when_exact :
    (intervalAt 10 10 (by decide) .delay).trace [(5, 5), (10, 10), (20, 20)] =
      (intervalAt 10 10 (by decide) .burst).trace [(5, 5), (10, 10), (20, 20)] := by
  refine (modes_agree_iff_exact 10 10 (by decide) [(5, 5), (10, 10), (20, 20)] ?_).2.mpr ?_
  · simp [Prompt, AtTicks, pollTick, intervalAt, following]
  · simp [Exact, AtTicks, pollTick, intervalAt, following]

/-- A tick that is due at 10 is observed at 12, and the next one at the deadline: in `Delay` mode
the ticks drift. -/
theorem exists_drift : (intervalAt 10 10 (by decide) .burst).Prompt [(12, 12), (22, 22)] ∧
    (intervalAt 10 10 (by decide) .delay).Prompt [(12, 12), (22, 22)] ∧
    (intervalAt 10 10 (by decide) .burst).trace [(12, 12), (22, 22)] =
      [(some 10, 20), (some 20, 30)] ∧
    (intervalAt 10 10 (by decide) .delay).trace [(12, 12), (22, 22)] =
      [(some 10, 22), (some 22, 32)] := by
  refine ⟨?_, ?_, rfl, rfl⟩ <;> simp [Prompt, AtTicks, pollTick, intervalAt, following]

end Interval
end RustyTokio.Time

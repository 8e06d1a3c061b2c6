import RustyTokio.Time.Timers

/-!
# Wakers without a heap entry

`fire_due` takes an entry out of the heap and its waker out of the map together, and `register` puts
both in together, but `update_waker` puts a waker in for an id alone.  When the entry of that id has
been popped, nothing is left that could wake it.
-/

namespace RustyTokio.Time
namespace World

open Transition List Option Table

/-- A waker in the map has no entry in the heap. -/
def Orphaned (w : World) : Prop :=
  ∃ id t, w.timers[id]? = some t ∧ t.waker.isSome ∧ ¬ w.Queued id

/-- The entry of the `Sleep` is gone, and its poll has read the clock already, or will find the
deadline ahead. -/
def exposed (w : World) (s : Sleep) : Bool :=
  s.id.any (fun id => !decide (w.Queued id)) &&
    match s.use with
    | .idle => decide (w.now < s.deadline)
    | .polling _ => true
    | .dropped => false

def slips (w : World) (l : Label) : Bool :=
  (w.step l).any fun v => v.sleeps.any v.exposed

theorem exposed_idle {w : World} {s : Sleep} (hs : s.use = .idle) :
    w.exposed s ↔ (∃ id, s.id = some id ∧ ¬ w.Queued id) ∧ w.now < s.deadline := by
  simp [exposed, hs, Option.any_eq_true]

variable {waker i : ℕ} {s : Sleep}

theorem exposed_polling {w : World} {s : Sleep} (hs : s.use = .polling waker) :
    w.exposed s ↔ ∃ id, s.id = some id ∧ ¬ w.Queued id := by
  simp [exposed, hs, Option.any_eq_true]

/-! ## Without a slip -/

/-- Every waker in the map has an entry in the heap. -/
def Covered (w : World) : Prop :=
  ∀ (id : ℕ) (t : Timer), w.timers[id]? = some t → t.waker.isSome → w.Queued id

namespace Covered

variable {w : World} {id : ℕ}

theorem modify (h : w.Covered) (id : ℕ) {f : Timer → Timer} (hf : ∀ t, (f t).waker = none) :
    Covered { w with timers := w.timers.modify id f } := by
  intro id' t ht hw
  rcases of_modify ht with ⟨-, u, -, rfl⟩ | ⟨-, ht⟩
  · rw [hf] at hw
    cases hw
  · exact h id' t ht hw

theorem cancelId (h : w.Covered) (id : Option ℕ) : (w.cancelId id).Covered := by
  cases id with
  | none => exact h
  | some id => exact h.modify id fun _ => rfl

theorem pop {deadline : ℕ} {rest : List (ℕ × ℕ)} (h : w.Covered)
    (hheap : w.heap = (deadline, id) :: rest) : (w.pop deadline id rest).Covered := by
  intro id' t ht hw
  have hq := h.modify id (f := Timer.remove) (fun _ => rfl) id' t ht hw
  rw [Queued, hheap, map_cons, mem_cons] at hq
  rcases hq with rfl | hq
  · -- the entry that goes takes its waker along
    rcases of_modify ht with ⟨-, u, -, rfl⟩ | ⟨hne, -⟩
    · simp [Timer.remove] at hw
    · exact absurd rfl hne
  · exact hq

theorem register (h : w.Covered) (deadline waker : ℕ) : (w.register deadline waker).Covered := by
  intro id t ht hw
  have hp := (perm_orderedInsert Before (deadline, w.timers.length) w.heap).map Prod.snd
  refine hp.mem_iff.mpr (mem_cons.mpr ?_)
  rcases of_snoc ht with ht | ⟨hid, -⟩
  · exact .inr (h id t ht hw)
  · exact .inl hid

theorem updateWaker (h : w.Covered) (hid : w.Queued id) (waker : ℕ) :
    (w.updateWaker id waker).Covered := by
  intro id' t ht hw
  rcases of_modify ht with ⟨rfl, -⟩ | ⟨-, ht⟩
  · exact hid
  · exact h id' t ht hw

end Covered

theorem covered_of_steps {w v : World} {l : Label} (h : w.Covered)
    (hx : w.sleeps.any w.exposed = false) (hs : w.Steps l v) : v.Covered := by
  cases hs with
  | register hi hw hid hh => exact h.register _ _
  | update hi hw hid hh =>
    refine h.updateWaker ?_ _
    by_contra hq
    have hs := any_eq_false.mp hx _ (mem_of_getElem? hi)
    exact hs ((exposed_polling hw).mpr ⟨_, hid, hq⟩)
  | reset hi _ | drop hi _ => exact h.cancelId _
  | fire hh | fired hk hh => exact fireDue_induct (I := Covered) (fun hheap _ hw => hw.pop hheap) h
  | _ => exact h

theorem covered_of_reachableUnder {w : World}
    (h : driver.ReachableUnder (fun w l => w.slips l = false) w) : w.Covered := by
  have hboth : w.Covered ∧ w.sleeps.any w.exposed = false := by
    refine System.inv_of_reachableUnder
      (I := fun w => w.Covered ∧ w.sleeps.any w.exposed = false) ?_ ?_ h
    · exact ⟨fun id t ht => by simp [driver] at ht, rfl⟩
    · rintro w l v ⟨hw, hx⟩ hl hs
      refine ⟨covered_of_steps hw hx (steps_of_step hs), ?_⟩
      rwa [slips, show w.step l = some v from hs, any_some] at hl
  exact hboth.1

/-! ## After a slip -/

/-- The timer thread, and the poll of one `Sleep`. -/
def polls (i : ℕ) (l : Label) : Prop := l = .fire ∨ l = .poll i 0 ∨ l = .enroll i

theorem leadsTo_orphaned_of_polling {w : World} (hw : w.Sound)
    (hi : w.sleeps[i]? = some s) (hs : s.use = .polling waker) (hx : w.exposed s)
    (hh : w.holding = none) : driver.LeadsTo (polls i) Orphaned w := by
  obtain ⟨id, hid, hq⟩ := (exposed_polling hs).mp hx
  have hstep : driver.step w (.enroll i) =
      some ((w.updateWaker id waker).setSleep i { s with use := .idle }) := by
    simp [driver, step, hi, hs, hh, World.enroll, hid]
  refine .of_step (.inr (.inr rfl)) hstep (.now ?_)
  have ht := getElem?_eq_getElem (hw.sleeping i s hi id hid)
  exact ⟨id, _, modify_self ht _, rfl, hq⟩

theorem leadsTo_orphaned_of_free {w : World} (hw : w.Sound)
    (hi : w.sleeps[i]? = some s) (hx : w.exposed s) (hh : w.holding = none) :
    driver.LeadsTo (polls i) Orphaned w := by
  cases hs : s.use with
  | idle =>
    obtain ⟨⟨id, hid, hq⟩, hlt⟩ := (exposed_idle hs).mp hx
    have hstep : driver.step w (.poll i 0) =
        some (w.setSleep i { s with use := .polling 0 }) := by
      simp [driver, step, hi, hs, not_le.mpr hlt]
    refine .of_step (.inr (.inl rfl)) hstep ?_
    refine leadsTo_orphaned_of_polling (hw.setSleep i fun id hid => hw.sleeping i s hi id hid)
      (set_self hi _) rfl ?_ hh
    exact (exposed_polling rfl).mpr ⟨id, hid, hq⟩
  | polling waker => exact leadsTo_orphaned_of_polling hw hi hs hx hh
  | dropped => simp [exposed, hs] at hx

theorem leadsTo_orphaned {w : World} (hw : w.Sound)
    (hi : w.sleeps[i]? = some s) (hx : w.exposed s) : driver.LeadsTo (polls i) Orphaned w := by
  cases hh : w.holding with
  | none => exact leadsTo_orphaned_of_free hw hi hx hh
  | some now =>
    have hstep : driver.step w .fire = some { w.fireDue now with holding := none } := by
      simp [driver, step, hh]
    have hq : ∀ id, ¬ w.Queued id → id ∉ (w.fireDue now).heap.map Prod.snd := fun id hq hmem =>
      hq ((((fireDue_heap_suffix w now).sublist).map Prod.snd).subset hmem)
    refine .of_step (.inl rfl) hstep
      (leadsTo_orphaned_of_free (sound_of_steps hw (.fire hh)) (by simpa using hi) ?_ rfl)
    cases hs : s.use with
    | idle =>
      obtain ⟨⟨id, hid, hn⟩, hlt⟩ := (exposed_idle hs).mp hx
      exact (exposed_idle hs).mpr ⟨⟨id, hid, hq id hn⟩, by simpa [World.now] using hlt⟩
    | polling waker =>
      obtain ⟨id, hid, hn⟩ := (exposed_polling hs).mp hx
      exact (exposed_polling hs).mpr ⟨id, hid, hq id hn⟩
    | dropped => simp [exposed, hs] at hx

/-- **No timer is orphaned unless a `Sleep` slips.**  As long as no step leaves a `Sleep` without
heap entry in the middle of its poll or with the clock behind its deadline, every waker in the map
has an entry in the heap.  After one that does, the next poll orphans its waker. -/
theorem not_orphaned_unless_slips (w : World) :
    (driver.ReachableUnder (fun w l => w.slips l = false) w → ¬ w.Orphaned) ∧
    ∀ l v, driver.Reachable w → w.slips l = true → w.step l = some v →
      ∃ i, driver.LeadsTo (polls i) Orphaned v := by
  constructor
  · rintro h ⟨id, t, ht, hw, hq⟩
    exact hq (covered_of_reachableUnder h id t ht hw)
  · intro l v hr hl hs
    rw [slips, hs, Option.any_some, List.any_eq_true] at hl
    obtain ⟨s, hmem, hx⟩ := hl
    obtain ⟨i, hi⟩ := getElem?_of_mem hmem
    exact ⟨i, leadsTo_orphaned (sound_of_reachable (hr.step hs)) hi hx⟩

theorem not_orphaned_after_advance : (∃ w, driver.ReachableUnder (fun w l => w.slips l = false) w ∧
      w.wakes.length = 1 ∧ ¬ w.Orphaned) ∧
    ∃ w v : World, w.step .resume = some v ∧ ∃ i, driver.LeadsTo (polls i) Orphaned v := by
  let fired : List Label := [.sleep 100, .pause, .poll 0 7, .enroll 0, .advance 100, .go 0, .go 0,
    .go 0, .go 0]
  constructor
  · have hr : driver.ReachableUnder (fun w l => w.slips l = false) _ :=
      ⟨fired ++ [.poll 0 7, .go 0, .go 0, .go 0], rfl, by decide⟩
    exact ⟨_, hr, rfl, (not_orphaned_unless_slips _).1 hr⟩
  · have hw : ∃ w v, driver.run driver.init fired = some w ∧ w.slips .resume ∧
        w.step .resume = some v := ⟨_, _, rfl, by decide, rfl⟩
    obtain ⟨w, v, hr, hl, hs⟩ := hw
    exact ⟨w, v, hs, (not_orphaned_unless_slips w).2 .resume v ⟨_, hr⟩ hl hs⟩

/-- Two orphans.  On a paused clock, `advance` fires a `Sleep` and `resume` puts the clock back
before it is polled.  In real time, the deadline comes in the middle of the second poll. -/
theorem exists_orphaned :
    (∃ w, driver.run driver.init [.sleep 100, .pause, .poll 0 7, .enroll 0, .advance 100, .go 0,
      .go 0, .go 0, .go 0, .resume, .poll 0 7, .enroll 0] = some w ∧ w.Orphaned) ∧
    ∃ w, driver.run driver.init [.sleep 5, .poll 0 7, .enroll 0, .poll 0 8, .tick 5, .look, .fire,
      .enroll 0] = some w ∧ w.Orphaned :=
  ⟨⟨_, rfl, 0, _, rfl, rfl, by decide⟩, ⟨_, rfl, 0, _, rfl, rfl, by decide⟩⟩

end World

end RustyTokio.Time

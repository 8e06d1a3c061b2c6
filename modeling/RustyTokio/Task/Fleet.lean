import RustyTokio.Task.Completion

/-!
# The tasks of a runtime

All tasks of a runtime count themselves in one place, `Shared::active_tasks`.  A
fleet is the tasks spawned so far with that counter; a task that takes a step
works on the shared counter (`src/runtime/mod.rs`, `task_spawned` and
`task_finished`).
-/

namespace RustyTokio.Task

open Transition List Option

variable {T P : Type}

structure Fleet (T P : Type) where
  tasks : List (TaskState T P)
  activeTasks : ℕ

inductive FleetLabel (T P : Type) where
  | spawn (n : ℕ)
  | task (k : ℕ) (label : Label T P)

def TaskState.withActive (s : TaskState T P) (active : ℕ) : TaskState T P :=
  { s with core := { s.core with activeTasks := active } }

/-- One move of a fleet; none once the process has ended. -/
def Fleet.step (f : Fleet T P) (l : FleetLabel T P) : Option (Fleet T P) :=
  if f.tasks.any (fun s => s.core.crashed) then none
  else match l with
  | .spawn n =>
    some ⟨f.tasks ++ [.spawned T P (f.activeTasks + 1) n], f.activeTasks + 1⟩
  | .task k l =>
    f.tasks[k]?.bind fun s =>
      ((s.withActive f.activeTasks).step l).map fun t => ⟨f.tasks.set k t, t.core.activeTasks⟩

def fleetSystem (T P : Type) : System (Fleet T P) (FleetLabel T P) where
  init := ⟨[], 0⟩
  step := Fleet.step

def Label.destructorPanics : Label T P → Bool
  | .thread _ (.readyDropPanic _) => true
  | .thread _ .panicDropPanic => true
  | .thread _ .dropPanic => true
  | .free _ panics => panics
  | _ => false

def FleetLabel.destructorPanics : FleetLabel T P → Bool
  | .spawn _ => false
  | .task _ l => l.destructorPanics

variable {s : TaskState T P} {l : Label T P}

theorem dropUnwinds_of_destructorPanics
    (h : l.destructorPanics = false) : dropUnwinds s l = false := by
  cases l with
  | thread i ch =>
    cases hpc : s.threads[i]? with
    | none => rw [dropUnwinds, hpc]
    | some pc =>
      rw [dropUnwinds, hpc]
      cases ch with
      | panicDropPanic | dropPanic => simp [Label.destructorPanics] at h
      | _ => unfold Pc.dropUnwinds; split <;> simp_all
  | free i panics =>
    have hp : panics = false := h
    subst hp
    simp only [dropUnwinds, Bool.false_and]
    split <;> rfl
  | _ => rfl

/-! ## The counter -/

theorem Pc.step_marks {c c' : Core T P} {pc pc' : Pc T P} {ch : Choice T P}
    (h : pc.step c ch = some (c', pc')) : (c'.marks = c.marks ∧ c'.activeTasks = c.activeTasks) ∨
      (c'.marks = c.marks + 1 ∧ c'.activeTasks = c.activeTasks - 1) := by
  cases pc with
  | idle => cases ch <;> grind [Pc.step]
  | beginLoad => grind [Pc.step, beginPollLoad]
  | beginCas st => grind [Pc.step, beginPollExchange]
  | abortedTake | abortTake => exact .inl (by rw [(dropFuture_eq_some h).1]; exact ⟨rfl, rfl⟩)
  | poll =>
    rcases pollFuture_eq_some h with ⟨rfl, -⟩ | ⟨v, rfl, -⟩ | ⟨p, rfl, -⟩ | ⟨-, rfl, -⟩ <;>
      exact .inl ⟨rfl, rfl⟩
  | dropHook | hookReturn => exact .inl (by rw [(releaseJoin_eq_some h).1]; exact ⟨rfl, rfl⟩)
  | wakeLoad =>
    obtain ⟨p, hp, -⟩ := wakePass_eq c
    rw [some.inj h] at hp
    obtain rfl : c' = _ := hp
    exact .inl ⟨rfl, rfl⟩
  | wakeCas st =>
    obtain ⟨w, p, hp, -⟩ := wakeExchange_eq c st
    rw [some.inj h] at hp
    obtain rfl : c' = _ := hp
    exact .inl ⟨rfl, rfl⟩
  | fireHook o =>
    obtain ⟨k, hk⟩ := fireAbnormalHook_core c o ch
    rw [some.inj h] at hk
    obtain rfl : c' = _ := hk
    exact .inl ⟨rfl, rfl⟩
  | _ => grind [Pc.step]

theorem step_marks {t : TaskState T P} (h : s.step l = some t) :
    (t.core.marks = s.core.marks ∧ t.core.activeTasks = s.core.activeTasks) ∨
      (t.core.marks = s.core.marks + 1 ∧ t.core.activeTasks = s.core.activeTasks - 1) := by
  cases steps_of_step h with
  | thread hpc hs => exact Pc.step_marks hs
  | joinPoll hj | joinDrop | free hpc hq hrest hcase => exact .inl ⟨rfl, rfl⟩

def TaskState.isActive (s : TaskState T P) : Bool := decide (s.core.marks = 0)

/-- `active_tasks` counts the tasks that have not ended. -/
structure FleetSound (f : Fleet T P) : Prop where
  sound : ∀ s ∈ f.tasks, Sound s ∧ Contained s
  count : f.activeTasks = f.tasks.countP TaskState.isActive

variable {f g : Fleet T P}

theorem step_spawn {n : ℕ} (h : f.step (.spawn n) = some g) :
    g = ⟨f.tasks ++ [.spawned T P (f.activeTasks + 1) n], f.activeTasks + 1⟩ := by
  unfold Fleet.step at h
  split at h
  · cases h
  · exact (some.inj h).symm

theorem step_task {k : ℕ} (h : f.step (.task k l) = some g) :
    ∃ s t, f.tasks[k]? = some s ∧ (s.withActive f.activeTasks).step l = some t ∧
      g = ⟨f.tasks.set k t, t.core.activeTasks⟩ := by
  obtain ⟨-, h⟩ := ite_none_left_eq_some.mp h
  obtain ⟨s, hk, h⟩ := bind_eq_some_iff.mp h
  obtain ⟨t, hs, rfl⟩ := map_eq_some_iff.mp h
  exact ⟨s, t, hk, hs, rfl⟩

theorem unfailed_of_step {l : FleetLabel T P} (h : f.step l = some g)
    (hb : ∀ s ∈ g.tasks, s.core.beginFailed = false) :
    ∀ s ∈ f.tasks, s.core.beginFailed = false := by
  intro s hs
  cases l with
  | spawn n =>
    rw [step_spawn h] at hb
    exact hb s (mem_append_left _ hs)
  | task k l =>
    obtain ⟨s₀, t, hk, hstep, rfl⟩ := step_task h
    obtain ⟨j, hj⟩ := mem_iff_getElem?.mp hs
    obtain rfl | hjk := eq_or_ne k j
    · obtain rfl := some.inj (hk.symm.trans hj)
      refine beginFailed_of_step (s := s₀.withActive f.activeTasks) hstep (hb t ?_)
      exact mem_of_getElem? (getElem?_set_self (lt_of_some hk))
    · refine hb s (mem_of_getElem? (i := j) ?_)
      rw [getElem?_set, if_neg hjk, hj]

theorem FleetSound.step {l : FleetLabel T P} (h : FleetSound f)
    (hs : f.step l = some g) (hd : l.destructorPanics = false)
    (hb : ∀ s ∈ g.tasks, s.core.beginFailed = false) : FleetSound g := by
  cases l with
  | spawn n =>
    rw [step_spawn hs]
    refine ⟨fun s hmem => ?_, ?_⟩
    · rcases mem_append.mp hmem with hmem | hmem
      · exact h.sound s hmem
      · rw [mem_singleton.mp hmem]
        exact ⟨sound_spawned _ n, contained_spawned _ n⟩
    · rw [countP_append, ← h.count]
      rfl
  | task k l =>
    obtain ⟨s, t, hk, hstep, rfl⟩ := step_task hs
    have hmem : s ∈ f.tasks := mem_of_getElem? hk
    have htmem : t ∈ f.tasks.set k t :=
      mem_of_getElem? (getElem?_set_self (lt_of_some hk))
    have hbt := hb t htmem
    obtain ⟨⟨hp, hl⟩, hc⟩ := h.sound s hmem
    have hsound : Sound t := sound_step (s := s.withActive f.activeTasks) ⟨hp, hl⟩ hstep hbt
    have hcont : Contained t :=
      Contained.step (s := s.withActive f.activeTasks) ⟨hc.1, hc.2, hc.3⟩ hstep
        (dropUnwinds_of_destructorPanics hd) hbt
    refine ⟨fun u hu => ?_, ?_⟩
    · rcases Pool.mem_set_cases hk hu with rfl | ⟨j, -, hj⟩
      · exact ⟨hsound, hcont⟩
      · exact h.sound u (mem_of_getElem? hj)
    · -- the counter goes down exactly when the task turns inactive
      have hcount := Table.countP_modify TaskState.isActive (fun _ => t) hk
      rw [← set_eq_modify] at hcount
      have hle := hsound.marks_le
      have hf := h.count
      have hpos : (s.isActive) → 0 < f.tasks.countP TaskState.isActive := fun ha =>
        countP_pos_iff.mpr ⟨s, hmem, ha⟩
      rcases step_marks hstep with ⟨hm, ha⟩ | ⟨hm, ha⟩
      · have hm' : t.core.marks = s.core.marks := hm
        have ha' : t.core.activeTasks = f.activeTasks := ha
        have he : t.isActive = s.isActive := by rw [TaskState.isActive, hm', TaskState.isActive]
        rw [he] at hcount
        change t.core.activeTasks = (f.tasks.set k t).countP TaskState.isActive
        omega
      · have hm' : t.core.marks = s.core.marks + 1 := hm
        have ha' : t.core.activeTasks = f.activeTasks - 1 := ha
        have hz : s.core.marks = 0 := by omega
        have hs1 : s.isActive := by simp [TaskState.isActive, hz]
        have ht1 : t.isActive = false := by simp [TaskState.isActive, hm']
        have := hpos hs1
        rw [hs1, ht1] at hcount
        simp only [Bool.toNat_true, Bool.toNat_false] at hcount
        change t.core.activeTasks = (f.tasks.set k t).countP TaskState.isActive
        omega

theorem fleetSound_of_reachableUnder
    (h : (fleetSystem T P).ReachableUnder (fun _ l => l.destructorPanics = false) f)
    (hb : ∀ s ∈ f.tasks, s.core.beginFailed = false) : FleetSound f := by
  have hI := System.inv_of_reachableUnder (S := fleetSystem T P)
    (I := fun f => (∀ s ∈ f.tasks, s.core.beginFailed = false) → FleetSound f)
    (fun _ => ⟨fun s hs => absurd hs (not_mem_nil), rfl⟩)
    (fun f l g hI hd hs hb => (hI (unfailed_of_step hs hb)).step hs hd hb) h
  exact hI hb

/-- **A task completes exactly once.**  As long as no destructor panics and no `begin_poll` has,
the counter is the number of tasks not marked finished, and for each task: `finish` and
`task_finished` are called at most once; outside of terminal paths once for each path entered, with
its result; a thread inside one gets to its end; a thread about to poll finds none entered; and
once `finish` has run, a parked `JoinHandle` has been woken. -/
theorem completion_exactly_once {f : Fleet T P}
    (h : (fleetSystem T P).ReachableUnder (fun _ l => l.destructorPanics = false) f)
    (hb : ∀ s ∈ f.tasks, s.core.beginFailed = false) :
    f.activeTasks = f.tasks.countP TaskState.isActive ∧ ∀ s ∈ f.tasks,
      (s.core.finishes.length ≤ 1 ∧ s.core.marks ≤ 1) ∧
      (s.ending = false → s.core.finishes = s.core.terminals ∧
        s.core.marks = s.core.terminals.length) ∧
      (∀ i pc, s.threads[i]? = some pc → pc.progress.isTerminal = true →
        ∃ k t, s.alone i k = some t ∧ t.threads = s.threads.set i .idle ∧
          t.core.finishes = s.core.terminals ∧ t.core.finishes.length = 1 ∧ t.core.marks = 1) ∧
      (Pc.poll ∈ s.threads → s.core.terminals = [] ∧ s.core.finishes = [] ∧ s.core.marks = 0) ∧
      (s.core.finishes ≠ [] → s.handing = false → s.core.handle.isParked = true →
        s.core.handle.isWoken = true) := by
  have hfs := fleetSound_of_reachableUnder h hb
  refine ⟨hfs.count, fun s hs => ?_⟩
  obtain ⟨hsound, hcont⟩ := hfs.sound s hs
  refine ⟨⟨hsound.finishes_length, hsound.marks_le⟩, hsound.settled hcont.unwound,
    fun i pc hi hT => hsound.terminal_returns (hb s hs) hcont.crashed hi hT,
    hsound.undecided_of_poll, fun hf hh hpark => ?_⟩
  obtain ⟨w, hw⟩ := Phase.isParked_iff.mp hpark
  have hne := hsound.awake_of_finished hf hh
  cases w with
  | false => exact absurd hw hne
  | true => rw [hw]; rfl

theorem completion_of_joined_task : ∃ f : Fleet Unit Unit,
      (fleetSystem Unit Unit).ReachableUnder (fun _ l => l.destructorPanics = false) f ∧
      f.activeTasks = f.tasks.countP TaskState.isActive ∧
      ∃ s ∈ f.tasks, s.core.finishes = [.ok ()] ∧ s.core.handle.isWoken = true := by
  let s : TaskState Unit Unit :=
    ⟨{ Core.spawned Unit Unit 1 with
        word := beginWord queued, slot := false, join := ⟨.done (.ok ()), true⟩,
        handle := .parked true, lastWaker := 7, terminals := [.ok ()], finishes := [.ok ()] },
      [.idle, .endOr .ready]⟩
  have hr : (fleetSystem Unit Unit).ReachableUnder (fun _ l => l.destructorPanics = false)
      ⟨[s], 1⟩ :=
    ⟨.spawn 1 :: [.joinPoll 7, .thread 0 .go, .thread 1 .pop, .thread 1 .go, .thread 1 .go,
      .thread 1 .go, .thread 1 .go, .thread 1 (.ready ()), .thread 1 .go, .thread 1 .go,
      .thread 1 .go].map (.task 0), rfl, by decide⟩
  have hb : ∀ u ∈ [s], u.core.beginFailed = false := by
    intro u hu
    rw [mem_singleton.mp hu]
    rfl
  have hc := completion_exactly_once hr hb
  have hs := hc.2 s (mem_singleton.mpr rfl)
  exact ⟨_, hr, hc.1, s, mem_singleton.mpr rfl, rfl, hs.2.2.2.2 (by simp [s]) rfl rfl⟩

end RustyTokio.Task

import RustyTokio.Io.UringOps

/-!
# The descriptors of `UringFile`s

`UringFile::open` submits an `OpenAt`, and the descriptor comes back as the result of the
completion.  Nothing knows of it until a poll of the future makes a `UringFile` of it, which closes
it in its `Drop` or by `close`.

## Main results

* `UringDriver.World.completed_of_steps`: an operation has one result, for good.
* `UringDriver.World.leadsTo_completed`: the thread and the kernel alone can complete an operation.
* `Descriptors.World.sound_of_reachable`: at most one close is issued for a file.
* `Descriptors.World.accounted_unless_abandoned`: which descriptors are accounted for, and that one
  is lost when a future of `open` is dropped too early.
-/

namespace RustyTokio

open Transition List Option Table

/-! ## Completions -/

namespace UringDriver

/-- The completions in the hands of the thread. -/
def Driver.results : Driver → List (Entry × ℤ)
  | .handling cs => cs
  | .drained cs => cs
  | .removed i r cs => (.op i, r) :: cs
  | .recorded _ cs => cs
  | .waking _ _ cs => cs
  | .dropping _ cs => cs
  | _ => []

/-- What the thread has taken from `pending` and not yet pushed. -/
def Driver.taken : Driver → List ℕ
  | .pushing es => es
  | _ => []

/-- The moves of the thread and of the kernel. -/
def Label.isServing : Label → Bool
  | .drive | .collect | .interrupt | .accept | .complete _ _ => true
  | _ => false

namespace World

/-- The operation has completed with the result `r`. -/
def Completed (w : World) (i : ℕ) (r : ℤ) : Prop :=
  (∃ o, w.ops[i]? = some o ∧ o.result = some r) ∨ (.op i, r) ∈ w.driver.results ++ w.cq

/-- What `open` has returned. -/
def opened (w : World) (i : ℕ) : Option ℤ :=
  w.ops[i]?.bind fun o =>
    if o.caller = .done then o.result.filter fun r => decide (0 ≤ r) else none

/-- The operation has completed with an error. -/
def failed (w : World) (i : ℕ) : Bool :=
  (w.ops[i]?.bind Op.result).any (fun r => decide (r < 0)) ||
    (w.driver.results ++ w.cq).any fun c => decide (c.1 = .op i ∧ c.2 < 0)

variable {w v : World} {i j k : ℕ} {r fd : ℤ} {l : Label} {o q : Op}

theorem failed_iff : w.failed i ↔ ∃ r < 0, w.Completed i r := by
  rw [failed, Bool.or_eq_true, Option.any_eq_true, List.any_eq_true]
  constructor
  · rintro (⟨r, hr, hneg⟩ | ⟨⟨e, r⟩, hmem, hneg⟩)
    · exact ⟨r, of_decide_eq_true hneg, .inl (bind_eq_some_iff.mp hr)⟩
    · obtain ⟨rfl, hneg⟩ := of_decide_eq_true hneg
      exact ⟨r, hneg, .inr hmem⟩
  · rintro ⟨r, hneg, ⟨o, ho, hr⟩ | hmem⟩
    · exact .inl ⟨r, bind_eq_some_iff.mpr ⟨o, ho, hr⟩, decide_eq_true hneg⟩
    · exact .inr ⟨_, hmem, decide_eq_true ⟨rfl, hneg⟩⟩

theorem opened_eq_some : w.opened i = some fd ↔
      ∃ o, w.ops[i]? = some o ∧ o.caller = .done ∧ o.result = some fd ∧ 0 ≤ fd := by
  rw [opened, bind_eq_some_iff]
  refine exists_congr fun o => and_congr_right fun _ => ?_
  rw [ite_none_right_eq_some, filter_eq_some_iff, decide_eq_true_eq]

theorem flight_or_removed (h : (.op i, r) ∈ w.driver.results ++ w.cq) :
    .op i ∈ w.flight ∨ ∃ cs, w.driver = .removed i r cs := by
  rcases mem_append.mp h with h | h
  · have hentry : ∀ {cs : List (Entry × ℤ)}, (.op i, r) ∈ cs → w.driver.entries = cs.map Prod.fst →
        .op i ∈ w.flight := by
      intro cs hcs hd
      simp only [flight, hd, List.mem_append, List.mem_map]
      exact .inl (.inl (.inl (.inr ⟨_, hcs, rfl⟩)))
    cases hd : w.driver with
    | handling cs | drained cs | recorded j cs | waking j k cs | dropping j cs =>
      exact .inl (hentry (by rwa [hd] at h) (by rw [hd]; rfl))
    | removed j s cs =>
      rw [hd, Driver.results, mem_cons] at h
      rcases h with heq | h
      · obtain ⟨hij, rfl⟩ := Prod.mk.inj heq
        cases hij
        exact .inr ⟨cs, rfl⟩
      · exact .inl (hentry h (by rw [hd]; rfl))
    | _ => simp [hd, Driver.results] at h
  · refine .inl ?_
    simp only [flight, List.mem_append, List.mem_map]
    exact .inr ⟨_, h, rfl⟩

theorem result_of_mem (hk : w.Kept) (hf : w.Flying)
    (h : (.op i, r) ∈ w.driver.results ++ w.cq) (ho : w.ops[i]? = some o) : o.result = none := by
  refine (hk.ops i o ho).unrecorded.mpr ?_
  rcases flight_or_removed h with hflight | ⟨cs, hd⟩
  · exact .inl (by rw [place, if_pos (hf.slab i hflight)])
  · have hslab := (hk.held i (by rw [hd]; rfl)).1
    exact .inr (by rw [place, if_neg hslab, hd, Driver.place, if_pos rfl])

theorem nodup_results (hk : w.Kept) (hf : w.Flying) :
    ((w.driver.results ++ w.cq).map Prod.fst).Nodup := by
  have hsub : (w.driver.entries ++ w.cq.map Prod.fst).Nodup := by
    refine hf.nodup.sublist ?_
    rw [flight, append_assoc, append_assoc, append_assoc]
    refine Sublist.trans ?_ (sublist_append_right _ _)
    refine (Sublist.refl _).append ?_
    rw [← append_assoc]
    exact sublist_append_right _ _
  rw [map_append]
  cases hd : w.driver with
  | removed i r cs =>
    rw [hd] at hsub
    have hslab := (hk.held i (by rw [hd]; rfl)).1
    refine nodup_cons.mpr ⟨fun hmem => hslab (hf.slab i ?_), hsub⟩
    simp only [flight, hd, mem_append]
    rcases mem_append.mp hmem with hmem | hmem
    · exact .inl (.inl (.inl (.inr hmem)))
    · exact .inr hmem
  | pushing es => exact hsub.sublist (sublist_append_right _ _)
  | _ => rwa [hd] at hsub

theorem Completed.unique {s : ℤ} (hk : w.Kept) (hf : w.Flying) (hr : w.Completed i r)
    (hs : w.Completed i s) : r = s := by
  rcases hr with ⟨o, ho, hr⟩ | hr
  · rcases hs with ⟨q, hq, hs⟩ | hs
    · rw [some.inj (ho.symm.trans hq)] at hr
      exact some.inj (hr.symm.trans hs)
    · cases hr.symm.trans (result_of_mem hk hf hs ho)
  · rcases hs with ⟨q, hq, hs⟩ | hs
    · cases hs.symm.trans (result_of_mem hk hf hr hq)
    · have hinj := inj_on_of_nodup_map (nodup_results hk hf) hr hs rfl
      exact (Prod.mk.inj hinj).2

/-- A result stays, and so does the end of a future. -/
def Follows (o q : Op) : Prop :=
  (o.result ≠ none → q.result = o.result) ∧ (o.caller.isLive = false → q.caller = o.caller)

theorem follows_of_set {p : Op} (ho : w.ops[i]? = some o) (hp : w.ops[j]? = some p)
    (hl : p.caller.isLive) (hr : q.result = p.result) :
    ∃ o', (w.ops.set j q)[i]? = some o' ∧ Follows o o' := by
  obtain rfl | hij := eq_or_ne j i
  · cases hp.symm.trans ho
    refine ⟨q, set_self ho q, fun _ => hr, fun hdead => ?_⟩
    cases hdead.symm.trans hl
  · exact ⟨o, by rwa [getElem?_set_ne hij], fun _ => rfl, fun _ => rfl⟩

theorem follows_of_modify {g : Op → Op} (ho : w.ops[i]? = some o)
    (hg : i = j → Follows o (g o)) : ∃ o', (w.ops.modify j g)[i]? = some o' ∧ Follows o o' := by
  obtain rfl | hij := eq_or_ne j i
  · exact ⟨g o, modify_self ho g, hg rfl⟩
  · exact ⟨o, (modify_of_ne hij g).trans ho, fun _ => rfl, fun _ => rfl⟩

theorem follows_of_steps (hk : w.Kept) (hs : w.Steps l v)
    (ho : w.ops[i]? = some o) : ∃ q, v.ops[i]? = some q ∧ Follows o q := by
  cases hs with
  | insert => exact ⟨o, append_of_some ho _, fun _ => rfl, fun _ => rfl⟩
  | push hp hc | write hp hc | store hp hc | park hp hc hr =>
    exact follows_of_set ho hp (by rw [hc]; rfl) rfl
  | @ready l j p hp hlive hi hr =>
    rw [takeResult, if_pos ((hk.ops j p hp).live hlive)]
    exact follows_of_set ho hp hlive rfl
  | poll hp hc hr => exact follows_of_set ho hp (isLive_of_isIdle hc).1 rfl
  | drop hp hc =>
    refine follows_of_set ho hp (isLive_of_isIdle hc).1 ?_
    split <;> simp
  | @record j r cs hd =>
    refine follows_of_modify ho fun hij => ⟨fun hr => ?_, fun _ => rfl⟩
    -- what the thread is about to record has no result yet
    subst hij
    have hslab := (hk.held i (by rw [hd]; rfl)).1
    refine absurd ((hk.ops i o ho).unrecorded.mpr (.inr ?_)) hr
    rw [place, if_neg hslab, hd, Driver.place, if_pos rfl]
  | takeWaker hd hp hk => exact follows_of_modify ho fun _ => ⟨fun _ => rfl, fun _ => rfl⟩
  | letGo hd => exact follows_of_modify ho fun _ => ⟨fun _ => by simp, fun _ => by simp⟩
  | @wake j k cs hd =>
    refine ⟨o.wake k, by rw [getElem?_map, ho, map_some], fun _ => rfl, fun hl => ?_⟩
    cases hc : o.caller with
    | parked => simp [hc, Caller.isLive] at hl
    | _ => simp [Op.wake, hc, Caller.wake]
  | arm | take | queue | enter | loop | drain | remove | ignore | rearm | noWaker | collect
  | interrupt | stop | accept | complete => exact ⟨o, ho, fun _ => rfl, fun _ => rfl⟩

theorem opened_of_steps (hk : w.Kept) (hs : w.Steps l v)
    (h : w.opened i = some fd) : v.opened i = some fd := by
  obtain ⟨o, ho, hc, hr, hpos⟩ := opened_eq_some.mp h
  obtain ⟨q, hq, hres, hcall⟩ := follows_of_steps hk hs ho
  exact opened_eq_some.mpr ⟨q, hq, (hcall (by rw [hc]; rfl)).trans hc,
    (hres (by simp [hr])).trans hr, hpos⟩

theorem completed_of_steps (hk : w.Kept) (hf : w.Flying)
    (hs : w.Steps l v) (h : w.Completed i r) : v.Completed i r := by
  rcases h with ⟨o, ho, hr⟩ | hmem
  · obtain ⟨q, hq, hres, -⟩ := follows_of_steps hk hs ho
    exact .inl ⟨q, hq, (hres (by simp [hr])).trans hr⟩
  · -- the completion is on its way, and stays so unless it is recorded now
    have hsame : v.driver.results ++ v.cq = w.driver.results ++ w.cq → v.Completed i r :=
      fun heq => .inr (heq ▸ hmem)
    cases hs with
    | arm hd | take hd | queue hd | enter hd | loop hd | remove hd | rearm hd | noWaker hd
    | takeWaker hd | wake hd | letGo hd | interrupt hd => exact hsame (by rw [hd]; rfl)
    | stop hd => exact hsame (by rcases hd with hd | hd <;> rw [hd] <;> rfl)
    | drain hd =>
      rw [hd] at hmem
      rcases mem_append.mp hmem with hmem | hmem
      · rcases mem_cons.mp hmem with heq | hmem
        · cases congrArg Prod.fst heq
        · exact .inr (mem_append_left _ hmem)
      · exact .inr (mem_append_right _ hmem)
    | @ignore j s cs hd hi =>
      -- what completes is in the slab
      refine absurd (hf.slab j ?_) hi
      simp [flight, hd, Driver.entries]
    | @record j s cs hd =>
      rw [hd] at hmem
      rcases mem_append.mp hmem with hmem | hmem
      · rcases mem_cons.mp hmem with heq | hmem
        · obtain ⟨hij, rfl⟩ := Prod.mk.inj heq
          cases hij
          have hlt := (hk.held i (by rw [hd]; rfl)).2
          exact .inl ⟨_, modify_self (getElem?_eq_getElem hlt) _, rfl⟩
        · exact .inr (mem_append_left _ hmem)
      · exact .inr (mem_append_right _ hmem)
    | collect hd =>
      rw [hd] at hmem
      refine .inr ?_
      simpa [Driver.results] using hmem
    | complete he =>
      refine .inr ?_
      rw [← append_assoc]
      exact mem_append_left _ hmem
    | ready =>
      rw [takeResult]
      split <;> exact .inr hmem
    | insert | push | write | poll | store | park | drop | accept => exact .inr hmem

theorem length_of_steps (hl : l ≠ .insert) (hs : w.Steps l v) : v.ops.length = w.ops.length := by
  cases hs with
  | insert => exact absurd rfl hl
  | ready =>
    rw [takeResult]
    split
    · exact length_set
    · rfl
  | push | write | poll | store | park | drop => exact length_set
  | record | takeWaker | letGo => exact length_modify _ _ _
  | wake => exact length_map _
  | arm | take | queue | enter | loop | drain | remove | ignore | rearm | noWaker | collect
  | interrupt | stop | accept | complete => rfl

theorem ops_of_drop (hs : w.step (.drop i) = some v) : ∃ o, w.ops[i]? = some o := by
  obtain ⟨o, ho, -⟩ := bind_eq_some_iff.mp hs
  exact ⟨o, ho⟩

theorem gone_of_steps (hs : w.Steps l v) (hq : v.ops[i]? = some q)
    (hc : q.caller = .gone) : l = .drop i ∨ ∃ o, w.ops[i]? = some o ∧ o.caller = .gone := by
  -- all moves but the drop of this future
  have hnone : NoneCame (· = .gone) w v →
      l = .drop i ∨ ∃ o, w.ops[i]? = some o ∧ o.caller = .gone := fun h => .inr (h i q hq hc)
  cases hs with
  | insert =>
    rcases of_snoc hq with hq | ⟨-, rfl⟩
    · exact .inr ⟨q, hq, hc⟩
    · simp [Op.new] at hc
  | push | write | poll | store | park => exact hnone (noneCame_of_set rfl (by simp))
  | ready => exact hnone (noneCame_takeResult (by simp))
  | @drop j o ho hidle =>
    rcases of_set hq with ⟨rfl, -⟩ | ⟨-, hq⟩
    · exact .inl rfl
    · exact .inr ⟨q, hq, hc⟩
  | record | takeWaker => exact hnone (noneCame_of_modify rfl fun _ => rfl)
  | letGo => exact hnone (noneCame_of_modify rfl Op.caller_letGo)
  | wake => exact hnone (noneCame_of_wake rfl fun _ => (Op.Fine.wake_eq_iff _ (by simp)).mp)
  | arm | take | queue | enter | loop | drain | remove | ignore | rearm | noWaker | collect
  | interrupt | stop | accept | complete => exact hnone (noneCame_of_ops rfl)

/-! ## An operation completes -/

/-- The entries that have not completed. -/
def underway (w : World) : List Entry :=
  (w.pending ++ w.driver.taken).map .op ++ w.sq ++ w.kernel

theorem underway_subset (hs : w.Steps l v) (hl : ∀ e r, l ≠ .complete e r) :
    w.underway ⊆ v.underway := by
  intro e h
  cases hs with
  | insert | write | poll | store | park | drop => exact h
  | ready =>
    rw [takeResult]
    split <;> exact h
  | push =>
    simp only [underway, map_append, mem_append] at h ⊢
    tauto
  | take hd | queue hd | enter hd | loop hd | arm hd | drain hd | remove hd | ignore hd | rearm hd
  | record hd | takeWaker hd | noWaker hd | wake hd | letGo hd | collect hd | interrupt hd =>
    simp only [underway, hd, Driver.taken, map_append, map_cons, map_nil, mem_append,
      mem_cons] at h ⊢
    tauto
  | stop hd => rcases hd with hd | hd <;> simpa only [underway, hd, Driver.taken] using h
  | accept hsq =>
    simp only [underway, hsq, mem_append, mem_cons] at h ⊢
    tauto
  | complete => exact absurd rfl (hl _ _)

theorem underway_of_steps (hs : w.Steps l v) (h : .op i ∈ w.underway) :
    .op i ∈ v.underway ∨ ∃ r, v.Completed i r := by
  by_cases hl : ∀ e r, l ≠ .complete e r
  · exact .inl (underway_subset hs hl h)
  · obtain ⟨e, r, rfl⟩ : ∃ e r, l = .complete e r := by simpa using hl
    cases hs with
    | ready =>
      rw [takeResult]
      split <;> exact .inl h
    | complete he =>
      obtain rfl | hne := eq_or_ne e (.op i)
      · exact .inr ⟨r, .inr (by simp)⟩
      · simp only [underway, mem_append, mem_erase_of_ne (Ne.symm hne)] at h ⊢
        exact .inl h

/-- Every operation whose entry was queued has completed, or its entry is on the way. -/
def Sent (w : World) : Prop :=
  ∀ (i : ℕ) (o : Op), w.ops[i]? = some o → o.caller ≠ .inserted →
    .op i ∈ w.underway ∨ ∃ r, w.Completed i r

theorem sent_of_steps (hk : w.Kept) (hf : w.Flying) (h : w.Sent) (hs : w.Steps l v) : v.Sent := by
  intro i o ho hc
  have hold : (∃ q, w.ops[i]? = some q ∧ q.caller ≠ .inserted) →
      .op i ∈ v.underway ∨ ∃ r, v.Completed i r := by
    rintro ⟨q, hq, hqc⟩
    rcases h i q hq hqc with hway | ⟨r, hr⟩
    · exact underway_of_steps hs hway
    · exact .inr ⟨r, completed_of_steps hk hf hs hr⟩
  have hnone : NoneCame (· ≠ .inserted) w v → .op i ∈ v.underway ∨ ∃ r, v.Completed i r :=
    fun h => hold (h i o ho hc)
  cases hs with
  | insert =>
    rcases of_snoc ho with ho | ⟨-, rfl⟩
    · exact hold ⟨o, ho, hc⟩
    · exact absurd rfl hc
  | push =>
    rcases of_set ho with ⟨rfl, -⟩ | ⟨-, ho⟩
    · exact .inl (by simp [underway])
    · exact hold ⟨o, ho, hc⟩
  | write hp hc | store hp hc | park hp hc =>
    exact hnone (noneCame_of_set rfl fun _ => ⟨_, hp, by simp [hc]⟩)
  | poll hp hidle | drop hp hidle =>
    exact hnone (noneCame_of_set rfl fun _ => ⟨_, hp, (isLive_of_isIdle hidle).2.1⟩)
  | ready hp hl hi => exact hnone (noneCame_takeResult fun _ => ⟨_, hp, hi.1⟩)
  | record | takeWaker => exact hnone (noneCame_of_modify rfl fun _ => rfl)
  | letGo => exact hnone (noneCame_of_modify rfl Op.caller_letGo)
  | wake => exact hnone (noneCame_of_wake rfl fun _ => mt (Op.Fine.wake_eq_iff _ (by simp)).mpr)
  | arm | take | queue | enter | loop | drain | remove | ignore | rearm | noWaker | collect
  | interrupt | stop | accept | complete => exact hnone (noneCame_of_ops rfl)

theorem sent_of_reachable (h : process.Reachable w) : w.Sent := by
  refine h.inv (I := Sent) (by simp [process, Sent]) fun _ _ _ hr hI hs => ?_
  exact sent_of_steps (kept_of_reachable hr) (flying_of_reachable hr) hI (steps_of_step hs)

/-- How many accesses the thread is from waiting. -/
def rank (w : World) : ℕ :=
  match w.driver with
  | .waiting | .stopped => 0
  | .pushing es => es.length + 1
  | .top => w.pending.length + 2
  | .starting => w.pending.length + 3
  | .handling cs => 5 * cs.length + w.pending.length + 3
  | .drained cs | .dropping _ cs => 5 * cs.length + w.pending.length + 4
  | .waking _ _ cs => 5 * cs.length + w.pending.length + 5
  | .recorded _ cs => 5 * cs.length + w.pending.length + 6
  | .removed _ _ cs => 5 * cs.length + w.pending.length + 7

/-- The thread has gone on from `w`, and lost no entry. -/
structure GoesOn (w v : World) : Prop where
  running : v.driver ≠ .stopped
  kept : w.underway ⊆ v.underway
  empty : w.pending = [] → v.pending = []

theorem exists_drive (hw : w.driver ≠ .waiting) (hs : w.driver ≠ .stopped) :
    ∃ v, w.drive = some v := by
  refine ne_none_iff_exists'.mp fun hnone => ?_
  rw [drive] at hnone
  split at hnone <;> first | contradiction | (split at hnone <;> contradiction)

theorem goesOn_of_drive (h : w.drive = some v) : w.GoesOn v ∧ v.rank < w.rank := by
  cases steps_of_drive h with
  | ready _ _ _ _ hl => exact absurd rfl hl
  | arm hd | take hd | queue hd | enter hd | loop hd | drain hd | remove hd | ignore hd | rearm hd
  | record hd | takeWaker hd | noWaker hd | wake hd | letGo hd =>
    refine ⟨⟨nofun, underway_subset (steps_of_drive h) nofun, by simp⟩, ?_⟩
    simp only [rank, hd, length_cons, length_nil]
    omega

theorem leadsTo_waiting (hs : w.driver ≠ .stopped) :
    process.LeadsTo (fun l => l = .drive) (fun u => w.GoesOn u ∧ u.driver = .waiting) w := by
  refine .of_rank (I := w.GoesOn) rank (fun u hu => ?_) ⟨hs, Subset.refl _, id⟩
  by_cases hwait : u.driver = .waiting
  · exact .inl ⟨hu, hwait⟩
  · obtain ⟨v, hv⟩ := exists_drive hwait hu.running
    obtain ⟨hon, hlt⟩ := goesOn_of_drive hv
    exact .inr ⟨.drive, v, rfl, hv, .inr
      ⟨⟨hon.running, fun e he => hon.kept (hu.kept he), fun hp => hon.empty (hu.empty hp)⟩, hlt⟩⟩

theorem leadsTo_of_kernel (h : .op i ∈ w.kernel) :
    process.LeadsTo (fun l => l.isServing = true) (fun u => u.Completed i 0) w := by
  have hs : process.step w (.complete (.op i) 0) = some { w with
      kernel := w.kernel.erase (.op i), cq := w.cq ++ [(.op i, 0)] } := if_pos ⟨h, nofun⟩
  exact .of_step rfl hs (.now (.inr (by simp)))

theorem leadsTo_of_waiting (hd : w.driver = .waiting) (h : .op i ∈ w.sq ++ w.kernel) :
    process.LeadsTo (fun l => l.isServing = true) (fun u => u.Completed i 0) w := by
  have htaken := System.LeadsTo.of_rank (S := process) (C := fun l => l.isServing = true)
    (P := fun u => .op i ∈ u.kernel)
    (I := fun u => u.driver = .waiting ∧ .op i ∈ u.sq ++ u.kernel) (fun u => u.sq.length)
    (fun u hu => ?_) ⟨hd, h⟩
  · exact htaken.bind fun u hu => leadsTo_of_kernel hu
  · obtain ⟨hd, hmem⟩ := hu
    rcases hsq : u.sq with _ | ⟨e, es⟩
    · rw [hsq] at hmem
      exact .inl hmem
    · refine .inr ⟨.accept, { u with sq := es, kernel := u.kernel ++ [e] }, rfl, ?_,
        .inr ⟨⟨hd, ?_⟩, ?_⟩⟩
      · simp [process, step, hsq, hd, Driver.hasTaken]
      · rw [hsq] at hmem
        simp only [cons_append, mem_cons, mem_append] at hmem ⊢
        tauto
      · simp

/-- The thread goes twice round its loop, and the kernel takes the entry. -/
theorem leadsTo_completed (hs : w.driver ≠ .stopped) (h : .op i ∈ w.underway) :
    process.LeadsTo (fun l => l.isServing = true) (fun u => u.Completed i 0) w := by
  have hdrive : ∀ l : Label, l = .drive → l.isServing = true := fun l hl => by rw [hl]; rfl
  refine ((leadsTo_waiting hs).mono_label hdrive).bind fun u ⟨hu, hwait⟩ => ?_
  -- once more round the loop, with `pending` taken
  have htop : process.step u .interrupt = some { u with driver := .top } := if_pos hwait
  have htake : process.step { u with driver := .top } .drive =
      some { u with driver := .pushing u.pending, pending := [] } := rfl
  refine .of_step rfl htop (.of_step rfl htake ?_)
  refine ((leadsTo_waiting (by simp)).mono_label hdrive).bind fun v ⟨hv, hwait'⟩ => ?_
  refine leadsTo_of_waiting hwait' ?_
  have hmem := hv.kept (a := .op i) (by
    simpa [underway, hwait, Driver.taken] using hu.kept h)
  simpa [underway, hwait', hv.empty rfl, Driver.taken] using hmem

end World

end UringDriver

/-! ## Files -/

namespace Descriptors

/-- A `UringFile`, from its `open` or `create` to the `close` of its descriptor. -/
inductive Stage where
  | open
  | closing
  | closed
  deriving DecidableEq

/-- The `UringFile` of an `OpenAt`, and how many closes of its descriptor were issued. -/
structure File where
  stage : Stage
  closes : ℕ
  deriving DecidableEq

/-- A close is issued. -/
def File.close (f : File) : File := ⟨.closed, f.closes + 1⟩

/-- The driver, and what was opened through it. -/
structure World where
  ring : UringDriver.World
  /-- For each operation of the driver, its file if it is an `OpenAt`. -/
  files : List (Option File)
  /-- The futures of `open` that were not polled. -/
  unpolled : ℕ

/-- The moves: of futures of `open`, of other operations, of the driver and of `UringFile`s. -/
inductive Label where
  | make
  | forget
  | open
  | submit
  | ring (l : UringDriver.Label)
  | dropFile (i : ℕ)
  | close (i : ℕ)
  | pollClose (i : ℕ)
  | dropClose (i : ℕ)
  deriving DecidableEq

namespace World

/-- `submit`, of an `OpenAt` or another operation. -/
def submit (w : World) (file : Option File) : Option World :=
  (w.ring.step .insert).map fun ring => { w with ring := ring, files := w.files ++ [file] }

/-- A move of a `UringFile` that is at `stage`. -/
def advance (w : World) (i : ℕ) (stage : Stage) (g : File → File) : Option World :=
  match w.files[i]? with
  | some (some f) =>
    if f.stage = stage ∧ (w.ring.opened i).isSome = true then
      some { w with files := w.files.set i (some (g f)) }
    else none
  | _ => none

def step (w : World) : Label → Option World
  | .make => some { w with unpolled := w.unpolled + 1 }
  | .forget => if 0 < w.unpolled then some { w with unpolled := w.unpolled - 1 } else none
  | .open =>
    if 0 < w.unpolled then { w with unpolled := w.unpolled - 1 }.submit (some ⟨.open, 0⟩)
    else none
  | .submit => w.submit none
  | .ring l =>
    if l = .insert then none else (w.ring.step l).map fun ring => { w with ring := ring }
  -- `Drop` finds the flag not set
  | .dropFile i => w.advance i .open File.close
  | .close i => w.advance i .open fun f => { f with stage := .closing }
  -- the flag is set, and `Drop` will find it
  | .pollClose i => (w.advance i .closing File.close).bind fun w => w.submit none
  | .dropClose i => w.advance i .closing File.close

end World

/-- The driver with its files, from the start. -/
def process : System World Label where
  init := ⟨UringDriver.process.init, [], 0⟩
  step := World.step

namespace World

/-- The descriptor that an `OpenAt` has returned is accounted for. -/
inductive Accounted (w : World) (i : ℕ) (f : File) (fd : ℤ) : Prop where
  | unobserved (o : UringDriver.Op) (ho : w.ring.ops[i]? = some o) (hl : o.caller.isLive)
      (hc : f.closes = 0)
  | owned (hh : w.ring.opened i = some fd) (hs : f.stage ≠ .closed) (hc : f.closes = 0)
  | closed (hh : w.ring.opened i = some fd) (hc : f.closes = 1)

/-- The future of an `OpenAt` is dropped, and the `OpenAt` has not failed. -/
def abandons (w : World) : Label → Bool
  | .ring (.drop i) => (w.files[i]?.bind id).isSome && !w.ring.failed i
  | _ => false

variable {w v : World}

/-! ## The closes -/

/-- A file has as many closes as its stage says, and a file that was closed was open. -/
structure FileFine (opened : Bool) (f : File) : Prop where
  unclosed : f.stage ≠ .closed → f.closes = 0
  closed : f.stage = .closed → f.closes = 1
  seen : f.stage ≠ .open → opened = true

theorem FileFine.new (opened : Bool) : FileFine opened ⟨.open, 0⟩ :=
  ⟨fun _ => rfl, by simp, fun ho => absurd rfl ho⟩

variable {f : File} {i : ℕ} {o : UringDriver.Op}

theorem FileFine.close (h : FileFine true f) (hf : f.stage ≠ .closed) : FileFine true f.close := by
  refine ⟨fun hc => absurd rfl hc, fun _ => ?_, fun _ => rfl⟩
  rw [File.close, h.unclosed hf]

/-- All that a move can do. -/
inductive Effect (w : World) : Label → World → Prop where
  | counted {l} (n : ℕ) : Effect w l { w with unpolled := n }
  | submitted {l ring file} (n : ℕ)
      (hring : w.ring.step .insert = some ring) (hfile : ∀ f, file = some f → f = ⟨.open, 0⟩) :
      Effect w l ⟨ring, w.files ++ [file], n⟩
  | moved {l ring} (hl : l ≠ .insert)
      (hring : w.ring.step l = some ring) : Effect w (.ring l) { w with ring := ring }
  | advanced {l i f g} (hf : w.files[i]? = some (some f))
      (hopen : (w.ring.opened i).isSome = true) (hg : FileFine true f → FileFine true g) :
      Effect w l { w with files := w.files.set i (some g) }
  | closed {l i f ring}
      (hf : w.files[i]? = some (some f)) (hopen : (w.ring.opened i).isSome = true)
      (hg : FileFine true f → FileFine true f.close) (hring : w.ring.step .insert = some ring) :
      Effect w l ⟨ring, w.files.set i (some f.close) ++ [none], w.unpolled⟩

theorem advance_eq_some {stage : Stage} {g : File → File} (h : w.advance i stage g = some v) :
    ∃ f, w.files[i]? = some (some f) ∧ f.stage = stage ∧ (w.ring.opened i).isSome ∧
      v = { w with files := w.files.set i (some (g f)) } := by
  rw [advance] at h
  split at h
  next f hf =>
    obtain ⟨⟨hstage, hopen⟩, h⟩ := ite_none_right_eq_some.mp h
    exact ⟨f, hf, hstage, hopen, (some.inj h).symm⟩
  · cases h

variable {l : Label} {ring : UringDriver.World} {fd : ℤ}

theorem effect_of_step (hs : w.step l = some v) : w.Effect l v := by
  cases l with
  | make => exact some.inj hs ▸ .counted _
  | forget =>
    obtain ⟨-, rfl⟩ := of_guard hs
    exact .counted _
  | «open» =>
    obtain ⟨-, hs⟩ := ite_none_right_eq_some.mp hs
    obtain ⟨ring, hring, rfl⟩ := map_eq_some_iff.mp hs
    exact .submitted _ hring fun f hf => (some.inj hf).symm
  | submit =>
    rw [step, World.submit] at hs
    obtain ⟨ring, hring, rfl⟩ := map_eq_some_iff.mp hs
    exact .submitted _ hring (by simp)
  | ring l =>
    obtain ⟨hl, hs⟩ := ite_none_left_eq_some.mp hs
    obtain ⟨ring, hring, rfl⟩ := map_eq_some_iff.mp hs
    exact .moved hl hring
  | dropFile i | dropClose i =>
    obtain ⟨f, hf, hstage, hopen, rfl⟩ := advance_eq_some hs
    exact .advanced hf hopen fun h => h.close (by simp [hstage])
  | close i =>
    obtain ⟨f, hf, hstage, hopen, rfl⟩ := advance_eq_some hs
    refine .advanced hf hopen fun h => ?_
    exact ⟨fun _ => h.unclosed (by simp [hstage]), by simp, fun _ => rfl⟩
  | pollClose i =>
    obtain ⟨u, hu, hs⟩ := bind_eq_some_iff.mp hs
    obtain ⟨f, hf, hstage, hopen, rfl⟩ := advance_eq_some hu
    obtain ⟨ring, hring, rfl⟩ := map_eq_some_iff.mp hs
    exact .closed hf hopen (fun h => h.close (by simp [hstage])) hring

/-- The driver is in a state that it can reach, and every file is fine. -/
structure Sound (w : World) : Prop where
  ring : UringDriver.process.Reachable w.ring
  length : w.files.length = w.ring.ops.length
  files : ∀ (i : ℕ) (f : File), w.files[i]? = some (some f) →
    FileFine (w.ring.opened i).isSome f

theorem Sound.ringStep {l : UringDriver.Label} (h : w.Sound)
    (hs : w.ring.step l = some ring) (i : ℕ) (f : File) (hf : w.files[i]? = some (some f)) :
    FileFine (ring.opened i).isSome f := by
  have hfine := h.files i f hf
  refine ⟨hfine.unclosed, hfine.closed, fun hstage => ?_⟩
  obtain ⟨fd, hfd⟩ := isSome_iff_exists.mp (hfine.seen hstage)
  have hk := UringDriver.World.kept_of_reachable h.ring
  rw [UringDriver.World.opened_of_steps hk (UringDriver.World.steps_of_step hs) hfd]
  rfl

theorem Sound.submit {file : Option File} (h : w.Sound) (n : ℕ)
    (hring : w.ring.step .insert = some ring) (hfile : ∀ f, file = some f → f = ⟨.open, 0⟩) :
    Sound ⟨ring, w.files ++ [file], n⟩ := by
  have hops : ring.ops = w.ring.ops ++ [.new] :=
    congrArg UringDriver.World.ops (some.inj hring).symm
  refine ⟨h.ring.step (e := .insert) hring, ?_, fun i f hf => ?_⟩
  · rw [hops, length_append, length_append, h.length]
    rfl
  · rcases of_snoc hf with hf | ⟨-, hnew⟩
    · exact h.ringStep hring i f hf
    · rw [hfile f hnew.symm]
      exact FileFine.new _

theorem Sound.set {g : File} (h : w.Sound) (hf : w.files[i]? = some (some f))
    (hopen : (w.ring.opened i).isSome) (hg : FileFine true f → FileFine true g) :
    Sound { w with files := w.files.set i (some g) } := by
  refine ⟨h.ring, by rw [length_set]; exact h.length, fun j q hj => ?_⟩
  rcases of_set hj with ⟨rfl, heq⟩ | ⟨-, hj⟩
  · have hfine := h.files i f hf
    rw [hopen] at hfine
    rw [some.inj heq, hopen]
    exact hg hfine
  · exact h.files j q hj

theorem sound_of_step (h : w.Sound) (hs : w.step l = some v) : v.Sound := by
  cases effect_of_step hs with
  | counted n => exact ⟨h.ring, h.length, h.files⟩
  | submitted n hring hfile => exact h.submit n hring hfile
  | moved hl hring =>
    have hlen := UringDriver.World.length_of_steps hl (UringDriver.World.steps_of_step hring)
    exact ⟨h.ring.step hring, h.length.trans hlen.symm, h.ringStep hring⟩
  | advanced hf hopen hg => exact h.set hf hopen hg
  | closed hf hopen hg hring => exact (h.set hf hopen hg).submit _ hring (by simp)

theorem sound_of_reachable (h : process.Reachable w) : w.Sound := by
  refine System.inv_of_reachable (I := Sound) ?_ (fun _ _ _ hI hs => sound_of_step hI hs) h
  exact ⟨System.reachable_init, rfl, by simp [process]⟩

/-! ## The futures that are dropped -/

theorem ring_of_step (hs : w.step l = some v) : v.ring = w.ring ∨
      ∃ l', w.ring.step l' = some v.ring ∧ ∀ i, l' = .drop i → l = .ring (.drop i) := by
  cases effect_of_step hs with
  | counted n | advanced hf hopen hg => exact .inl rfl
  | submitted n hring hfile | closed hf hopen hg hring =>
    exact .inr ⟨.insert, hring, by simp⟩
  | @moved l' ring hl hring => exact .inr ⟨l', hring, fun i hi => by rw [hi]⟩

theorem isOpen_of_step (h : w.Sound)
    (hs : w.step l = some v) (ho : w.ring.ops[i]? = some o) (hf : v.files[i]? = some (some f)) :
    ∃ q, w.files[i]? = some (some q) := by
  have hlt : i < w.files.length := h.length ▸ (lt_of_some ho)
  have hset : ∀ {j : ℕ} {p g : File}, w.files[j]? = some (some p) →
      (w.files.set j (some g))[i]? = some (some f) → ∃ q, w.files[i]? = some (some q) := by
    intro j p g hp hi
    rcases of_set hi with ⟨rfl, -⟩ | ⟨-, hi⟩
    · exact ⟨p, hp⟩
    · exact ⟨f, hi⟩
  cases effect_of_step hs with
  | counted n | moved hl hring => exact ⟨f, hf⟩
  | submitted n hring hfile => exact ⟨f, by rwa [getElem?_append_left hlt] at hf⟩
  | advanced hp hopen hg => exact hset hp hf
  | closed hp hopen hg hring =>
    rw [getElem?_append_left (by rwa [length_set])] at hf
    exact hset hp hf

/-- No future of an `OpenAt` is gone unless the `OpenAt` has failed. -/
def Unabandoned (w : World) : Prop :=
  ∀ (i : ℕ) (f : File) (o : UringDriver.Op), w.files[i]? = some (some f) →
    w.ring.ops[i]? = some o → o.caller = .gone → w.ring.failed i = true

theorem unabandoned_of_step (hw : w.Sound) (h : w.Unabandoned)
    (hl : w.abandons l = false) (hs : w.step l = some v) : v.Unabandoned := by
  intro i f o hf ho hc
  have hk := UringDriver.World.kept_of_reachable hw.ring
  have hfly := UringDriver.World.flying_of_reachable hw.ring
  rcases ring_of_step hs with hring | ⟨l', hring, hdrop⟩
  · rw [hring] at ho ⊢
    obtain ⟨q, hq⟩ := isOpen_of_step hw hs ho hf
    exact h i q o hq ho hc
  · have hsteps := UringDriver.World.steps_of_step hring
    -- an operation that fails has failed for good
    have hkeep : w.ring.failed i → v.ring.failed i := by
      intro hfail
      obtain ⟨r, hneg, hr⟩ := UringDriver.World.failed_iff.mp hfail
      exact UringDriver.World.failed_iff.mpr
        ⟨r, hneg, UringDriver.World.completed_of_steps hk hfly hsteps hr⟩
    rcases UringDriver.World.gone_of_steps hsteps ho hc with rfl | ⟨q, hq, hgone⟩
    · have hlabel := hdrop i rfl
      obtain ⟨q, hq⟩ := UringDriver.World.ops_of_drop hring
      obtain ⟨g, hg⟩ := isOpen_of_step hw hs hq hf
      subst hlabel
      refine hkeep ?_
      simpa [abandons, hg] using hl
    · obtain ⟨g, hg⟩ := isOpen_of_step hw hs hq hf
      exact hkeep (h i g q hg hq hgone)

theorem unabandoned_of_reachableUnder
    (h : process.ReachableUnder (fun w l => w.abandons l = false) w) : w.Unabandoned := by
  refine h.inv (I := Unabandoned) (fun i f o hf => ?_) fun _ _ _ hr hI hl hs => ?_
  · simp [process] at hf
  · exact unabandoned_of_step (sound_of_reachable hr) hI hl hs

/-! ## Every run -/

theorem accounted_of_completed (hw : w.Sound) (h : w.Unabandoned)
    (hf : w.files[i]? = some (some f)) (hfd : w.ring.Completed i fd) (hpos : 0 ≤ fd) :
    w.Accounted i f fd := by
  have hk := UringDriver.World.kept_of_reachable hw.ring
  have hfly := UringDriver.World.flying_of_reachable hw.ring
  have hlt : i < w.ring.ops.length := hw.length ▸ (lt_of_some hf)
  obtain ⟨o, ho⟩ : ∃ o, w.ring.ops[i]? = some o := ⟨_, getElem?_eq_getElem hlt⟩
  have hfine := hw.files i f hf
  by_cases hl : o.caller.isLive
  · refine .unobserved o ho hl (hfine.unclosed fun hc => ?_)
    -- what is closed was returned before
    obtain ⟨fd', hopen⟩ := isSome_iff_exists.mp (hfine.seen (by simp [hc]))
    obtain ⟨q, hq, hdone, -⟩ := UringDriver.World.opened_eq_some.mp hopen
    rw [some.inj (ho.symm.trans hq), hdone] at hl
    exact Bool.false_ne_true hl
  · cases hc : o.caller with
    | done =>
      obtain ⟨r, hr⟩ := ne_none_iff_exists'.mp ((hk.ops i o ho).ended hc)
      have hrfd : r = fd := UringDriver.World.Completed.unique hk hfly (.inl ⟨o, ho, hr⟩) hfd
      have hopen : w.ring.opened i = some fd :=
        UringDriver.World.opened_eq_some.mpr ⟨o, ho, hc, hrfd ▸ hr, hpos⟩
      by_cases hstage : f.stage = .closed
      · exact .closed hopen (hfine.closed hstage)
      · exact .owned hopen hstage (hfine.unclosed hstage)
    | gone =>
      obtain ⟨r, hneg, hr⟩ := UringDriver.World.failed_iff.mp (h i f o hf ho hc)
      rw [UringDriver.World.Completed.unique hk hfly hr hfd] at hneg
      exact absurd hneg (not_lt.mpr hpos)
    | _ => exact absurd (by rw [hc]; rfl) hl

theorem gone_of_run {ls : List Label} (hw : process.Reachable w)
    (ho : w.ring.ops[i]? = some o) (hc : o.caller = .gone) (hrun : process.run w ls = some v) :
    ∃ q, v.ring.ops[i]? = some q ∧ q.caller = .gone := by
  have hinv : process.Reachable v ∧ ∃ q, v.ring.ops[i]? = some q ∧ q.caller = .gone := by
    refine System.inv_of_any_run (S := process)
      (I := fun w => process.Reachable w ∧ ∃ q, w.ring.ops[i]? = some q ∧ q.caller = .gone)
      ?_ ⟨hw, o, ho, hc⟩ hrun
    rintro w l v ⟨hr, q, hq, hgone⟩ hs
    refine ⟨hr.step hs, ?_⟩
    rcases ring_of_step hs with hring | ⟨l', hring, -⟩
    · exact ⟨q, hring ▸ hq, hgone⟩
    · have hk := UringDriver.World.kept_of_reachable (sound_of_reachable hr).ring
      obtain ⟨p, hp, -, hcall⟩ := UringDriver.World.follows_of_steps hk
        (UringDriver.World.steps_of_step hring) hq
      exact ⟨p, hp, (hcall (by rw [hgone]; rfl)).trans hgone⟩
  exact hinv.2

theorem not_accounted_of_gone
    (ho : w.ring.ops[i]? = some o) (hc : o.caller = .gone) : ¬ w.Accounted i f fd := by
  have hnot : w.ring.opened i ≠ some fd := by
    intro hopen
    obtain ⟨q, hq, hdone, -⟩ := UringDriver.World.opened_eq_some.mp hopen
    rw [some.inj (hq.symm.trans ho), hc] at hdone
    cases hdone
  rintro (⟨q, hq, hl, -⟩ | ⟨hopen, -, -⟩ | ⟨hopen, -⟩)
  · rw [some.inj (hq.symm.trans ho), hc] at hl
    exact Bool.false_ne_true hl
  · exact hnot hopen
  · exact hnot hopen

theorem gone_of_abandons (hs : w.step l = some v) (hl : w.abandons l) :
    ∃ i f o, l = .ring (.drop i) ∧ v.files[i]? = some (some f) ∧ v.ring.failed i = false ∧
      v.ring.ops[i]? = some o ∧ o.caller = .gone := by
  rw [abandons.eq_def] at hl
  split at hl
  next i =>
    rw [Bool.and_eq_true, Bool.not_eq_true'] at hl
    obtain ⟨f, hf⟩ := isSome_iff_exists.mp hl.1
    obtain ⟨k, hk, rfl⟩ := bind_eq_some_iff.mp hf
    rw [step, if_neg (by simp)] at hs
    obtain ⟨ring, hring, rfl⟩ := map_eq_some_iff.mp hs
    obtain ⟨o, ho, hring⟩ := bind_eq_some_iff.mp hring
    obtain ⟨-, rfl⟩ := of_guard hring
    refine ⟨i, f, _, rfl, hk, ?_, set_self ho _, ?_⟩
    · rw [← hl.2]
      simp only [UringDriver.World.failed, UringDriver.World.dropFuture, set_self ho, ho, bind_some]
      split <;> simp
    · split <;> simp
  · cases hl

/-- The moves of the thread and of the kernel. -/
def Serving : Label → Prop
  | .ring l => l.isServing = true
  | _ => False

theorem leadsTo_ring {P : UringDriver.World → Prop}
    (h : UringDriver.process.LeadsTo (fun l => l.isServing = true) P w.ring) :
    process.LeadsTo Serving (fun u => u.files = w.files ∧ P u.ring) w := by
  obtain ⟨ls, r, hls, hrun, hP⟩ := h
  induction ls generalizing w with
  | nil =>
    cases hrun
    exact .now ⟨rfl, hP⟩
  | cons l ls ih =>
    obtain ⟨t, ht, hrun⟩ := System.run_cons_eq_some.mp hrun
    obtain ⟨hl, hls⟩ := forall_mem_cons.mp hls
    have hs : process.step w (.ring l) = some { w with ring := t } := by
      have hne : l ≠ .insert := fun he => by simp [he, UringDriver.Label.isServing] at hl
      simp only [process, step, if_neg hne]
      exact map_eq_some_iff.mpr ⟨t, ht, rfl⟩
    exact .of_step (e := .ring l) hl hs (ih (w := { w with ring := t }) hls hrun)

/-- The `OpenAt` of a future that is gone can still return a descriptor, unless the thread has
stopped and left the entry behind. -/
theorem leadsTo_opened (hr : process.Reachable w) (ho : w.ring.ops[i]? = some o)
    (hc : o.caller = .gone) (hf : w.files[i]? = some (some f)) (hfail : w.ring.failed i = false)
    (hleft : w.ring.driver = .stopped → .op i ∉ w.ring.pending.map .op ++ w.ring.sq) :
    process.LeadsTo Serving (fun u => ∃ f fd, u.files[i]? = some (some f) ∧
      u.ring.Completed i fd ∧ 0 ≤ fd ∧ ¬ u.Accounted i f fd) w := by
  have hring := (sound_of_reachable hr).ring
  have hdone : ∀ fd, 0 ≤ fd →
      UringDriver.process.LeadsTo (fun l => l.isServing = true) (·.Completed i fd) w.ring →
      process.LeadsTo Serving (fun u => ∃ f fd, u.files[i]? = some (some f) ∧
        u.ring.Completed i fd ∧ 0 ≤ fd ∧ ¬ u.Accounted i f fd) w := by
    intro fd hpos hlead
    obtain ⟨ls, u, hls, hrun, hfiles, hfd⟩ := leadsTo_ring hlead
    obtain ⟨q, hq, hgone⟩ := gone_of_run hr ho hc hrun
    exact ⟨ls, u, hls, hrun, f, fd, hfiles ▸ hf, hfd, hpos, not_accounted_of_gone hq hgone⟩
  rcases UringDriver.World.sent_of_reachable hring i o ho (by simp [hc]) with hway | ⟨r, hr'⟩
  · refine hdone 0 le_rfl ?_
    by_cases hstop : w.ring.driver = .stopped
    · refine UringDriver.World.leadsTo_of_kernel ?_
      have hnot := hleft hstop
      simp only [UringDriver.World.underway, hstop, UringDriver.Driver.taken, append_nil,
        mem_append] at hway hnot
      tauto
    · exact UringDriver.World.leadsTo_completed hstop hway
  · refine hdone r (not_lt.mp fun hneg => ?_) (.now hr')
    cases hfail.symm.trans (UringDriver.World.failed_iff.mpr ⟨r, hneg, hr'⟩)

/-- **Descriptors.**  No descriptor is closed twice.  As long as no future of `open` was dropped
after its first poll whose `OpenAt` had not failed, every descriptor sits behind a live future, has
a `UringFile`, or had one close issued.  After such a drop it is never accounted for, and the thread
and the kernel can go on to return one, unless the thread has stopped with the entry left behind. -/
theorem accounted_unless_abandoned (w : World) :
    (process.Reachable w → ∀ (i : ℕ) (f : File), w.files[i]? = some (some f) → f.closes ≤ 1) ∧
    (process.ReachableUnder (fun w l => w.abandons l = false) w →
      ∀ (i : ℕ) (f : File) (fd : ℤ), w.files[i]? = some (some f) → w.ring.Completed i fd →
        0 ≤ fd → w.Accounted i f fd) ∧
    (process.Reachable w → ∀ l v, w.step l = some v → w.abandons l = true →
      ∃ i, l = .ring (.drop i) ∧ (∀ ls u, process.run v ls = some u →
        ∀ (f : File) (fd : ℤ), u.files[i]? = some (some f) → ¬ u.Accounted i f fd) ∧
        ((v.ring.driver = .stopped → .op i ∉ v.ring.pending.map .op ++ v.ring.sq) →
          process.LeadsTo Serving (fun u => ∃ f fd, u.files[i]? = some (some f) ∧
            u.ring.Completed i fd ∧ 0 ≤ fd ∧ ¬ u.Accounted i f fd) v)) := by
  refine ⟨fun hr i f hf => ?_, fun h i f fd hf hfd hpos => ?_, fun hr l v hs hl => ?_⟩
  · have hfine := (sound_of_reachable hr).files i f hf
    by_cases hstage : f.stage = .closed
    · rw [hfine.closed hstage]
    · rw [hfine.unclosed hstage]
      exact Nat.zero_le 1
  · exact accounted_of_completed (sound_of_reachable h.reachable)
      (unabandoned_of_reachableUnder h) hf hfd hpos
  · obtain ⟨i, f, o, rfl, hf, hfail, ho, hc⟩ := gone_of_abandons hs hl
    have hv : process.Reachable v := hr.step (e := .ring (.drop i)) hs
    refine ⟨i, rfl, fun ls u hrun g fd _ => ?_, leadsTo_opened hv ho hc hf hfail⟩
    obtain ⟨q, hq, hgone⟩ := gone_of_run hv ho hc hrun
    exact not_accounted_of_gone hq hgone

theorem accounted_of_dropFile :
    ∃ w, process.run process.init ([.make, .open] ++ ([.push 0, .write 0, .drive, .drive, .drive,
        .drive, .accept, .accept, .complete (.op 0) 3, .collect, .drive, .drive,
        .poll 0 1] : List UringDriver.Label).map .ring ++ [.dropFile 0]) = some w ∧
      w.Accounted 0 ⟨.closed, 1⟩ 3 := by
  refine Exists.imp (fun w hrun => ⟨hrun, ?_⟩) ⟨_, rfl⟩
  have hall := (accounted_unless_abandoned w).2.1 ⟨_, hrun, by decide⟩ 0 ⟨.closed, 1⟩ 3
  cases hrun
  exact hall rfl (.inl ⟨_, rfl, rfl⟩) (by decide)

/-- A future of `open` is dropped while its `OpenAt` is in flight, which then returns `3`: nobody
has the descriptor, and nobody has closed it. -/
theorem exists_leaked :
    ∃ w, process.run process.init ([.make, .open] ++ ([.push 0, .write 0, .poll 0 1, .store 0,
        .recheck 0, .drop 0, .drive, .drive, .drive, .drive, .accept, .accept,
        .complete (.op 0) 3, .collect, .drive, .drive] : List UringDriver.Label).map .ring) =
        some w ∧ w.files[0]? = some (some ⟨.open, 0⟩) ∧ w.ring.Completed 0 3 ∧
      ¬ w.Accounted 0 ⟨.open, 0⟩ 3 :=
  ⟨_, rfl, rfl, .inl ⟨_, rfl, rfl⟩, not_accounted_of_gone rfl rfl⟩

end World

end Descriptors

end RustyTokio

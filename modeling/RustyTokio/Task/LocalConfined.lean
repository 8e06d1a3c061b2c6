import RustyTokio.Task.LocalSet

/-!
# Where the futures of a `LocalSet` are polled and dropped

The futures of a `LocalSet` are polled on the thread the set is bound to, always, and dropped there
when `run` drops them.
-/

namespace RustyTokio.LocalSet

open Transition RustyTokio.Task List Option

namespace World

/-- The reference that a step gives up: the thread and the task. -/
def releases (w : World) : Label → Option (ℕ × ℕ)
  | .dropWaker x a => some (x, a)
  | .dropHeld k => w.held[k]?
  | .call k _ =>
    match w.calls[k]? with
    | some ⟨x, a, kind, .leave⟩ => if kind = .wakeByRef then none else some (x, a)
    | _ => none
  | _ => none

/-- The condition: a reference is given up on the bound thread, or it is not the last, or its
future is gone. -/
def keeps (w : World) (l : Label) : Bool :=
  match w.releases l with
  | none => true
  | some (x, a) =>
    decide (w.bound = some x) || decide (2 ≤ w.refs a) ||
      !(w.tasks[a]?.elim false LocalTask.slot)

/-- **The futures are confined**: every poll and every drop of one was on the thread that the set
is bound to. -/
def Confined (w : World) : Prop :=
  (∀ p ∈ w.polls, w.bound = some p.1) ∧ ∀ p ∈ w.drops, w.bound = some p.1

/-! ## What a step can do -/

def RunsOn (w : World) (x : ℕ) : Prop := ∃ c ∈ w.calls, c.stage.isRun = true ∧ c.thread = x

/-- What a step can do to the binding, the polls and the drops. -/
structure Effect (w v : World) (l : Label) : Prop where
  bound : v.bound = w.bound ∨ (w.bound = none ∧ v.bound = some w.holder)
  driven : 0 < v.driving → (0 < w.driving ∨ v.bound = some w.holder) ∧ v.holder = w.holder
  runs : ∀ x, v.RunsOn x → w.RunsOn x ∨ (0 < w.driving ∧ x = w.holder)
  polled : ∀ p ∈ v.polls, p ∈ w.polls ∨ w.RunsOn p.1
  dropped : ∀ p ∈ v.drops, p ∈ w.drops ∨ w.RunsOn p.1 ∨
    (w.releases l = some p ∧ w.refs p.2 ≤ 1 ∧ w.tasks[p.2]?.elim false LocalTask.slot = true)

section Effect

variable {w v : World} {l : Label} {x k : ℕ} {c : Call} {stage : Stage}

theorem Effect.quiet (hb : v.bound = w.bound) (hh : v.holder = w.holder)
    (hd : v.driving = w.driving) (hr : ∀ x, v.RunsOn x → w.RunsOn x) (hp : v.polls = w.polls)
    (hdr : v.drops = w.drops) : Effect w v l where
  bound := .inl hb
  driven h := ⟨.inl (hd ▸ h), hh⟩
  runs x h := .inl (hr x h)
  polled _ h := .inl (hp ▸ h)
  dropped _ h := .inl (hdr ▸ h)

theorem runsOn_append (hv : v.calls = w.calls ++ [c])
    (hc : c.stage.isRun = false) (h : v.RunsOn x) : w.RunsOn x := by
  obtain ⟨d, hd, hrun, hx⟩ := h
  rw [hv] at hd
  rcases mem_append.mp hd with hd | hd
  · exact ⟨d, hd, hrun, hx⟩
  · rw [mem_singleton.mp hd, hc] at hrun
    cases hrun

theorem runsOn_eraseIdx (hv : v.calls = w.calls.eraseIdx k) (h : v.RunsOn x) : w.RunsOn x := by
  obtain ⟨d, hd, hrun, hx⟩ := h
  rw [hv] at hd
  exact ⟨d, mem_of_mem_eraseIdx hd, hrun, hx⟩

theorem runsOn_set (hk : w.calls[k]? = some c)
    (hv : v.calls = w.calls.set k { c with stage := stage })
    (hs : stage.isRun → c.stage.isRun) (h : v.RunsOn x) : w.RunsOn x := by
  obtain ⟨d, hd, hrun, hx⟩ := h
  rw [hv] at hd
  rcases Pool.mem_set_cases hk hd with rfl | ⟨j, -, hj⟩
  · exact ⟨c, mem_of_getElem? hk, hs hrun, hx⟩
  · exact ⟨d, mem_of_getElem? hj, hrun, hx⟩

theorem Effect.goto (hk : w.calls[k]? = some c)
    (hv : v.calls = w.calls.set k { c with stage := stage })
    (hs : stage.isRun → c.stage.isRun) (hb : v.bound = w.bound)
    (hh : v.holder = w.holder) (hd : v.driving = w.driving) (hp : v.polls = w.polls)
    (hdr : v.drops = w.drops) : Effect w v l :=
  .quiet hb hh hd (fun _ h => runsOn_set hk hv hs h) hp hdr

end Effect

/-! ## Giving up a reference -/

section Discard

variable {w : World} {x a : ℕ} {l : Label} {v : World}

theorem discard_cases (w : World) (x a : ℕ) :
    (w.discard x a = w ∧ (w.refs a ≠ 0 ∨ w.tasks[a]?.elim false LocalTask.slot = false)) ∨
      ∃ t, w.tasks[a]? = some t ∧ w.refs a = 0 ∧ t.slot ∧ w.discard x a =
        { w.setTask a { t with slot := false } with drops := w.drops ++ [(x, a)] } := by
  unfold discard
  split
  next hnone => exact .inl ⟨rfl, .inr (by rw [hnone]; rfl)⟩
  next t ht =>
    split <;> rename_i hcond
    · simp only [Bool.and_eq_true, decide_eq_true_eq] at hcond
      exact .inr ⟨t, ht, hcond.1, hcond.2, rfl⟩
    · refine .inl ⟨rfl, ?_⟩
      by_cases hrefs : w.refs a = 0
      · refine .inr ?_
        rw [ht]
        simpa [hrefs] using hcond
      · exact .inl hrefs

structure GivenUp (w u : World) (a : ℕ) : Prop where
  refs : w.refs a = u.refs a + 1
  slot : u.tasks[a]?.elim false LocalTask.slot = w.tasks[a]?.elim false LocalTask.slot
  bound : u.bound = w.bound
  holder : u.holder = w.holder
  driving : u.driving = w.driving
  runs : ∀ x, u.RunsOn x → w.RunsOn x
  polls : u.polls = w.polls
  drops : u.drops = w.drops

theorem GivenUp.effect {u : World} (h : GivenUp w u a)
    (hl : w.releases l = some (x, a)) : Effect w (u.discard x a) l := by
  rcases discard_cases u x a with ⟨heq, -⟩ | ⟨t, ht, hzero, hfull, heq⟩ <;> rw [heq]
  · exact .quiet h.bound h.holder h.driving h.runs h.polls h.drops
  · refine ⟨.inl h.bound, fun hd => ⟨.inl (h.driving ▸ hd), h.holder⟩,
      fun y hy => .inl (h.runs y hy), fun p hp => .inl (h.polls ▸ hp), ?_⟩
    intro p hmem
    change p ∈ u.drops ++ [(x, a)] at hmem
    rcases mem_append.mp hmem with hmem | hmem
    · exact .inl (h.drops ▸ hmem)
    · obtain rfl := mem_singleton.mp hmem
      have hlast : w.refs a ≤ 1 := by
        have := h.refs
        omega
      refine .inr (.inr ⟨hl, hlast, ?_⟩)
      rw [← h.slot, ht]
      exact hfull

theorem refs_eraseCall {k : ℕ} {c : Call} (hk : w.calls[k]? = some c) :
    World.refs { w with calls := w.calls.eraseIdx k } c.task + 1 = w.refs c.task := by
  have hcount := Pool.countP_eraseIdx_add (fun d : Call => decide (d.task = c.task)) hk
  simp only [decide_true, Bool.toNat_true] at hcount
  simp only [refs]
  omega

theorem exists_givenUp (hrel : w.releases l = some (x, a))
    (hs : w.step l = some v) : ∃ u : World, v = u.discard x a ∧ GivenUp w u a := by
  cases l with
  | dropWaker y b =>
    cases hrel
    obtain ⟨t, ht, hpos, rfl⟩ := bind_guard_eq_some.mp hs
    have hlt := lt_of_some ht
    refine ⟨_, rfl, ?_, ?_, rfl, rfl, rfl, fun _ h => h, rfl, rfl⟩
    · simp only [refs, setTask, ht, getElem?_set_self hlt, elim_some]
      omega
    · simp only [setTask, ht, getElem?_set_self hlt, elim_some]
  | dropHeld k =>
    rw [releases] at hrel
    simp only [step, hrel, map_some] at hs
    refine ⟨_, (some.inj hs).symm, ?_, rfl, rfl, rfl, rfl, fun _ h => h, rfl, rfl⟩
    have hcount := Pool.countP_eraseIdx_add (fun p : ℕ × ℕ => decide (p.2 = a)) hrel
    simp only [decide_true, Bool.toNat_true] at hcount
    simp only [refs]
    omega
  | call k pending =>
    simp only [releases] at hrel
    split at hrel
    next y b kind hk =>
      split at hrel
      · cases hrel
      next hkind =>
        cases hrel
        simp only [step, hk, bind_some] at hs
        obtain ⟨t, ht, rfl⟩ := map_eq_some_iff.mp hs
        refine ⟨{ w with calls := w.calls.eraseIdx k }, ?_, (refs_eraseCall hk).symm, rfl, rfl,
          rfl, rfl, fun _ h => runsOn_eraseIdx rfl h, rfl, rfl⟩
        cases kind with
        | wakeByRef => exact absurd rfl hkind
        | _ => rfl
    · cases hrel
  | _ => simp [releases] at hrel

theorem teardown_cases (w : World) (x : ℕ) : w.teardown x = w ∨ w.teardown x =
      { w with queue := [], held := w.held ++ w.queue.map fun a => (x, a) } := by
  unfold teardown
  split
  · exact .inr rfl
  · exact .inl rfl

theorem Effect.teardown (h : Effect w v l) (x : ℕ) : Effect w (v.teardown x) l := by
  rcases teardown_cases v x with heq | heq <;> rw [heq]
  · exact h
  · exact ⟨h.bound, h.driven, h.runs, h.polled, h.dropped⟩

end Discard

/-! ## The steps, one after the other -/

section Steps

variable {w v : World} {k : ℕ} {c : Call} {t : LocalTask} {l : Label} {stage : RunStage}

theorem effect_run {stage' : Stage} (hk : w.calls[k]? = some c)
    (hc : c.stage = .run stage) (hv : v.calls = w.calls.set k { c with stage := stage' })
    (hb : v.bound = w.bound) (hh : v.holder = w.holder) (hd : v.driving = w.driving)
    (hp : ∀ p ∈ v.polls, p ∈ w.polls ∨ p = (c.thread, c.task))
    (hdr : ∀ p ∈ v.drops, p ∈ w.drops ∨ p = (c.thread, c.task)) : Effect w v l := by
  have hrun : c.stage.isRun := by
    rw [hc]
    rfl
  have hon : w.RunsOn c.thread := ⟨c, mem_of_getElem? hk, hrun, rfl⟩
  refine ⟨.inl hb, fun h => ⟨.inl (hd ▸ h), hh⟩,
    fun x h => .inl (runsOn_set hk hv (fun _ => hrun) h), ?_, ?_⟩ <;> intro p hmem
  · rcases hp p hmem with hmem | rfl
    · exact .inl hmem
    · exact .inr hon
  · rcases hdr p hmem with hmem | rfl
    · exact .inl hmem
    · exact .inr (.inl hon)

theorem mem_drops_takeFuture {p : ℕ × ℕ} (h : p ∈ (w.takeFuture c t).drops) :
    p ∈ w.drops ∨ p = (c.thread, c.task) := by
  unfold takeFuture at h
  split at h
  · simpa using h
  · exact .inl h

theorem takeFuture_frame (w : World) (c : Call) (t : LocalTask) :
    (w.takeFuture c t).calls = w.calls ∧ (w.takeFuture c t).bound = w.bound ∧
      (w.takeFuture c t).holder = w.holder ∧ (w.takeFuture c t).driving = w.driving ∧
      (w.takeFuture c t).polls = w.polls := by
  unfold takeFuture
  split <;> exact ⟨rfl, rfl, rfl, rfl, rfl⟩

theorem effect_runStep (pending : Bool) (hk : w.calls[k]? = some c) (hc : c.stage = .run stage) :
    Effect w (w.runStep k c t pending stage) l := by
  have old : ∀ {p : ℕ × ℕ} {ps : List (ℕ × ℕ)}, p ∈ ps → p ∈ ps ∨ p = (c.thread, c.task) :=
    fun h => .inl h
  obtain ⟨hcalls, hbound, hholder, hdriving, hpolls⟩ := takeFuture_frame w c t
  cases stage with
  | beginLoad | isAborted | putBack | endPoll | endOr boxed | endAnd boxed =>
    exact effect_run hk hc rfl rfl rfl rfl (fun _ => old) fun _ => old
  | beginCas state | takeSlot =>
    simp only [runStep]
    split <;> exact effect_run hk hc rfl rfl rfl rfl (fun _ => old) fun _ => old
  | abortedTake | abortTake =>
    refine effect_run hk hc (congrArg (List.set · k _) hcalls) hbound hholder hdriving ?_ ?_
    · intro p hp
      exact .inl (hpolls ▸ hp)
    · intro p hp
      exact mem_drops_takeFuture hp
  | poll =>
    refine effect_run hk hc rfl rfl rfl rfl (fun p hp => ?_) fun _ => old
    change p ∈ w.polls ++ [(c.thread, c.task)] at hp
    simpa using hp
  | dropFuture =>
    refine effect_run hk hc rfl rfl rfl rfl (fun _ => old) fun p hp => ?_
    change p ∈ w.drops ++ [(c.thread, c.task)] at hp
    simpa using hp

theorem effect_callStep (pending : Bool) (hk : w.calls[k]? = some c)
    (hs : w.step (.call k pending) = some (w.callStep k c t pending)) :
    Effect w (w.callStep k c t pending) (.call k pending) := by
  obtain ⟨x, a, kind, stage⟩ := c
  cases stage with
  | abortOr | upgrade =>
    refine .goto hk rfl ?_ rfl rfl rfl rfl rfl
    split <;> simp [Stage.isRun]
  | signal =>
    simp only [callStep]
    split
    · exact .goto hk rfl (by simp [Stage.isRun]) rfl rfl rfl rfl rfl
    · refine .goto hk rfl ?_ rfl rfl rfl rfl rfl
      split <;> simp [Stage.isRun]
  | push => exact .goto hk rfl (by simp [Stage.isRun]) rfl rfl rfl rfl rfl
  | release =>
    refine Effect.teardown ?_ x
    exact .goto hk rfl (by simp [Stage.isRun]) rfl rfl rfl rfl rfl
  | leave =>
    obtain rfl | hkind := eq_or_ne kind .wakeByRef
    · exact .quiet rfl rfl rfl (fun _ h => runsOn_eraseIdx rfl h) rfl rfl
    · have hrel : w.releases (.call k pending) = some (x, a) := by
        simp only [releases, hk, if_neg hkind]
      obtain ⟨u, hu, hup⟩ := exists_givenUp hrel hs
      rw [hu]
      exact hup.effect hrel
  | run stage => exact effect_runStep pending hk rfl

theorem bindOrCheckThread_eq_some (h : w.bindOrCheckThread = some v) :
    v = { w with bound := some w.holder } ∧ (w.bound = none ∨ w.bound = some w.holder) := by
  unfold bindOrCheckThread at h
  split at h
  next owner hb =>
    split at h
    next howner =>
      rw [howner] at hb
      refine ⟨?_, .inr hb⟩
      rw [← some.inj h, ← hb]
    · cases h
  next hb => exact ⟨(some.inj h).symm, .inl hb⟩

theorem effect_bind {u : World} (hu : w.bindOrCheckThread = some u)
    (hb : v.bound = u.bound) (hh : v.holder = u.holder) (hc : v.calls = u.calls)
    (hp : v.polls = u.polls) (hdr : v.drops = u.drops) : Effect w v l := by
  obtain ⟨rfl, hw⟩ := bindOrCheckThread_eq_some hu
  refine ⟨?_, fun _ => ⟨.inr hb, hh⟩, ?_, fun p h => .inl (hp ▸ h), fun p h => .inl (hdr ▸ h)⟩
  · rcases hw with hw | hw
    · exact .inr ⟨hw, hb⟩
    · exact .inl (hb.trans hw.symm)
  · rintro x ⟨d, hd, hrun⟩
    rw [hc] at hd
    exact .inl ⟨d, hd, hrun⟩

theorem effect_useWaker {x a : ℕ} {kind : Kind} (h : w.useWaker x a kind = some v) :
    Effect w v l := by
  obtain ⟨t, -, -, rfl⟩ := bind_guard_eq_some.mp h
  exact .quiet rfl rfl rfl (fun _ h => runsOn_append rfl rfl h) rfl rfl

theorem effect_of_step (h : w.step l = some v) : Effect w v l := by
  cases l with
  | moveSet x =>
    simp only [step, ite_none_right_eq_some, Bool.and_eq_true, decide_eq_true_eq] at h
    obtain ⟨⟨-, hdriving⟩, h⟩ := h
    cases h
    refine ⟨.inl rfl, fun hd => ?_, fun x h => .inl h, fun p h => .inl h, fun p h => .inl h⟩
    simp [hdriving] at hd
  | dropSet | dropParker x =>
    obtain ⟨-, rfl⟩ := of_guard h
    refine Effect.teardown ?_ _
    exact .quiet rfl rfl rfl (fun _ h => h) rfl rfl
  | spawnLocal | runUntil =>
    obtain ⟨-, h⟩ := ite_none_right_eq_some.mp h
    obtain ⟨u, hu, rfl⟩ := map_eq_some_iff.mp h
    exact effect_bind hu rfl rfl rfl rfl rfl
  | runNext =>
    simp only [step] at h
    split at h
    · cases h
    · obtain ⟨hdriving, rfl⟩ := of_guard h
      refine ⟨.inl rfl, fun hd => ⟨.inl hd, rfl⟩, ?_, fun p h => .inl h, fun p h => .inl h⟩
      rintro x ⟨d, hd, hrun, rfl⟩
      rcases mem_append.mp hd with hd | hd
      · exact .inl ⟨d, hd, hrun, rfl⟩
      · rw [mem_singleton.mp hd]
        exact .inr ⟨hdriving, rfl⟩
  | returns =>
    obtain ⟨-, rfl⟩ := of_guard h
    refine ⟨.inl rfl, fun hd => ⟨.inl ?_, rfl⟩, fun x h => .inl h, fun p h => .inl h,
      fun p h => .inl h⟩
    exact lt_of_lt_of_le hd (Nat.sub_le _ _)
  | cloneWaker a =>
    obtain ⟨t, -, -, rfl⟩ := bind_guard_eq_some.mp h
    exact .quiet rfl rfl rfl (fun _ h => h) rfl rfl
  | dropWaker x a =>
    obtain ⟨u, rfl, hup⟩ := exists_givenUp rfl h
    exact hup.effect rfl
  | wake x a | wakeByRef x a => exact effect_useWaker h
  | abort x a =>
    obtain ⟨-, h⟩ := ite_none_right_eq_some.mp h
    split at h <;> cases h
    · exact .quiet rfl rfl rfl (fun _ h => h) rfl rfl
    · exact .quiet rfl rfl rfl (fun _ h => runsOn_append rfl rfl h) rfl rfl
  | call k pending =>
    obtain ⟨c, hk, hc⟩ := bind_eq_some_iff.mp h
    obtain ⟨t, -, rfl⟩ := map_eq_some_iff.mp hc
    exact effect_callStep pending hk h
  | dropHeld k =>
    obtain ⟨p, hk, -⟩ := map_eq_some_iff.mp h
    have hrel : w.releases (.dropHeld k) = some (p.1, p.2) := hk
    obtain ⟨u, rfl, hup⟩ := exists_givenUp hrel h
    exact hup.effect hrel

end Steps

/-! ## Along a run -/

/-- Polls and runs are on the thread that the set is bound to. -/
structure Kept (w : World) : Prop where
  driven : 0 < w.driving → w.bound = some w.holder
  runs : ∀ x, w.RunsOn x → w.bound = some x
  polled : ∀ p ∈ w.polls, w.bound = some p.1

theorem Effect.bound_of_bound {w v : World} {l : Label} (h : Effect w v l) {x : ℕ}
    (hx : w.bound = some x) : v.bound = some x := by
  rcases h.bound with hb | ⟨hb, -⟩
  · rw [hb, hx]
  · rw [hb] at hx
    cases hx

theorem kept_step {w v : World} {l : Label} (h : w.Kept) (he : Effect w v l) : v.Kept := by
  refine ⟨?_, ?_, ?_⟩
  · intro hd
    obtain ⟨hor, hh⟩ := he.driven hd
    rw [hh]
    rcases hor with hpos | hb
    · exact he.bound_of_bound (h.driven hpos)
    · exact hb
  · intro x hx
    rcases he.runs x hx with hx | ⟨hpos, rfl⟩
    · exact he.bound_of_bound (h.runs x hx)
    · exact he.bound_of_bound (h.driven hpos)
  · intro p hp
    rcases he.polled p hp with hp | hp
    · exact he.bound_of_bound (h.polled p hp)
    · exact he.bound_of_bound (h.runs p.1 hp)

theorem kept_of_reachable {w : World} (h : localSet.Reachable w) : w.Kept := by
  refine System.inv_of_reachable (I := Kept) ⟨?_, ?_, ?_⟩
    (fun _ _ _ hI hs => kept_step hI (effect_of_step hs)) h
  · intro hd
    simp [localSet] at hd
  · rintro x ⟨c, hc, -⟩
    simp [localSet] at hc
  · intro p hp
    simp [localSet] at hp

theorem drops_step {w v : World} {l : Label} (h : w.Kept)
    (hdrops : ∀ p ∈ w.drops, w.bound = some p.1) (hl : w.keeps l) (he : Effect w v l) :
    ∀ p ∈ v.drops, v.bound = some p.1 := by
  intro p hp
  rcases he.dropped p hp with hp | hp | ⟨hrel, hrefs, hslot⟩
  · exact he.bound_of_bound (hdrops p hp)
  · exact he.bound_of_bound (h.runs p.1 hp)
  · -- the last reference, and the future is there
    obtain ⟨x, a⟩ := p
    change w.refs a ≤ 1 at hrefs
    change w.tasks[a]?.elim false LocalTask.slot at hslot
    simp only [keeps, hrel, hslot, Bool.or_eq_true, decide_eq_true_eq, Bool.not_true,
      Bool.false_eq_true, or_false] at hl
    rcases hl with hl | hl
    · exact he.bound_of_bound hl
    · omega

theorem not_confined_of_step {w v : World} {l : Label} (hl : w.keeps l = false)
    (hs : w.step l = some v) : ¬ v.Confined := by
  rintro ⟨-, hdrops⟩
  unfold keeps at hl
  split at hl
  · cases hl
  next x a hrel =>
    simp only [Bool.or_eq_false_iff, decide_eq_false_iff_not, Bool.not_eq_false'] at hl
    obtain ⟨⟨hb, hrefs⟩, hslot⟩ := hl
    obtain ⟨u, rfl, hup⟩ := exists_givenUp hrel hs
    have hcount := hup.refs
    rcases discard_cases u x a with ⟨-, hzero | hempty⟩ | ⟨t, -, -, -, heq⟩
    · omega
    · rw [hup.slot, hslot] at hempty
      cases hempty
    · rw [heq] at hdrops
      have hx : u.bound = some x := hdrops (x, a) (mem_append_right _ mem_cons_self)
      exact hb (hup.bound ▸ hx)

/-- **Where the futures are polled and dropped.**  They are polled on the bound thread.  They are
dropped there as long as other threads give up only references to tasks that have another one, or
no future any more; a step that breaks this drops a future on another thread. -/
theorem confined_if_kept (w : World) : (localSet.Reachable w → ∀ p ∈ w.polls, w.bound = some p.1) ∧
      (localSet.ReachableUnder (fun w l => w.keeps l = true) w → w.Confined) ∧
      ∀ l v, localSet.Reachable w → w.keeps l = false → w.step l = some v → ¬ v.Confined := by
  refine ⟨fun h => (kept_of_reachable h).polled, ?_, ?_⟩
  · intro h
    refine ⟨(kept_of_reachable h.reachable).polled, ?_⟩
    exact h.inv (by simp [localSet]) fun _ _ _ hr hI hl hs =>
      drops_step (kept_of_reachable hr) hI hl (effect_of_step hs)
  · intro l v _ hl hs
    exact not_confined_of_step hl hs

def waiting : List Label :=
  [.spawnLocal, .runUntil, .runNext, .call 0 true, .call 0 true, .call 0 true, .call 0 true,
    .cloneWaker 0, .call 0 true, .call 0 true, .call 0 true, .call 0 true]

theorem confined_after_wake : ∃ w, localSet.ReachableUnder (fun w l => w.keeps l = true) w ∧
    w.polls = [(0, 0), (0, 0)] ∧ w.drops = [(0, 0)] ∧ w.Confined := by
  have hrun : (localSet.run localSet.init
      (waiting ++ [.wake 1 0, .call 0 true, .call 0 true, .call 0 true, .call 0 true,
        .call 0 true, .runNext, .call 0 true, .call 0 true, .call 0 true, .call 0 true,
        .call 0 false, .call 0 true, .call 0 true, .call 0 true, .call 0 true])).map
      (fun w => (w.polls, w.drops)) = some ([(0, 0), (0, 0)], [(0, 0)]) := by decide
  obtain ⟨w, hrun, heq⟩ := map_eq_some_iff.mp hrun
  obtain ⟨hpolls, hdrops⟩ := Prod.mk.inj heq
  have hreach : localSet.ReachableUnder (fun w l => w.keeps l) w :=
    ⟨_, hrun, by decide⟩
  exact ⟨w, hreach, hpolls, hdrops, (confined_if_kept w).2.1 hreach⟩

theorem not_confined_of_run {ls : List Label} {a : ℕ}
    (h : (localSet.run localSet.init ls).map (fun w => (w.bound, w.drops)) =
      some (some 0, [(1, a)])) :
    ∃ w, localSet.run localSet.init ls = some w ∧ w.bound = some 0 ∧ w.drops = [(1, a)] ∧
      ¬ w.Confined := by
  obtain ⟨w, hrun, heq⟩ := map_eq_some_iff.mp h
  obtain ⟨hb, hd⟩ := Prod.mk.inj heq
  refine ⟨w, hrun, hb, hd, ?_⟩
  rintro ⟨-, hdrops⟩
  have h1 := hdrops (1, a) (hd ▸ mem_cons_self)
  rw [hb] at h1
  cases h1

/-- Four ways in which thread 1 drops the future of a set that is bound to thread 0: it has the
only waker and drops it; it is in `abort` when the last waker goes; it drops the set; it is in
`wake` when the set is dropped, and drops the queue. -/
theorem exists_not_confined :
    (∃ w, localSet.run localSet.init (waiting ++ [.dropWaker 1 0]) = some w ∧
      w.bound = some 0 ∧ w.drops = [(1, 0)] ∧ ¬ w.Confined) ∧
    (∃ w, localSet.run localSet.init (waiting ++ [.returns, .dropParker 0, .dropSet, .abort 1 0,
        .dropWaker 0 0, .call 0 true, .call 0 true, .call 0 true, .call 0 true]) = some w ∧
      w.bound = some 0 ∧ w.drops = [(1, 0)] ∧ ¬ w.Confined) ∧
    (∃ w, localSet.run localSet.init [.spawnLocal, .moveSet 1, .dropSet, .dropHeld 0] = some w ∧
      w.bound = some 0 ∧ w.drops = [(1, 0)] ∧ ¬ w.Confined) ∧
    ∃ w, localSet.run localSet.init (waiting ++ [.spawnLocal, .returns, .dropParker 0, .wake 1 0,
        .call 0 true, .call 0 true, .dropSet, .call 0 true, .call 0 true, .dropHeld 0]) = some w ∧
      w.bound = some 0 ∧ w.drops = [(1, 1)] ∧ ¬ w.Confined :=
  ⟨not_confined_of_run (by decide), not_confined_of_run (by decide),
    not_confined_of_run (by decide), not_confined_of_run (by decide)⟩

end World
end RustyTokio.LocalSet

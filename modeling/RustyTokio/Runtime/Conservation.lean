import RustyTokio.Runtime.CrewSound

/-!
# No task is lost and none is doubled

A task that was scheduled is in the injector, in one of the deques, or with a worker.  The argument
is one equation for every weight on tasks: what is queued, what retiring workers have in hand and
what was handed out weigh together as much as all that was ever scheduled (`weigh_of_reachable`).
-/

namespace RustyTokio.Runtime

open Transition List Pool

namespace Crew

/-! ## The weight of all tasks -/

def weigh (g : ℕ → ℕ) (c : Crew) : ℕ :=
  c.world.weigh g + Pool.total (Pc.hand g) c.pcs + Pool.total (fun p => g p.2) c.handed

variable {g : ℕ → ℕ} {pc : Pc} {task : ℕ} {c : Crew} {i n : ℕ}

theorem hand_of_moves {t : Thread} {pc' : Pc} (h : Moves t pc pc') :
    pc.hand g = 0 ∧ pc'.hand g = 0 := by
  cases h <;> exact ⟨rfl, rfl⟩

theorem total_hand_set (pc' : Pc)
    (hpc : c.pcs[i]? = some pc) (h : pc.hand g = 0) (h' : pc'.hand g = 0) :
    Pool.total (Pc.hand g) (c.pcs.set i pc') = Pool.total (Pc.hand g) c.pcs := by
  have hset := total_set (f := Pc.hand g) pc' hpc
  omega

theorem weigh_step {c' : Crew} {l : Label} (g : ℕ → ℕ) (h : c.Sound n) (hs : c.Steps l c') :
    c'.weigh g + Pool.total g (List.range c.issued) =
      c.weigh g + Pool.total g (List.range c'.issued) := by
  cases hs with
  | startThread =>
    simp only [weigh, total_append]
    exact rfl
  | @schedule i t pc w ht hpc hcalls hsch =>
    have hw := weigh_schedule (g := g)
      (fun d hd => h.lt_of_localQueue (mem_of_getElem? ht) hd) hsch
    have hrange : Pool.total g (List.range (c.issued + 1)) =
        Pool.total g (List.range c.issued) + g c.issued := by
      rw [range_succ, total_append]
    simp only [weigh]
    omega
  | @fetch i batch t pc r d ss task w ht hpc hin hhand hd hf =>
    have hw := weigh_of_fetches (g := g) (h.lt_of_localQueue (mem_of_getElem? ht) hd) hf
    simp only [weigh, hand, total_hand_set (.running task 0) hpc (hhand g) rfl, total_append]
    omega
  | move ht hpc hm =>
    obtain ⟨h0, h0'⟩ := hand_of_moves (g := g) hm
    simp only [weigh, move, total_hand_set _ hpc h0 h0']
  | @unqueue i batch t d task rest ht hpc hd hdeque =>
    have hw := weigh_setDeque (g := g) (h.lt_of_localQueue (mem_of_getElem? ht) hd) rest
    have hpcs := total_set (f := Pc.hand g) (.requeue task) hpc
    rw [hdeque, total_cons] at hw
    change _ + 0 = _ + g task at hpcs
    simp only [weigh]
    omega
  | exit ht hpc hd hnil =>
    simp only [weigh, total_hand_set .gone hpc rfl rfl]
    exact rfl
  | @requeue i batch t task r sh ht hpc hr =>
    have hw := weigh_setInjector (g := g) hr (sh.injector ++ [task])
    have hpcs := total_set (f := Pc.hand g) .drain hpc
    rw [total_append] at hw
    change _ + g task = _ + 0 at hpcs
    simp only [weigh]
    omega
  | @nest i t task k ht hpc hret =>
    simp only [weigh, move, total_hand_set (.running task (k + 1)) hpc rfl rfl]
  | @replace i t task k r idx ht hpc hret hcur hidx hb =>
    have hdeques := total_append (f := Pool.total g) c.world.deques []
    have hpcs := total_hand_set (g := g) (.running task (k + 1)) hpc rfl rfl
    simp only [weigh, World.weigh, total_append, hpcs]
    exact rfl
  | @unblock i t task k ht hpc =>
    simp only [weigh, move, total_hand_set (.running task k) hpc rfl rfl]

theorem weigh_of_reachable (g : ℕ → ℕ) (h : (crew n).Reachable c) :
    c.weigh g = Pool.total g (List.range c.issued) := by
  refine h.inv (I := fun c => c.weigh g = Pool.total g (List.range c.issued)) ?_ ?_
  · change Pool.total _ [_] + Pool.total _ (List.replicate n []) +
      Pool.total _ (Pc.outside :: List.replicate n Pc.next) + 0 = 0
    simp only [total_cons, total_replicate]
    change 0 + 0 + n * 0 + (0 + n * 0) + 0 = 0
    omega
  · intro c l c' hr hw hs
    have hstep := weigh_step g (sound_of_reachable hr) (steps_of_step hs)
    omega

/-! ## The places of a task -/

inductive Place where
  | injector
  | deque (d : ℕ)
  | drained (i : ℕ)
  | worker (i : ℕ)
  deriving DecidableEq

def places (c : Crew) (task : ℕ) : List Place :=
  List.replicate ((c.world.contents (.injector 0)).count task) .injector ++
    (c.world.deques.zipIdx.flatMap fun p => List.replicate (p.1.count task) (.deque p.2)) ++
    (c.pcs.zipIdx.flatMap fun p => if p.1 = .requeue task then [.drained p.2] else []) ++
    (c.handed.filter fun p => p.2 = task).map fun p => .worker p.1

def mark (task a : ℕ) : ℕ := if a = task then 1 else 0

theorem total_mark (task : ℕ) (l : List ℕ) : Pool.total (mark task) l = l.count task := by
  induction l with
  | nil => rfl
  | cons a l ih =>
    rw [total_cons, count_cons, ih, mark, add_comm]
    simp only [beq_iff_eq]

theorem length_flatMap_zipIdx {α β : Type*} {f : α × ℕ → List β} {g : α → ℕ}
    (hf : ∀ p, (f p).length = g p.1) (l : List α) (k : ℕ) :
    ((l.zipIdx k).flatMap f).length = Pool.total g l := by
  induction l generalizing k with
  | nil => rfl
  | cons a l ih =>
    rw [zipIdx_cons, flatMap_cons, length_append, hf, ih, total_cons]

theorem length_filter_handed (task : ℕ) (l : List (ℕ × ℕ)) :
    (l.filter fun p => p.2 = task).length = Pool.total (fun p => mark task p.2) l := by
  induction l with
  | nil => rfl
  | cons p l ih =>
    rw [total_cons, mark]
    by_cases hp : p.2 = task
    · rw [filter_cons_of_pos (by simpa using hp), length_cons, if_pos hp, ih]
      omega
    · rw [filter_cons_of_neg (by simpa using hp), if_neg hp, ih]
      omega

theorem length_places (h : c.Sound n) (task : ℕ) :
    (c.places task).length = c.weigh (mark task) := by
  obtain ⟨injector, hr⟩ := h.runtimes
  have hinj : (c.world.contents (.injector 0)).count task =
      Pool.total (fun sh => Pool.total (mark task) sh.tasks) c.world.runtimes := by
    simp only [World.contents, hr, getElem?_cons_zero, total_cons, Shared.tasks, total_mark]
    rfl
  have hdeques := length_flatMap_zipIdx (g := Pool.total (mark task))
    (f := fun p : List ℕ × ℕ => List.replicate (p.1.count task) (Place.deque p.2))
    (fun p => by rw [length_replicate, total_mark]) c.world.deques 0
  have hpcs := length_flatMap_zipIdx (g := Pc.hand (mark task))
    (f := fun p : Pc × ℕ => if p.1 = .requeue task then [Place.drained p.2] else [])
    (fun p => by
      obtain ⟨pc, i⟩ := p
      cases pc with
      | requeue a =>
        simp only [Pc.requeue.injEq, Pc.hand, mark]
        split <;> rfl
      | _ => rfl) c.pcs 0
  have hhanded := length_filter_handed task c.handed
  simp only [places, length_append, length_replicate, length_map, hinj, hdeques, hpcs, hhanded]
  rfl

theorem exists_schedule (h : c.Sound n) (hpc : c.pcs[i]? = some pc) (hcalls : pc.calls) :
    ∃ c', c.step (.schedule i) = some c' := by
  obtain ⟨injector, hr⟩ := h.runtimes
  have hlt : i < c.world.threads.length :=
    h.posted.length_eq.symm ▸ (lt_of_some hpc)
  obtain ⟨t, ht⟩ : ∃ t, c.world.threads[i]? = some t := ⟨_, getElem?_eq_getElem hlt⟩
  obtain ⟨w, hw⟩ : ∃ w, Runtime.schedule c.world t 0 c.issued = some w := by
    cases related_get h.posted ht hpc with
    | plain => exact ⟨_, schedule_plain hr _⟩
    | member | gone => exact ⟨_, schedule_member hr _ _ _ _ _⟩
  refine ⟨{ c with world := w, issued := c.issued + 1 }, ?_⟩
  simp only [step, Label.actor, ht, hpc, threadStep, if_pos hcalls, hw, Option.map_some]

theorem length_places_of_reachable (h : (crew n).Reachable c) (task : ℕ) :
    (c.places task).length = if task < c.issued then 1 else 0 := by
  rw [length_places (sound_of_reachable h), weigh_of_reachable _ h, total_mark, nodup_range.count]
  simp only [mem_range]

theorem requeue_of_drained (h : Place.drained i ∈ c.places task) :
    c.pcs[i]? = some (.requeue task) := by
  simp only [places, mem_append, mem_replicate, mem_flatMap, mem_map,
    reduceCtorEq, and_false, or_false, false_or, exists_false] at h
  obtain ⟨⟨pc, j⟩, hj, hmem⟩ := h
  split at hmem
  next hpc =>
    obtain rfl : i = j := by simpa using hmem
    rw [mem_zipIdx_iff_getElem?] at hj
    exact hj.trans (congrArg some hpc)
  · cases hmem

theorem requeues (h : (crew n).Reachable c) (hpc : c.pcs[i]? = some (.requeue task)) (batch : ℕ) :
    ∃ c', c.step (.advance i batch) = some c' ∧ Place.injector ∈ c'.places task := by
  have hsound := sound_of_reachable h
  obtain ⟨injector, hr⟩ := hsound.runtimes
  have hlt : i < c.world.threads.length :=
    hsound.posted.length_eq.symm ▸ (lt_of_some hpc)
  obtain ⟨t, ht⟩ : ∃ t, c.world.threads[i]? = some t := ⟨_, getElem?_eq_getElem hlt⟩
  obtain ⟨idx, d, retired, -, rfl, -⟩ :=
    (related_get hsound.posted ht hpc).exists_of_inLoop rfl
  refine ⟨{ c with
    world := c.world.setShared 0 ⟨.multiThread (List.range' 0 n), injector ++ [task]⟩
    pcs := c.pcs.set i .drain }, ?_, ?_⟩
  · simp [step, Label.actor, ht, hpc, threadStep, Thread.member, Thread.worker, advance, hr]
  · refine mem_append_left _ (mem_append_left _ (mem_append_left _ ?_))
    rw [mem_replicate]
    refine ⟨Nat.ne_of_gt (count_pos_iff.mpr ?_), rfl⟩
    simp [World.contents, World.setShared, hr]

/-- **No task is lost and none is doubled.**  At any time every task that was scheduled is in
exactly one place, and no other is; what a retiring worker has in hand is next in the injector;
threads can schedule whenever code of the user runs; and a worker that has left its loop has an
empty deque. -/
theorem one_place {n : ℕ} {c : Crew} (h : (crew n).Reachable c) :
    (∀ task < c.issued, ∃ p, c.places task = [p]) ∧ (∀ task, c.issued ≤ task → c.places task = []) ∧
      (∀ task i, c.places task = [.drained i] → ∀ batch, ∃ c',
        c.step (.advance i batch) = some c' ∧ c'.places task = [.injector]) ∧
      (∀ (i : ℕ) (pc : Pc), c.pcs[i]? = some pc → pc.calls = true →
        ∃ c', c.step (.schedule i) = some c') ∧
      ∀ (i : ℕ) (t : Thread) (d : ℕ), c.world.threads[i]? = some t → c.pcs[i]? = some .gone →
        t.localQueue = some d → c.world.deque d = [] := by
  have hsound := sound_of_reachable h
  refine ⟨?_, ?_, ?_, ?_, ?_⟩
  · intro task hlt
    refine length_eq_one_iff.mp ?_
    rw [length_places_of_reachable h, if_pos hlt]
  · intro task hle
    refine length_eq_zero_iff.mp ?_
    rw [length_places_of_reachable h, if_neg (Nat.not_lt.mpr hle)]
  · intro task i hp batch
    have hpc := requeue_of_drained (hp ▸ mem_singleton.mpr rfl)
    obtain ⟨c', hs, hmem⟩ := requeues h hpc batch
    refine ⟨c', hs, ?_⟩
    -- the task has one place at most, and the injector is one of them
    have hreach : (crew n).Reachable c' := System.Reachable.step (e := .advance i batch) h hs
    have hlength := length_places_of_reachable hreach task
    match hplaces : c'.places task with
    | [] => simp [hplaces] at hmem
    | [p] =>
      rw [hplaces, mem_singleton] at hmem
      rw [hmem]
    | p :: q :: rest =>
      rw [hplaces, length_cons, length_cons] at hlength
      split at hlength <;> omega
  · intro i pc hpc hcalls
    exact exists_schedule hsound hpc hcalls
  · intro i t d ht hpc hd
    refine hsound.spent t (mem_of_getElem? ht) ?_ d hd
    cases related_get hsound.posted ht hpc with
    | member hidx hin hret => simp [Pc.inLoop] at hin
    | gone hidx => rfl

theorem one_place_of_three : ∃ c, (crew 2).Reachable c ∧ c.issued = 3 ∧
    c.places 0 = [.worker 1] ∧ c.places 1 = [.worker 2] ∧ c.places 2 = [.drained 1] ∧
    ∃ c', c.step (.advance 1 0) = some c' ∧ c'.places 2 = [.injector] := by
  have hr : (crew 2).Reachable _ :=
    ⟨[.schedule 0, .advance 1 0, .advance 1 0, .schedule 1, .schedule 1, .blockInPlace 1,
      .advance 2 0, .advance 2 0, .advance 2 0, .unblock 1, .advance 1 0, .advance 1 0,
      .advance 1 0], rfl⟩
  exact ⟨_, hr, rfl, rfl, rfl, rfl, (one_place hr).2.2.1 2 1 rfl 0⟩

end Crew
end RustyTokio.Runtime

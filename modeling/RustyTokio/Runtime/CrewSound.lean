import RustyTokio.Runtime.Crew

/-!
# What holds of the workers of a runtime at any time
-/

namespace RustyTokio.Runtime

open Transition List Option Pool

def Thread.member (idx d : ℕ) (retired exited : Bool) : Thread :=
  { Thread.worker 0 idx d with retired := retired, exited := exited }

section Schedule

variable {w : World ℕ} {stealers injector : List ℕ}

theorem schedule_member (hr : w.runtimes = [⟨.multiThread stealers, injector⟩])
    (idx d : ℕ) (retired exited : Bool) (task : ℕ) :
    schedule w (.member idx d retired exited) 0 task =
      some (w.setDeque d (w.deque d ++ [task])) := by
  simp [schedule, hr, Thread.member, Thread.worker, pushLocal]

theorem schedule_plain (hr : w.runtimes = [⟨.multiThread stealers, injector⟩]) (task : ℕ) :
    schedule w .plain 0 task =
      some (w.setShared 0 ⟨.multiThread stealers, injector ++ [task]⟩) := by
  simp [schedule, hr, Thread.plain]

end Schedule

/-- **What a thread has in its thread-locals**, by where it is. -/
inductive Posted (n : ℕ) : Thread → Pc → Prop where
  | plain : Posted n .plain .outside
  | member {idx d retired pc} (hidx : idx < n) (hin : pc.inLoop)
      (hret : pc.leaving = true → retired = true) : Posted n (.member idx d retired false) pc
  | gone {idx d} (hidx : idx < n) : Posted n (.member idx d true true) .gone

namespace Posted

variable {n : ℕ} {t : Thread} {pc pc' : Pc}

section

variable (h : Posted n t pc)

include h

theorem exists_of_inLoop (hin : pc.inLoop) :
    ∃ idx d retired, idx < n ∧ t = .member idx d retired false ∧
      (pc.leaving → retired) := by
  cases h with
  | plain | gone hidx => simp [Pc.inLoop] at hin
  | member hidx _ hret => exact ⟨_, _, _, hidx, rfl, hret⟩

theorem exited_of_inLoop (hin : pc.inLoop) : t.exited = false := by
  obtain ⟨idx, d, retired, -, rfl, -⟩ := h.exists_of_inLoop hin
  rfl

theorem exited_of_calls (hcalls : pc.calls) : t.exited = false := by
  cases h with
  | plain | member => rfl
  | gone => simp [Pc.calls] at hcalls

theorem move (hin : pc.inLoop) (hin' : pc'.inLoop)
    (hret : pc'.leaving → t.retired) : Posted n t pc' := by
  obtain ⟨idx, d, retired, hidx, rfl, -⟩ := h.exists_of_inLoop hin
  exact .member hidx hin' hret

theorem of_moves (hm : Crew.Moves t pc pc') : Posted n t pc' := by
  cases hm with
  | retires hr => exact h.move rfl rfl fun _ => hr
  | toInjector | toSiblings | onward | toPark | parked | ran | again hr =>
    exact h.move rfl rfl (by simp [Pc.leaving])

theorem retired_of_leaving (hl : pc.leaving) : t.retired := by
  cases h with
  | plain => simp [Pc.leaving] at hl
  | member _ _ hret => exact hret hl
  | gone => rfl

end

end Posted

namespace Crew

/-- Deques, stealers and threads belong together: each index has a worker, and who exits leaves
nothing. -/
structure Sound (n : ℕ) (c : Crew) : Prop where
  deeds : c.world.Deeds
  stealers : c.world.stealers = [some (List.range' 0 n)]
  posted : List.Forall₂ (Posted n) c.world.threads c.pcs
  staffed : ∀ idx < n, ∃ t ∈ c.world.threads, t.Works 0 idx
  spent : ∀ t ∈ c.world.threads, t.exited = true → ∀ d, t.localQueue = some d →
    c.world.deque d = []

namespace Sound

variable {n : ℕ} {c : Crew} {i : ℕ} {t : Thread} {pc pc' : Pc} {w : World ℕ} {d idx : ℕ}

theorem runtimes (h : c.Sound n) :
    ∃ injector, c.world.runtimes = [⟨.multiThread (List.range' 0 n), injector⟩] := by
  obtain ⟨⟨localQueues, injector⟩, hr, hs⟩ := map_eq_singleton_iff.mp h.stealers
  cases localQueues with
  | currentThread queue => simp [LocalQueues.stealers] at hs
  | multiThread stealers =>
    cases hs
    exact ⟨injector, hr⟩

section

variable (h : c.Sound n)

include h

theorem lt_of_localQueue (ht : t ∈ c.world.threads)
    (hd : t.localQueue = some d) : d < c.world.deques.length :=
  h.deeds.bound t.badge (mem_map.mpr ⟨t, ht, rfl⟩) d hd

theorem ne_of_exited (ht : t ∈ c.world.threads) (hlive : t.exited = false)
    {e : ℕ} (hd : t.localQueue = some d) {u : Thread} (hu : u ∈ c.world.threads)
    (hex : u.exited) (he : u.localQueue = some e) : d ≠ e := by
  rintro rfl
  rw [h.deeds.eq_of_localQueue ht hu hd he, hex] at hlive
  cases hlive

theorem of_sameDeeds (hs : c.world.SameDeeds w)
    (hw : w.threads = c.world.threads) (ht : c.world.threads[i]? = some t) (hpc : Posted n t pc')
    (hspent : ∀ u ∈ c.world.threads, u.exited → ∀ e, u.localQueue = some e →
      c.world.deque e = [] → w.deque e = []) (issued : ℕ) (handed : List (ℕ × ℕ)) :
    Sound n ⟨w, c.pcs.set i pc', issued, handed⟩ := by
  refine ⟨hs.deeds h.deeds, hs.2.2.trans h.stealers, ?_, ?_, ?_⟩
  · change List.Forall₂ (Posted n) w.threads (c.pcs.set i pc')
    rw [hw, ← set_eq_self ht]
    exact related_set h.posted i hpc
  · intro idx hidx
    change ∃ u ∈ w.threads, _
    rw [hw]
    exact h.staffed idx hidx
  · intro u hu hex e he
    change u ∈ w.threads at hu
    rw [hw] at hu
    exact hspent u hu hex e he (h.spent u hu hex e he)

theorem move (ht : c.world.threads[i]? = some t) (hpc : Posted n t pc') : Sound n (c.move i pc') :=
  h.of_sameDeeds ⟨rfl, rfl, rfl⟩ rfl ht hpc (fun _ _ _ _ _ he => he) c.issued c.handed

theorem startThread : Sound n { c with
      world := { c.world with threads := c.world.threads ++ [.plain] }
      pcs := c.pcs ++ [.outside] } := by
  refine ⟨deeds_step (e := .startThread) h.deeds rfl, h.stealers,
    related_snoc h.posted .plain, ?_, ?_⟩
  · intro idx hidx
    obtain ⟨u, hu, hworks⟩ := h.staffed idx hidx
    exact ⟨u, mem_append_left _ hu, hworks⟩
  · intro u hu hex d hd
    rcases mem_append.mp hu with hu | hu
    · exact h.spent u hu hex d hd
    · rw [mem_singleton.mp hu] at hex
      simp [Thread.plain] at hex

theorem works_of_set (t' : Thread) (hidx : idx < n)
    (ht : c.world.threads[i]? = some t) (hne : ¬ t.Works 0 idx) :
    ∃ u ∈ c.world.threads.set i t', u.Works 0 idx := by
  obtain ⟨u, hu, hworks⟩ := h.staffed idx hidx
  obtain ⟨j, hj⟩ := mem_iff_getElem?.mp hu
  have hij : i ≠ j := by
    rintro rfl
    exact hne (some.inj (ht.symm.trans hj) ▸ hworks)
  refine ⟨u, mem_iff_getElem?.mpr ⟨j, ?_⟩, hworks⟩
  rw [getElem?_set, if_neg hij, hj]

theorem exit (ht : c.world.threads[i]? = some t)
    (hpc : c.pcs[i]? = some .drain) (hd : t.localQueue = some d) (hnil : c.world.deque d = []) :
    Sound n { c with
      world := c.world.setThread i { t with exited := true }
      pcs := c.pcs.set i .gone } := by
  obtain ⟨idx, e, retired, hidx, rfl, hret⟩ :=
    (related_get h.posted ht hpc).exists_of_inLoop rfl
  obtain rfl := hret rfl
  have hs := sameDeeds_setThread ht { Thread.member idx e true false with exited := true } rfl
  refine ⟨hs.deeds h.deeds, hs.2.2.trans h.stealers, related_set h.posted i (.gone hidx), ?_, ?_⟩
  · intro idx' hidx'
    refine h.works_of_set _ hidx' ht ?_
    rintro ⟨-, hlive, -⟩
    simp [Thread.member] at hlive
  · intro u hu hex d' hd'
    change c.world.deque d' = []
    rcases mem_set_cases ht hu with rfl | ⟨j, -, hj⟩
    · rw [← some.inj (hd.symm.trans hd'), hnil]
    · exact h.spent u (mem_of_getElem? hj) hex d' hd'

theorem replace {task k r : ℕ} (ht : c.world.threads[i]? = some t)
    (hpc : c.pcs[i]? = some (.running task k)) (hcur : t.current = some r)
    (hidx : t.workerIndex = some idx) (hw : w = { c.world with
        deques := c.world.deques ++ [[]]
        threads := c.world.threads.set i { t with retired := true } ++
          [.worker r idx c.world.deques.length] }) (hdeeds : w.Deeds) :
    Sound n { c with world := w, pcs := c.pcs.set i (.running task (k + 1)) ++ [.next] } := by
  obtain ⟨idx', d, retired, hlt, rfl, -⟩ :=
    (related_get h.posted ht hpc).exists_of_inLoop rfl
  obtain rfl : 0 = r := some.inj hcur
  obtain rfl : idx' = idx := some.inj hidx
  subst hw
  have hblocked : Posted n (.member idx' d true false) (.running task (k + 1)) :=
    .member hlt rfl fun _ => rfl
  have hnew : Posted n (.worker 0 idx' c.world.deques.length) .next :=
    .member hlt rfl (by simp [Pc.leaving])
  refine ⟨hdeeds, h.stealers, related_snoc (related_set h.posted i hblocked) hnew, ?_, ?_⟩
  · intro idx'' hidx''
    obtain rfl | heq := eq_or_ne idx'' idx'
    · exact ⟨_, mem_append_right _ mem_cons_self, rfl, rfl, rfl⟩
    · have hne : ¬ (Thread.member idx' d retired false).Works 0 idx'' := by
        rintro ⟨hserves, -⟩
        exact heq (by simpa [Thread.member, Thread.worker] using hserves.symm)
      obtain ⟨u, hu, hworks⟩ := h.works_of_set (.member idx' d true false) hidx'' ht hne
      exact ⟨u, mem_append_left _ hu, hworks⟩
  · intro u hu hex d' hd'
    change (c.world.deques ++ [[]]).getD d' [] = []
    rcases mem_append.mp hu with hu | hu
    · rcases mem_set_cases ht hu with rfl | ⟨j, -, hj⟩
      · simp [Thread.member] at hex
      · have hmem := mem_of_getElem? hj
        rw [getD_eq_getElem?_getD, getElem?_append_left (h.lt_of_localQueue hmem hd'),
          ← getD_eq_getElem?_getD]
        exact h.spent u hmem hex d' hd'
    · rw [mem_singleton.mp hu] at hex
      simp [Thread.worker] at hex

end

end Sound

theorem sound_step {n : ℕ} {c c' : Crew} {l : Label} (h : c.Sound n) (hs : c.Steps l c') :
    c'.Sound n := by
  cases hs with
  | startThread => exact h.startThread
  | @schedule i t pc w ht hpc hcalls hsch =>
    have hpost := related_get h.posted ht hpc
    have hsound := h.of_sameDeeds (sameDeeds_schedule hsch) (threads_schedule hsch) ht hpost ?_
      (c.issued + 1) c.handed
    · rwa [set_eq_self hpc] at hsound
    · intro u hu hex e he hnil
      rw [deque_schedule_of_ne _ hsch, hnil]
      intro htd
      exact h.ne_of_exited (mem_of_getElem? ht) (hpost.exited_of_calls hcalls) htd hu hex he
        rfl
  | @fetch i batch t pc r d ss task w ht hpc hin hhand hd hf =>
    have hpost := related_get h.posted ht hpc
    refine h.of_sameDeeds (sameDeeds_of_fetches hf) (threads_of_fetches hf) ht
      (hpost.move hin rfl (by simp [Pc.leaving])) ?_ c.issued (c.handed ++ [(i, task)])
    intro u hu hex e he hnil
    exact deque_eq_nil_of_fetches (h.ne_of_exited (mem_of_getElem? ht)
      (hpost.exited_of_inLoop hin) hd hu hex he) hnil hf
  | move ht hpc hm => exact h.move ht ((related_get h.posted ht hpc).of_moves hm)
  | unqueue ht hpc hd hdeque =>
    have hpost := related_get h.posted ht hpc
    refine h.of_sameDeeds (sameDeeds_setDeque _ _ _) rfl ht
      (hpost.move rfl rfl fun _ => hpost.retired_of_leaving rfl) ?_ c.issued c.handed
    intro u hu hex e he hnil
    rw [deque_setDeque_of_ne (h.ne_of_exited (mem_of_getElem? ht)
      (hpost.exited_of_inLoop rfl) hd hu hex he), hnil]
  | exit ht hpc hd hnil => exact h.exit ht hpc hd hnil
  | @requeue i batch t task r sh ht hpc hr =>
    have hpost := related_get h.posted ht hpc
    have hpost' : Posted n t .drain := hpost.move rfl rfl fun _ => hpost.retired_of_leaving rfl
    have hsame := sameDeeds_setShared hr { sh with injector := sh.injector ++ [task] } rfl
    exact h.of_sameDeeds hsame rfl ht hpost' (fun _ _ _ _ _ hnil => hnil) c.issued c.handed
  | nest ht hpc hret =>
    exact h.move ht ((related_get h.posted ht hpc).move rfl rfl fun _ => hret)
  | replace ht hpc hret hcur hidx hb =>
    exact h.replace ht hpc hcur hidx rfl (deeds_blockInPlace h.deeds ht hb)
  | @unblock i t task k ht hpc =>
    have hpost := related_get h.posted ht hpc
    have hpost' : Posted n t (.running task k) :=
      hpost.move rfl rfl fun _ => hpost.retired_of_leaving rfl
    exact h.move ht hpost'

theorem sound_init (n : ℕ) : (crew n).init.Sound n := by
  have hdeeds : (process ℕ).init.Deeds := deeds_of_reachable System.reachable_init
  refine ⟨deeds_buildMultiThread hdeeds n, by simp [crew, buildMultiThread, World.stealers,
    LocalQueues.stealers], ?_, ?_, ?_⟩
  · change List.Forall₂ (Posted n) (.plain :: (List.range n).map fun idx => .worker 0 idx (0 + idx))
      (.outside :: List.replicate n .next)
    refine .cons .plain ?_
    rw [← length_range (n := n), ← map_const', length_range]
    rw [forall₂_map_left_iff, forall₂_map_right_iff, forall₂_same]
    intro idx hidx
    exact .member (mem_range.mp hidx) rfl (by simp [Pc.leaving])
  · intro idx hidx
    refine ⟨.worker 0 idx (0 + idx), ?_, rfl, rfl, rfl⟩
    exact mem_append_right _ (mem_map.mpr ⟨idx, mem_range.mpr hidx, rfl⟩)
  · intro t ht hex
    rcases mem_append.mp ht with ht | ht
    · rw [mem_singleton.mp ht] at hex
      simp [Thread.plain] at hex
    · obtain ⟨idx, -, rfl⟩ := mem_map.mp ht
      simp [Thread.worker] at hex

theorem sound_of_reachable {n : ℕ} {c : Crew} (h : (crew n).Reachable c) : c.Sound n :=
  System.inv_of_reachable (I := Sound n) (sound_init n)
    (fun _ _ _ hI hs => sound_step hI (steps_of_step hs)) h

end Crew
end RustyTokio.Runtime

import RustyTokio.Runtime.Conservation

/-!
# Whether `block_in_place` hands the queued work off

While a worker blocks in place, the tasks in its deque wait for somebody to steal them.  The
replacement that takes its index looks at every index but its own, and the stealing end of its own
deque is in no runtime.
-/

namespace RustyTokio.Runtime

open Transition List Option Pool

variable {τ : Type}

/-! ## What a worker is given -/

/-- What calls of `next_task` by thread `t` return, one after the other, while nobody else
moves.  Each call has its batch size. -/
def fetched (t : Thread) (r idx : ℕ) : List ℕ → World τ → List τ
  | [], _ => []
  | batch :: batches, w =>
    match nextTask w t r idx batch with
    | none => []
    | some (x, w') => x :: fetched t r idx batches w'

/-- The task is where this worker looks. -/
def Within (w : World τ) (r d : ℕ) (siblings : List ℕ) (x : τ) : Prop :=
  x ∈ w.deque d ∨ x ∈ w.contents (.injector r) ∨ ∃ s ∈ siblings, x ∈ w.deque s

section Within

variable {w w' : World τ} {r d batch : ℕ} {ss : List ℕ} {x y : τ} {e : ℕ}

theorem contents_injector_setShared {sh sh' : Shared τ} (hr : w.runtimes[r]? = some sh) :
    (w.setShared r sh').contents (.injector r) = sh'.injector := by
  have hlt := (lt_of_some hr)
  simp only [World.contents, World.setShared, getElem?_set_self hlt]

theorem mem_drop_or_take {rest : List τ} (n : ℕ) (hx : x ∈ y :: rest) :
    x = y ∨ x ∈ rest.drop n ∨ x ∈ rest.take n := by
  rw [← take_append_drop n rest, mem_cons, mem_append] at hx
  rcases hx with hx | hx | hx
  · exact .inl hx
  · exact .inr (.inr hx)
  · exact .inr (.inl hx)

section

variable (hlt : d < w.deques.length) (h : Fetches w r d batch ss y w')

include hlt h

theorem mem_deque_of_fetches (hx : x ∈ w.deque e) : x = y ∨ x ∈ w'.deque e ∨ x ∈ w'.deque d := by
  cases h with
  | @own rest hd =>
    obtain rfl | hde := eq_or_ne d e
    · rw [deque_setDeque_self hlt]
      rw [hd] at hx
      rcases mem_cons.mp hx with hx | hx
      · exact .inl hx
      · exact .inr (.inl hx)
    · rw [deque_setDeque_of_ne hde]
      exact .inr (.inl hx)
  | @injector rest sh hr hi =>
    obtain rfl | hde := eq_or_ne d e
    · rw [deque_setDeque_self (w := w.setShared r _) hlt]
      exact .inr (.inl (mem_append_left _ hx))
    · rw [deque_setDeque_of_ne hde]
      exact .inr (.inl hx)
  | @sibling rest s hs hne hd =>
    have hlt' : d < (w.setDeque s (rest.drop batch)).deques.length :=
      (sameDeeds_setDeque w s _).1.symm ▸ hlt
    rw [deque_setDeque_self hlt']
    obtain rfl | hde := eq_or_ne d e
    · exact .inr (.inr (mem_append_left _ hx))
    · rw [deque_setDeque_of_ne hde]
      obtain rfl | hse := eq_or_ne s e
      · rw [deque_setDeque_self (lt_of_deque_eq_cons hd)]
        rcases mem_drop_or_take batch (hd ▸ hx) with hx | hx | hx
        · exact .inl hx
        · exact .inr (.inl hx)
        · exact .inr (.inr (mem_append_right _ hx))
      · rw [deque_setDeque_of_ne hse]
        exact .inr (.inl hx)

theorem mem_injector_of_fetches (hx : x ∈ w.contents (.injector r)) :
    x = y ∨ x ∈ w'.contents (.injector r) ∨ x ∈ w'.deque d := by
  cases h with
  | own hd | sibling hs hne hd => exact .inr (.inl hx)
  | @injector rest sh hr hi =>
    rw [deque_setDeque_self (w := w.setShared r _) hlt]
    change _ ∨ x ∈ (w.setShared r _).contents (.injector r) ∨ _
    rw [contents_injector_setShared hr]
    simp only [World.contents, hr] at hx
    rcases mem_drop_or_take batch (hi ▸ hx) with hx | hx | hx
    · exact .inl hx
    · exact .inr (.inl hx)
    · exact .inr (.inr (mem_append_right _ hx))

theorem Within.of_fetches (hx : Within w r d ss x) : x = y ∨ Within w' r d ss x := by
  rcases hx with hx | hx | ⟨s, hs, hx⟩
  · rcases mem_deque_of_fetches hlt h hx with hx | hx | hx
    · exact .inl hx
    · exact .inr (.inl hx)
    · exact .inr (.inl hx)
  · rcases mem_injector_of_fetches hlt h hx with hx | hx | hx
    · exact .inl hx
    · exact .inr (.inr (.inl hx))
    · exact .inr (.inl hx)
  · rcases mem_deque_of_fetches hlt h hx with hx | hx | hx
    · exact .inl hx
    · exact .inr (.inr (.inr ⟨s, hs, hx⟩))
    · exact .inr (.inl hx)

end

theorem within_of_fetches (h : Fetches w r d batch ss y w') : Within w r d ss y := by
  cases h with
  | own hd => exact .inl (hd ▸ mem_cons_self)
  | @injector rest sh hr hi =>
    refine .inr (.inl ?_)
    simp only [World.contents, hr, hi]
    exact mem_cons_self
  | @sibling rest s hs hne hd => exact .inr (.inr ⟨s, hs, hd ▸ mem_cons_self⟩)

theorem of_mem_deque_of_fetches (hlt : d < w.deques.length) (h : Fetches w r d batch ss y w')
    (hx : x ∈ w'.deque e) : x ∈ w.deque e ∨ Within w r d ss x := by
  cases h with
  | @own rest hd =>
    obtain rfl | hde := eq_or_ne d e
    · rw [deque_setDeque_self hlt] at hx
      exact .inl (hd ▸ mem_cons_of_mem _ hx)
    · rw [deque_setDeque_of_ne hde] at hx
      exact .inl hx
  | @injector rest sh hr hi =>
    obtain rfl | hde := eq_or_ne d e
    · rw [deque_setDeque_self (w := w.setShared r _) hlt] at hx
      rcases mem_append.mp hx with hx | hx
      · exact .inl hx
      · refine .inr (.inr (.inl ?_))
        simp only [World.contents, hr, hi]
        exact mem_cons_of_mem _ (mem_of_mem_take hx)
    · rw [deque_setDeque_of_ne hde] at hx
      exact .inl hx
  | @sibling rest s hs hne hd =>
    have hlt' : d < (w.setDeque s (rest.drop batch)).deques.length :=
      (sameDeeds_setDeque w s _).1.symm ▸ hlt
    obtain rfl | hde := eq_or_ne d e
    · rw [deque_setDeque_self hlt'] at hx
      rcases mem_append.mp hx with hx | hx
      · exact .inl hx
      · refine .inr (.inr (.inr ⟨s, hs, ?_⟩))
        exact hd ▸ mem_cons_of_mem _ (mem_of_mem_take hx)
    · rw [deque_setDeque_of_ne hde] at hx
      obtain rfl | hse := eq_or_ne s e
      · rw [deque_setDeque_self (lt_of_deque_eq_cons hd)] at hx
        exact .inl (hd ▸ mem_cons_of_mem _ (mem_of_mem_drop hx))
      · rw [deque_setDeque_of_ne hse] at hx
        exact .inl hx

theorem Within.before_fetches (hlt : d < w.deques.length) (h : Fetches w r d batch ss y w')
    (hx : Within w' r d ss x) : Within w r d ss x := by
  rcases hx with hx | hx | ⟨s, hs, hx⟩
  · rcases of_mem_deque_of_fetches hlt h hx with hx | hx
    · exact .inl hx
    · exact hx
  · refine .inr (.inl ?_)
    cases h with
    | own hd | sibling hs hne hd => exact hx
    | @injector rest sh hr hi =>
      change x ∈ (w.setShared r _).contents (.injector r) at hx
      rw [contents_injector_setShared hr] at hx
      simp only [World.contents, hr, hi]
      exact mem_cons_of_mem _ (mem_of_mem_drop hx)
  · rcases of_mem_deque_of_fetches hlt h hx with hx | hx
    · exact .inr (.inr ⟨s, hs, hx⟩)
    · exact hx

end Within

/-! ## All of it, and nothing else -/

section Fetched

variable {w : World τ} {t : Thread} {r idx d : ℕ} {ss : List ℕ} {x : τ} {batches : List ℕ}

def World.Steals (w : World τ) (r : ℕ) (ss : List ℕ) : Prop :=
  w.stealers[r]? = some (some ss)

theorem World.Steals.exists_shared (h : w.Steals r ss) :
    ∃ sh, w.runtimes[r]? = some sh ∧ sh.localQueues = .multiThread ss := by
  rw [World.Steals, World.stealers, getElem?_map, map_eq_some_iff] at h
  obtain ⟨⟨queues, injector⟩, hr, hs⟩ := h
  cases queues with
  | currentThread queue => simp [LocalQueues.stealers] at hs
  | multiThread stealers =>
    obtain rfl : stealers = ss := by simpa [LocalQueues.stealers] using hs
    exact ⟨_, hr, rfl⟩

theorem exists_nextTask (hr : w.Steals r ss) (hd : t.localQueue = some d)
    (hx : Within w r d (siblings ss idx) x) (batch : ℕ) :
    ∃ y w', nextTask w t r idx batch = some (y, w') := by
  obtain ⟨sh, hsh, hq⟩ := hr.exists_shared
  cases hn : nextTask w t r idx batch with
  | some p => exact ⟨p.1, p.2, rfl⟩
  | none =>
    have hnil := (nextTask_eq_none_iff w t r idx batch).mp hn
    have hempty : ∀ q, q ∈ nextTaskQueues w t r idx → x ∈ w.contents q → False := by
      intro q hmem hxq
      rw [hnil q hmem] at hxq
      exact not_mem_nil hxq
    refine absurd ?_ id
    rcases hx with hx | hx | ⟨s, hs, hx⟩
    · exact hempty (.deque d) ((mem_nextTaskQueues hsh hq hd).mpr (.inl rfl)) hx
    · exact hempty (.injector r) ((mem_nextTaskQueues hsh hq hd).mpr (.inr (.inl rfl))) hx
    · obtain ⟨v, hv, hvs⟩ := mem_siblings.mp hs
      exact hempty (.deque s) ((mem_nextTaskQueues hsh hq hd).mpr
        (.inr (.inr ⟨v, s, hv, hvs, rfl⟩))) hx

/-- **A task within reach is returned**, after as many calls as there are tasks at most. -/
theorem mem_fetched (hr : w.Steals r ss) (hd : t.localQueue = some d)
    (hlt : d < w.deques.length) (hx : Within w r d (siblings ss idx) x)
    (hlength : w.weigh (fun _ => 1) ≤ batches.length) : x ∈ fetched t r idx batches w := by
  -- each call that does not return the task takes another one out of the queues
  induction batches generalizing w with
  | nil =>
    obtain ⟨y, w', hn⟩ := exists_nextTask hr hd hx 0
    obtain ⟨sh, hsh, hq⟩ := hr.exists_shared
    have hw := weigh_of_fetches (g := fun _ => 1) hlt (fetches_of_nextTask hsh hq hd hn)
    rw [length_nil] at hlength
    omega
  | cons batch batches ih =>
    obtain ⟨y, w', hn⟩ := exists_nextTask hr hd hx batch
    obtain ⟨sh, hsh, hq⟩ := hr.exists_shared
    have hf := fetches_of_nextTask hsh hq hd hn
    have hw := weigh_of_fetches (g := fun _ => 1) hlt hf
    have hsame := sameDeeds_of_fetches hf
    simp only [fetched, hn, mem_cons]
    rcases hx.of_fetches hlt hf with hx | hx
    · exact .inl hx
    · refine .inr (ih ?_ (hsame.1.symm ▸ hlt) hx ?_)
      · rw [World.Steals, hsame.2.2]
        exact hr
      · rw [length_cons] at hlength
        omega

theorem within_of_mem_fetched (hr : w.Steals r ss) (hd : t.localQueue = some d)
    (hlt : d < w.deques.length) (hx : x ∈ fetched t r idx batches w) :
    Within w r d (siblings ss idx) x := by
  induction batches generalizing w with
  | nil => cases hx
  | cons batch batches ih =>
    obtain ⟨sh, hsh, hq⟩ := hr.exists_shared
    cases hn : nextTask w t r idx batch with
    | none =>
      rw [fetched, hn] at hx
      cases hx
    | some p =>
      have hf : Fetches w r d batch (siblings ss idx) p.1 p.2 :=
        fetches_of_nextTask hsh hq hd hn
      have hsame := sameDeeds_of_fetches hf
      rw [fetched, hn] at hx
      rcases mem_cons.mp hx with hx | hx
      · rw [hx]
        exact within_of_fetches hf
      · refine (ih ?_ (hsame.1.symm ▸ hlt) hx).before_fetches hlt hf
        rw [World.Steals, hsame.2.2]
        exact hr

end Fetched

/-! ## Blocking in place -/

def World.cleared (w : World τ) (r d : ℕ) : World τ :=
  match w.runtimes[r]? with
  | none => w.setDeque d []
  | some sh => (w.setShared r { sh with injector := [] }).setDeque d []

section Cleared

variable {w : World τ} {r d : ℕ}

theorem sameDeeds_cleared (w : World τ) (r d : ℕ) : w.SameDeeds (w.cleared r d) := by
  unfold World.cleared
  split
  · exact sameDeeds_setDeque w d []
  next sh hr =>
    refine World.SameDeeds.trans ?_ (sameDeeds_setDeque _ d [])
    exact sameDeeds_setShared hr _ rfl

theorem deque_cleared_of_ne {e : ℕ} (hne : d ≠ e) : (w.cleared r d).deque e = w.deque e := by
  unfold World.cleared
  split
  · exact deque_setDeque_of_ne hne []
  · rw [deque_setDeque_of_ne hne]
    rfl

theorem deque_cleared_self (hlt : d < w.deques.length) : (w.cleared r d).deque d = [] := by
  unfold World.cleared
  split <;> exact deque_setDeque_self hlt []

theorem injector_cleared {sh : Shared τ} (hr : w.runtimes[r]? = some sh) :
    (w.cleared r d).contents (.injector r) = [] := by
  simp only [World.cleared, hr]
  change (w.setShared r _).contents (.injector r) = []
  rw [contents_injector_setShared hr]

end Cleared

def Pc.blocked : Pc → Bool
  | .running _ (_ + 1) => true
  | _ => false

theorem Pc.leaving_of_blocked {pc : Pc} (h : pc.blocked) : pc.leaving := by
  cases pc with
  | running task k =>
    cases k with
    | zero => simp [Pc.blocked] at h
    | succ k => rfl
  | _ => simp [Pc.blocked] at h

namespace Crew

/-- Calls of `next_task` by worker `u` return `task`, whatever their batch sizes, if its own deque
and the injector are empty. -/
def Offered (c : Crew) (u : Thread) (task : ℕ) : Prop :=
  ∃ idx d, u.serves = some (0, idx) ∧ u.localQueue = some d ∧
    ∃ calls, ∀ batches : List ℕ, calls ≤ batches.length →
      task ∈ fetched u 0 idx batches (c.world.cleared 0 d)

/-- **The queued work is handed off**: each task in the deque of a worker that blocks in place is
offered to a worker that does not. -/
def HandsOff (c : Crew) : Prop :=
  ∀ (i : ℕ) (t : Thread) (pc : Pc) (d : ℕ), c.world.threads[i]? = some t → c.pcs[i]? = some pc →
    pc.blocked = true → t.localQueue = some d → ∀ task ∈ c.world.deque d,
      ∃ (j : ℕ) (u : Thread) (pcu : Pc), c.world.threads[j]? = some u ∧ c.pcs[j]? = some pcu ∧
        pcu.inLoop = true ∧ pcu.blocked = false ∧ c.Offered u task

/-- The condition on calls of `block_in_place`, in a runtime with `n` workers: the thread is
retired already, or the runtime has a second worker and the thread is one that the runtime was
built with. -/
def covers (n : ℕ) (c : Crew) : Label → Bool
  | .blockInPlace i =>
    match c.world.threads[i]? with
    | none => true
    | some t =>
      t.retired || (decide (2 ≤ n) && match t.localQueue with
        | none => false
        | some d => decide (d < n))
  | _ => true

/-- A retired thread has a deque that a sibling can steal from. -/
def Covered (n : ℕ) (c : Crew) : Prop :=
  ∀ t ∈ c.world.threads, t.retired = true → 2 ≤ n ∧ ∃ d < n, t.localQueue = some d

section Offered

variable {n : ℕ} {c : Crew} {idx e task d i : ℕ} {c' : Crew}

theorem Sound.steals (h : c.Sound n) : c.world.Steals 0 (List.range' 0 n) := by
  rw [World.Steals, h.stealers]
  rfl

theorem mem_siblings_range {s : ℕ} : s ∈ siblings (List.range' 0 n) idx ↔ s < n ∧ s ≠ idx % n := by
  rw [mem_siblings, length_range']
  constructor
  · rintro ⟨v, hv, hvs⟩
    rw [getElem?_range' hv.1] at hvs
    obtain rfl : v = s := by simpa using hvs
    exact hv
  · intro hs
    exact ⟨s, hs, by rw [getElem?_range' hs.1]; simp⟩

theorem offered_iff (h : c.Sound n) {u : Thread} (hu : u ∈ c.world.threads)
    (hs : u.serves = some (0, idx)) (he : u.localQueue = some e) :
    c.Offered u task ↔ ∃ s, (s < n ∧ s ≠ idx % n) ∧ s ≠ e ∧ task ∈ c.world.deque s := by
  have hlt := h.lt_of_localQueue hu he
  have hsame := sameDeeds_cleared c.world 0 e
  have hlt' : e < (c.world.cleared 0 e).deques.length := hsame.1.symm ▸ hlt
  have hsteals : (c.world.cleared 0 e).Steals 0 (List.range' 0 n) := by
    rw [World.Steals, hsame.2.2]
    exact h.steals
  constructor
  · rintro ⟨idx', e', hs', he', calls, hcalls⟩
    obtain ⟨-, rfl⟩ := pair_of_some (hs.symm.trans hs')
    cases he.symm.trans he'
    have hmem := hcalls (List.replicate calls 0) (Nat.le_of_eq length_replicate.symm)
    obtain ⟨injector, hr⟩ := h.runtimes
    rcases within_of_mem_fetched hsteals he hlt' hmem with hx | hx | ⟨s, hsib, hx⟩
    · rw [deque_cleared_self hlt] at hx
      cases hx
    · rw [injector_cleared (by rw [hr]; rfl)] at hx
      cases hx
    · have hse : s ≠ e := by
        rintro rfl
        rw [deque_cleared_self hlt] at hx
        exact not_mem_nil hx
      rw [deque_cleared_of_ne hse.symm] at hx
      exact ⟨s, mem_siblings_range.mp hsib, hse, hx⟩
  · rintro ⟨s, hsib, hse, hx⟩
    refine ⟨idx, e, hs, he, _, fun batches hlength => mem_fetched hsteals he hlt' ?_ hlength⟩
    refine .inr (.inr ⟨s, mem_siblings_range.mpr hsib, ?_⟩)
    rwa [deque_cleared_of_ne hse.symm]

theorem handsOff_of_covered (h : c.Sound n) (hc : c.Covered n) : c.HandsOff := by
  intro i t pc d ht hpc hblocked hd task htask
  have hmem := mem_of_getElem? ht
  have hret :=
    (related_get h.posted ht hpc).retired_of_leaving (Pc.leaving_of_blocked hblocked)
  obtain ⟨hn, d', hdn, hd'⟩ := hc t hmem hret
  cases hd.symm.trans hd'
  -- the next index has a worker that is not retired, and so has another deque
  have hidx : (d + 1) % n < n := Nat.mod_lt _ (by omega)
  have hne : d ≠ (d + 1) % n := by
    rw [add_mod_cases hdn (by omega)]
    split <;> omega
  obtain ⟨u, hu, hworks⟩ := h.staffed _ hidx
  obtain ⟨e, he⟩ := h.deeds.localQueue_of_serves hu hworks.1
  have hde : d ≠ e := by
    rintro rfl
    rw [h.deeds.eq_of_localQueue hmem hu hd he, hworks.2.1] at hret
    cases hret
  obtain ⟨j, hj⟩ := mem_iff_getElem?.mp hu
  have hjlt : j < c.pcs.length := h.posted.length_eq ▸ (lt_of_some hj)
  obtain ⟨pcu, hpcu⟩ : ∃ pcu, c.pcs[j]? = some pcu := ⟨_, getElem?_eq_getElem hjlt⟩
  have hoffered : c.Offered u task :=
    (offered_iff h hu hworks.1 he).mpr ⟨d, ⟨hdn, by rwa [Nat.mod_mod]⟩, hde, htask⟩
  refine ⟨j, u, pcu, hj, hpcu, ?_, ?_, hoffered⟩
  · cases related_get h.posted hj hpcu with
    | plain => simp [Thread.plain] at he
    | member _ hin _ => exact hin
    | gone _ => exact absurd hworks.2.2 (by simp [Thread.member])
  · cases hb : pcu.blocked with
    | false => rfl
    | true =>
      have hret' :=
        (related_get h.posted hj hpcu).retired_of_leaving (Pc.leaving_of_blocked hb)
      rw [hworks.2.1] at hret'
      cases hret'

theorem covered_step {l : Label} (hc : c.Covered n) (hl : c.covers n l)
    (hs : c.Steps l c') : c'.Covered n := by
  cases hs with
  | startThread =>
    intro t ht hret
    rcases mem_append.mp ht with ht | ht
    · exact hc t ht hret
    · rw [mem_singleton.mp ht] at hret
      simp [Thread.plain] at hret
  | schedule ht hpc hcalls hsch =>
    intro t ht hret
    exact hc t (threads_schedule hsch ▸ ht) hret
  | fetch ht hpc hin hhand hd hf =>
    intro t ht hret
    exact hc t (threads_of_fetches hf ▸ ht) hret
  | move ht hpc hm | unqueue ht hpc hd hdeque | requeue ht hpc hr | nest ht hpc hret
  | unblock ht hpc => exact hc
  | @exit i batch t d ht hpc hd hnil =>
    intro u hu hret
    rcases mem_set_cases ht hu with rfl | ⟨j, -, hj⟩
    · exact hc t (mem_of_getElem? ht) hret
    · exact hc u (mem_of_getElem? hj) hret
  | @replace i t task k r idx ht hpc hret hcur hidx hb =>
    intro u hu hretu
    rcases mem_append.mp hu with hu | hu
    · rcases mem_set_cases ht hu with rfl | ⟨j, -, hj⟩
      · -- the worker that blocks now
        simp only [covers, ht, hret, Bool.false_or, Bool.and_eq_true, decide_eq_true_eq] at hl
        obtain ⟨hn, hd⟩ := hl
        split at hd
        · cases hd
        next d hdq => exact ⟨hn, d, by simpa using hd, hdq⟩
      · exact hc u (mem_of_getElem? hj) hretu
    · rw [mem_singleton.mp hu] at hretu
      simp [Thread.worker] at hretu

theorem mem_places_of_mem_deque (h : task ∈ c.world.deque d) : Place.deque d ∈ c.places task := by
  have hlt : d < c.world.deques.length := by
    cases hd : c.world.deque d with
    | nil =>
      rw [hd] at h
      cases h
    | cons x l => exact lt_of_deque_eq_cons hd
  refine mem_append_left _ (mem_append_left _ (mem_append_right _ ?_))
  refine mem_flatMap.mpr ⟨(c.world.deque d, d), ?_, ?_⟩
  · exact mem_zipIdx_iff_getElem?.mpr (getElem?_deque hlt)
  · exact mem_replicate.mpr ⟨Nat.ne_of_gt (count_pos_iff.mpr h), rfl⟩

theorem eq_of_mem_deque (h : (crew n).Reachable c) (hd : task ∈ c.world.deque d)
    (he : task ∈ c.world.deque e) : d = e := by
  have hlength := length_places_of_reachable h task
  have hmem := mem_places_of_mem_deque hd
  have hmem' := mem_places_of_mem_deque he
  match hp : c.places task with
  | [] => simp [hp] at hmem
  | [p] =>
    rw [hp, mem_singleton] at hmem hmem'
    exact Place.deque.inj (hmem.trans hmem'.symm)
  | p :: q :: rest =>
    rw [hp, length_cons, length_cons] at hlength
    split at hlength <;> omega

/-- **A task out of reach**: a worker blocks whose deque no other index looks at. -/
theorem not_handsOff (h : (crew n).Reachable c) {t : Thread} {pc : Pc}
    (ht : c.world.threads[i]? = some t) (hpc : c.pcs[i]? = some pc) (hblocked : pc.blocked)
    (hd : t.localQueue = some d) (htask : task ∈ c.world.deque d) (hout : ¬ (2 ≤ n ∧ d < n)) :
    ¬ c.HandsOff := by
  intro hoff
  have hsound := sound_of_reachable h
  obtain ⟨j, u, pcu, hj, hpcu, -, -, hoffered⟩ := hoff i t pc d ht hpc hblocked hd task htask
  obtain ⟨idx, e, hs, he, -⟩ := id hoffered
  obtain ⟨s, ⟨hsn, hne⟩, -, hmem⟩ :=
    (offered_iff hsound (mem_of_getElem? hj) hs he).mp hoffered
  obtain rfl := eq_of_mem_deque h hmem htask
  have hlt : idx % n < n := Nat.mod_lt _ (by omega)
  exact hout ⟨by omega, hsn⟩

theorem exists_out_of_reach (h : (crew n).Reachable c)
    (hl : c.covers n (.blockInPlace i) = false) (hs : c.step (.blockInPlace i) = some c') :
    ∃ c'', c'.step (.schedule i) = some c'' ∧ ¬ c''.HandsOff := by
  have hreach : (crew n).Reachable c' := System.Reachable.step (e := .blockInPlace i) h hs
  have hsound := sound_of_reachable hreach
  obtain ⟨t, pc, d, ht, hpc, hblocked, hd, hout⟩ : ∃ (t : Thread) (pc : Pc) (d : ℕ),
      c'.world.threads[i]? = some t ∧ c'.pcs[i]? = some pc ∧ pc.blocked ∧
        t.localQueue = some d ∧ ¬ (2 ≤ n ∧ d < n) := by
    cases steps_of_step hs with
    | nest ht hpc hret => simp [covers, ht, hret] at hl
    | @replace _ t task k r idx ht hpc hret hcur hidx hb =>
      have hlt := (lt_of_some ht)
      have hlt' := (lt_of_some hpc)
      obtain ⟨idx', d, retired, -, rfl, -⟩ :=
        (related_get (sound_of_reachable h).posted ht hpc).exists_of_inLoop rfl
      refine ⟨.member idx' d true false, .running task (k + 1), d, ?_, ?_, rfl, rfl, ?_⟩
      · rw [getElem?_append_left (by rwa [length_set]), getElem?_set_self hlt]
        rfl
      · rw [getElem?_append_left (by rwa [length_set]), getElem?_set_self hlt']
      · obtain rfl : retired = false := hret
        simpa [covers, ht, Thread.member, Thread.worker] using hl
  obtain ⟨injector, hr⟩ := hsound.runtimes
  cases related_get hsound.posted ht hpc with
  | plain => simp [Thread.plain] at hd
  | gone => simp [Pc.blocked] at hblocked
  | @member idx d' retired _ hidx hin hret =>
    obtain rfl : d' = d := some.inj hd
    have hcalls : pc.calls := by
      cases pc with
      | running a k => rfl
      | _ => simp [Pc.blocked] at hblocked
    have hstep : c'.step (.schedule i) = some { c' with
        world := c'.world.setDeque d' (c'.world.deque d' ++ [c'.issued])
        issued := c'.issued + 1 } := by
      simp only [step, Label.actor, ht, hpc, threadStep, if_pos hcalls, schedule_member hr,
        map_some]
    have hreach' := System.Reachable.step (S := crew n) (e := .schedule i) hreach hstep
    have hmem : c'.issued ∈ (c'.world.setDeque d' (c'.world.deque d' ++ [c'.issued])).deque d' := by
      rw [deque_setDeque_self (hsound.lt_of_localQueue (mem_of_getElem? ht) hd)]
      exact mem_append_right _ mem_cons_self
    exact ⟨_, hstep, not_handsOff hreach' ht hpc hblocked hd hmem hout⟩

end Offered

theorem covered_init (n : ℕ) : (crew n).init.Covered n := by
  intro t ht hret
  rcases mem_append.mp ht with ht | ht
  · rw [mem_singleton.mp ht] at hret
    simp [Thread.plain] at hret
  · obtain ⟨idx, -, rfl⟩ := mem_map.mp ht
    simp [Thread.worker] at hret

/-- **Whether `block_in_place` hands the queued work off.**  It does in every run in which each
thread that calls it, not retired yet, is one of at least two workers that the runtime was built
with.  After any other call that succeeds, a task that the closure schedules is out of reach. -/
theorem handsOff_if_covered (n : ℕ) :
    (∀ c, (crew n).ReachableUnder (fun c l => c.covers n l = true) c → c.HandsOff) ∧
      ∀ c, (crew n).Reachable c → ∀ i c', c.covers n (.blockInPlace i) = false →
        c.step (.blockInPlace i) = some c' →
          ∃ c'', c'.step (.schedule i) = some c'' ∧ ¬ c''.HandsOff := by
  constructor
  · intro c h
    have hcovered := System.inv_of_reachableUnder (I := Covered n) (covered_init n)
      (fun _ _ _ hI hl hs => covered_step hI hl (steps_of_step hs)) h
    exact handsOff_of_covered (sound_of_reachable h.reachable) hcovered
  · intro c h i c' hl hs
    exact exists_out_of_reach h hl hs

theorem handsOff_of_two : ∃ c, (crew 2).ReachableUnder (fun c l => c.covers 2 l = true) c ∧
    c.pcs[1]? = some (.running 0 1) ∧ 1 ∈ c.world.deque 0 ∧ c.HandsOff := by
  have hr : (crew 2).ReachableUnder (fun c l => c.covers 2 l) _ :=
    ⟨[.schedule 0, .advance 1 0, .advance 1 0, .schedule 1, .blockInPlace 1], rfl, by decide⟩
  exact ⟨_, hr, rfl, by decide, (handsOff_if_covered 2).1 _ hr⟩

/-- The only worker of a runtime blocks, and a task that it has scheduled is out of reach.  So it
is when, of a runtime with two workers, a replacement blocks. -/
theorem exists_not_handsOff :
    (∃ c, (crew 1).Reachable c ∧ c.pcs[1]? = some (.running 0 1) ∧ c.world.deque 0 = [1] ∧
      ¬ c.HandsOff) ∧
    ∃ c, (crew 2).Reachable c ∧ c.pcs[3]? = some (.running 1 1) ∧ c.world.deque 2 = [2] ∧
      ¬ c.HandsOff := by
  constructor
  · have hr : (crew 1).Reachable _ :=
      ⟨[.schedule 0, .advance 1 0, .advance 1 0, .schedule 1, .blockInPlace 1], rfl⟩
    exact ⟨_, hr, rfl, rfl, not_handsOff (i := 1) (t := .member 0 0 true false) hr rfl rfl rfl
      rfl mem_cons_self (by decide)⟩
  · have hr : (crew 2).Reachable _ :=
      ⟨[.schedule 0, .advance 1 0, .advance 1 0, .blockInPlace 1, .schedule 0, .advance 3 0,
        .advance 3 0, .schedule 3, .blockInPlace 3], rfl⟩
    exact ⟨_, hr, rfl, rfl, not_handsOff (i := 3) (t := .member 0 2 true false) hr rfl rfl rfl
      rfl mem_cons_self (by decide)⟩

end Crew
end RustyTokio.Runtime

import RustyTokio.Sync.Semaphore

/-!
# The queue of a semaphore

Whoever arrives while somebody is queued is queued behind, and a release serves the queue
from the front until somebody does not fit.  So the front always needs more than there is,
and the waiters are granted in the order they came in.
-/

namespace RustyTokio.Semaphore

open Transition List Option Table Acquire World

/-! ## Waiters and futures -/

namespace Acquire

def IsQueued (f : Acquire) : Prop := f.registered = true ∧ f.outcome = .pending

/-- What an `Acquire` says of itself. -/
structure Valid (f : Acquire) : Prop where
  fresh : f.registered = false → f.outcome = .pending
  parked : f.phase.isParked = true → f.registered = true
  needs : f.registered = true → 0 < f.needed.toNat
  waits : f.IsQueued → f.phase ≠ .finished

variable {f : Acquire}

theorem not_isQueued_new (n : UInt32) (owned : Bool) : ¬ (new n owned).IsQueued :=
  fun hq => Bool.false_ne_true hq.1

theorem valid_new (n : UInt32) (owned : Bool) : (new n owned).Valid where
  fresh _ := rfl
  parked hp := absurd hp Bool.false_ne_true
  needs hr := absurd hr Bool.false_ne_true
  waits hq := absurd hq (not_isQueued_new n owned)

theorem Valid.setPhase (h : f.Valid) {p : Phase} (hp : p.isParked = false)
    (hq : p = .finished → ¬ f.IsQueued) : (f.setPhase p).Valid where
  fresh := h.fresh
  parked hpp := absurd hpp (by simp [Acquire.setPhase, hp])
  needs := h.needs
  waits hf hpp := hq hpp hf

theorem valid_park (hn : 0 < f.needed.toNat) (ho : f.outcome = .pending) : f.park.Valid where
  fresh _ := ho
  parked _ := rfl
  needs _ := hn
  waits _ hp := absurd hp (by simp [Acquire.park])

theorem Valid.tell (h : f.Valid) (hq : f.IsQueued) {o : Outcome} (ho : o ≠ .pending) :
    (f.tell o).Valid where
  fresh hr := absurd (hq.1.symm.trans hr) (by simp)
  parked _ := hq.1
  needs := h.needs
  waits hf _ := ho hf.2

end Acquire

namespace World

def isDropped (w : World) (i : ℕ) : Bool := w.futures[i]?.any fun f => f.phase == .dropped

def line (w : World) : List ℕ := w.state.waiters.map Waiter.future ++ w.closing

/-- The queue is of the futures that wait, each once, with what it needs. -/
structure Linked (w : World) : Prop where
  valid : ∀ (i : ℕ) (f : Acquire), w.futures[i]? = some f → f.Valid
  line : ∀ i : ℕ, i ∈ w.line ↔ ∃ f : Acquire, w.futures[i]? = some f ∧ f.IsQueued
  nodup : w.line.Nodup
  needed : ∀ e ∈ w.state.waiters, ∀ f : Acquire, w.futures[e.future]? = some f →
    f.needed.toNat = e.needed
  emptied : w.state.closed = true → w.state.waiters = []
  untold : w.state.closed = false → w.closing = []
  unclosed : w.state.closed = false → ∀ (i : ℕ) (f : Acquire), w.futures[i]? = some f →
    f.outcome ≠ .closed

section Linked

variable {w v : World} {l : Label} {i : ℕ} {g : Acquire → Acquire} {j : ℕ} {f : Acquire}
  {e : Waiter}

theorem isDropped_iff : w.isDropped i ↔
    ∃ f : Acquire, w.futures[i]? = some f ∧ f.phase = .dropped := by
  rw [isDropped, Option.any_eq_true]
  simp only [beq_iff_eq]

section

variable (w : World) (n : ℕ) (owned : Bool)

@[simp] theorem hand_state : (w.hand n owned).state = w.state := by
  cases owned <;> rfl

@[simp] theorem hand_futures : (w.hand n owned).futures = w.futures := by
  cases owned <;> rfl

@[simp] theorem hand_closing : (w.hand n owned).closing = w.closing := by
  cases owned <;> rfl

@[simp] theorem hand_queued : (w.hand n owned).queued = w.queued := by
  cases owned <;> rfl

@[simp] theorem hand_granted : (w.hand n owned).granted = w.granted := by
  cases owned <;> rfl

end

theorem of_change {f' : Acquire} (h : (w.change i g).futures[j]? = some f') :
    (i = j ∧ ∃ f, w.futures[j]? = some f ∧ f' = g f) ∨ (i ≠ j ∧ w.futures[j]? = some f') :=
  of_modify h

theorem change_self (hi : w.futures[i]? = some f) (g : Acquire → Acquire) :
    (w.change i g).futures[i]? = some (g f) :=
  modify_self hi g

theorem change_of_ne (hij : i ≠ j) (g : Acquire → Acquire) :
    (w.change i g).futures[j]? = w.futures[j]? :=
  modify_of_ne hij g

theorem forall_change {P : ℕ → Acquire → Prop} (hi : w.futures[i]? = some f) (hg : P i (g f))
    (h : ∀ (j : ℕ) (e : Acquire), w.futures[j]? = some e → P j e) (j : ℕ) (f' : Acquire)
    (hj : (w.change i g).futures[j]? = some f') : P j f' :=
  forall_modify hi hg h j f' hj

theorem Linked.congr (h : w.Linked) (hfutures : v.futures = w.futures)
    (hwaiters : v.state.waiters = w.state.waiters) (hclosed : v.state.closed = w.state.closed)
    (hclosing : v.closing = w.closing) : v.Linked := by
  have hline : v.line = w.line := by rw [World.line, hwaiters, hclosing, World.line]
  refine ⟨?_, ?_, ?_, ?_, ?_, ?_, ?_⟩
  · rw [hfutures]
    exact h.valid
  · rw [hfutures, hline]
    exact h.line
  · rw [hline]
    exact h.nodup
  · rw [hfutures, hwaiters]
    exact h.needed
  · rw [hclosed, hwaiters]
    exact h.emptied
  · rw [hclosed, hclosing]
    exact h.untold
  · rw [hclosed, hfutures]
    exact h.unclosed

theorem Linked.change (h : w.Linked)
    (hi : w.futures[i]? = some f) (hv : (g f).Valid) (hr : (g f).registered = f.registered)
    (ho : (g f).outcome = f.outcome) (hn : (g f).needed = f.needed) : (w.change i g).Linked where
  valid := forall_change (P := fun _ f => f.Valid) hi hv h.valid
  line j := by
    refine (h.line j).trans ?_
    obtain rfl | hij := eq_or_ne i j
    · rw [change_self hi, hi]
      simp only [some.injEq, exists_eq_left', Acquire.IsQueued, hr, ho]
    · rw [change_of_ne hij]
  nodup := h.nodup
  needed e he f' hf' := by
    refine forall_change (P := fun j f => e.future = j → f.needed.toNat = e.needed) hi
      (fun hij => ?_) (fun j f₀ hf₀ hij => ?_) _ f' hf' rfl
    · rw [hn]
      exact h.needed e he f (hij ▸ hi)
    · exact h.needed e he f₀ (hij ▸ hf₀)
  emptied := h.emptied
  untold := h.untold
  unclosed hc :=
    forall_change (P := fun _ f => f.outcome ≠ .closed) hi (ho ▸ h.unclosed hc i f hi)
      (h.unclosed hc)

theorem Linked.future_of_mem (h : w.Linked) (he : e ∈ w.state.waiters) :
    ∃ f, w.futures[e.future]? = some f ∧ f.IsQueued ∧ f.needed.toNat = e.needed := by
  have hmem : e.future ∈ w.line :=
    mem_append_left _ (mem_map_of_mem he)
  obtain ⟨f, hf, hq⟩ := (h.line e.future).mp hmem
  exact ⟨f, hf, hq, h.needed e he f hf⟩

theorem Linked.needed_pos (h : w.Linked) (he : e ∈ w.state.waiters) : 0 < e.needed := by
  obtain ⟨f, hf, hq, hn⟩ := h.future_of_mem he
  rw [← hn]
  exact (h.valid _ f hf).needs hq.1

theorem Linked.start (h : w.Linked) (n : UInt32) (owned : Bool) : Linked
    { w with futures := w.futures ++ [Acquire.new n owned] } := by
  refine ⟨fun j f hj => ?_, fun j => (h.line j).trans ?_, h.nodup, fun e he f hf => ?_, h.emptied,
    h.untold, fun hc j f hj => ?_⟩
  · rcases of_snoc hj with hj | ⟨-, rfl⟩
    · exact h.valid j f hj
    · exact valid_new n owned
  · refine ⟨fun ⟨f, hf, hq⟩ => ⟨f, append_of_some hf _, hq⟩, fun ⟨f, hf, hq⟩ => ?_⟩
    rcases of_snoc hf with hj | ⟨-, rfl⟩
    · exact ⟨f, hj, hq⟩
    · exact absurd hq (not_isQueued_new n owned)
  · obtain ⟨f₀, hf₀, -, hn⟩ := h.future_of_mem he
    cases (append_of_some hf₀ _).symm.trans hf
    exact hn
  · rcases of_snoc hj with hj | ⟨-, rfl⟩
    · exact h.unclosed hc j f hj
    · simp [Acquire.new]

theorem Linked.queue (h : w.Linked) {queued : List ℕ}
    (hi : w.futures[i]? = some f) (h0 : 0 < f.needed.toNat) (ho : f.outcome = .pending)
    (hr : f.registered = false) (hc : w.state.closed = false) : Linked (World.change { w with
      state := { w.state with waiters := w.state.waiters ++ [⟨f.needed.toNat, i⟩] }
      queued := queued } i Acquire.park) := by
  have hclosing := h.untold hc
  have hnot : ¬ f.IsQueued := fun hq => absurd (hr.symm.trans hq.1) (by simp)
  have hline : w.line = w.state.waiters.map Waiter.future := by
    rw [World.line, hclosing, append_nil]
  have hnew : (w.state.waiters ++ [Waiter.mk f.needed.toNat i]).map Waiter.future ++ w.closing =
      w.line ++ [i] := by
    rw [hline, hclosing, map_append, append_nil]
    rfl
  have hmem : i ∉ w.line := by
    intro hmem
    obtain ⟨f', hf', hq⟩ := (h.line i).mp hmem
    cases hi.symm.trans hf'
    exact hnot hq
  refine ⟨?_, fun j => ?_, ?_, fun e he f' hf' => ?_, fun hcl => ?_, h.untold, fun _ => ?_⟩
  · exact forall_change (P := fun _ f => f.Valid) hi (valid_park h0 ho) h.valid
  · change j ∈ (w.state.waiters ++ [Waiter.mk f.needed.toNat i]).map Waiter.future ++ w.closing ↔ _
    rw [hnew, mem_append, mem_singleton]
    obtain rfl | hij := eq_or_ne i j
    · refine iff_of_true (.inr rfl) ⟨f.park, change_self hi _, rfl, ho⟩
    · rw [change_of_ne hij, ← h.line j]
      exact or_iff_left fun hj => hij hj.symm
  · change ((w.state.waiters ++ [Waiter.mk f.needed.toNat i]).map Waiter.future ++ w.closing).Nodup
    rw [hnew]
    exact nodup_append.mpr ⟨h.nodup, nodup_singleton i,
      fun a ha b hb hab => hmem (mem_singleton.mp hb ▸ hab ▸ ha)⟩
  · rcases mem_append.mp he with he | he
    · rcases of_change hf' with ⟨hij, -⟩ | ⟨-, hf'⟩
      · refine absurd ?_ hmem
        rw [hline, hij]
        exact mem_map_of_mem he
      · exact h.needed e he f' hf'
    · obtain rfl := mem_singleton.mp he
      cases (change_self hi _).symm.trans hf'
      rfl
  · cases hc.symm.trans hcl
  · exact forall_change (P := fun _ f => f.outcome ≠ .closed) hi (h.unclosed hc i f hi)
      (h.unclosed hc)

theorem getElem?_release (w : World) (n j : ℕ) :
    (w.release n).futures[j]? = w.futures[j]?.map fun f =>
      if j ∈ (w.state.release n).2.map Waiter.future then f.tell .granted else f :=
  getElem?_foldl_modify (tell_tell .granted) _ _ j

theorem granted_append_waiters (s : State) (n : ℕ) :
    (s.release n).2 ++ (s.release n).1.waiters = s.waiters :=
  served_append_rest Waiter.needed (uadd s.permits n) s.waiters

theorem Linked.release (h : w.Linked) (n : ℕ) : (w.release n).Linked := by
  have hsplit := granted_append_waiters w.state n
  have hline : (w.state.release n).2.map Waiter.future ++ (w.release n).line = w.line := by
    rw [World.line, World.line, ← hsplit, map_append, append_assoc]
    rfl
  have hnodup := h.nodup
  rw [← hline, nodup_append] at hnodup
  obtain ⟨-, hrest, hdisjoint⟩ := hnodup
  -- who is granted was queued
  have hqueued : ∀ j ∈ (w.state.release n).2.map Waiter.future,
      ∃ f, w.futures[j]? = some f ∧ f.IsQueued := by
    intro j hj
    refine (h.line j).mp ?_
    rw [← hline]
    exact mem_append_left _ hj
  refine ⟨fun j f' hj => ?_, fun j => ?_, hrest, fun e he f' hf' => ?_, fun hc => ?_, h.untold,
    fun hc j f' hj => ?_⟩
  · rw [getElem?_release] at hj
    obtain ⟨f, hf, rfl⟩ := map_eq_some_iff.mp hj
    have hv := h.valid j f hf
    by_cases hmem : j ∈ (w.state.release n).2.map Waiter.future
    · obtain ⟨f₀, hf₀, hq⟩ := hqueued j hmem
      cases hf.symm.trans hf₀
      rw [if_pos hmem]
      exact hv.tell hq (by simp)
    · rw [if_neg hmem]
      exact hv
  · rw [getElem?_release]
    by_cases hmem : j ∈ (w.state.release n).2.map Waiter.future
    · refine iff_of_false (fun hj => hdisjoint j hmem j hj rfl) fun ⟨f', hf', hq⟩ => ?_
      obtain ⟨f, -, rfl⟩ := map_eq_some_iff.mp hf'
      rw [if_pos hmem] at hq
      exact absurd hq.2 (by simp [Acquire.tell])
    · have hj : j ∈ (w.release n).line ↔ j ∈ w.line := by
        rw [← hline, mem_append]
        exact (or_iff_right hmem).symm
      rw [hj, h.line j]
      simp only [hmem, if_false, Option.map_id_fun']
      rfl
  · rw [getElem?_release] at hf'
    obtain ⟨f, hf, rfl⟩ := map_eq_some_iff.mp hf'
    have he' : e ∈ w.state.waiters := hsplit ▸ mem_append_right _ he
    have hn := h.needed e he' f hf
    split <;> exact hn
  · have hempty := h.emptied hc
    rw [hempty] at hsplit
    exact (append_eq_nil_iff.mp hsplit).2
  · rw [getElem?_release] at hj
    obtain ⟨f, hf, rfl⟩ := map_eq_some_iff.mp hj
    split
    · simp [Acquire.tell]
    · exact h.unclosed hc j f hf

theorem Linked.close (h : w.Linked) (hc : w.state.closed = false) : Linked { w with
      state := { w.state with closed := true, waiters := [] }
      closing := w.closing ++ w.state.waiters.map Waiter.future } := by
  have hline : w.line = w.closing ++ w.state.waiters.map Waiter.future := by
    rw [World.line, h.untold hc, append_nil, nil_append]
  have hline' : World.line { w with
      state := { w.state with closed := true, waiters := [] }
      closing := w.closing ++ w.state.waiters.map Waiter.future } = w.line := hline.symm
  refine ⟨h.valid, fun j => ?_, ?_, fun e he => ?_, fun _ => rfl, fun hcl => ?_, fun hcl => ?_⟩
  · rw [hline']
    exact h.line j
  · rw [hline']
    exact h.nodup
  · cases he
  · cases hcl
  · cases hcl

theorem Linked.closeNext (h : w.Linked) {rest : List ℕ} (hc : w.closing = i :: rest) :
    (World.change { w with closing := rest } i (Acquire.tell .closed)).Linked := by
  have hclosed : w.state.closed := by
    by_contra hopen
    rw [h.untold (Bool.not_eq_true _ ▸ hopen)] at hc
    cases hc
  have hempty := h.emptied hclosed
  have hline : w.line = i :: rest := by
    rw [World.line, hempty, hc]
    rfl
  have hline' : (World.change { w with closing := rest } i (Acquire.tell .closed)).line =
      rest := by
    rw [World.line, World.change, hempty]
    rfl
  have hnodup := h.nodup
  rw [hline, nodup_cons] at hnodup
  obtain ⟨f, hi, hq⟩ := (h.line i).mp (by rw [hline]; exact mem_cons_self)
  refine ⟨?_, fun j => ?_, ?_, fun e he => ?_, h.emptied, fun hopen => ?_, fun hopen => ?_⟩
  · exact forall_change (P := fun _ f => f.Valid) hi ((h.valid i f hi).tell hq (by simp)) h.valid
  · rw [hline']
    obtain rfl | hij := eq_or_ne i j
    · refine iff_of_false hnodup.1 fun ⟨f', hf', hq'⟩ => ?_
      rw [change_self (w := { w with closing := rest }) hi] at hf'
      cases hf'
      exact absurd hq'.2 (by simp [Acquire.tell])
    · rw [change_of_ne hij]
      have hj := h.line j
      rw [hline, mem_cons, or_iff_right fun he => hij he.symm] at hj
      exact hj
  · rw [hline']
    exact hnodup.2
  · change e ∈ w.state.waiters at he
    rw [hempty] at he
    cases he
  · cases hclosed.symm.trans hopen
  · cases hclosed.symm.trans hopen

theorem linked_of_step (h : w.Linked) (hs : w.step l = some v) : v.Linked := by
  cases steps_of_step hs with
  | start => exact h.start _ _
  | panic hi hp h0 | drop hi hp =>
    have hv := h.valid _ _ hi
    exact h.change hi (hv.setPhase rfl (by simp)) rfl rfl rfl
  | observe hi hp ho =>
    have hv := h.valid _ _ hi
    have hnot : ∀ f : Acquire, f.outcome = .granted → ¬ f.IsQueued := fun f hf hq =>
      absurd (hf.symm.trans hq.2) (by simp)
    have hchange := h.change hi (hv.setPhase (p := .finished) rfl fun _ => hnot _ ho) rfl rfl rfl
    exact hchange.congr (hand_futures _ _ _) (by rw [hand_state]) (by rw [hand_state])
      (hand_closing _ _ _)
  | refuse hi hp ho =>
    have hv := h.valid _ _ hi
    refine h.change hi (hv.setPhase rfl fun _ hq => ?_) rfl rfl rfl
    rcases ho with ho | ⟨-, hr, -⟩
    · cases ho.symm.trans hq.2
    · cases hr.symm.trans hq.1
  | take hi hp ho hr hc hw hn =>
    have hv := h.valid _ _ hi
    have hchange := h.change hi (hv.setPhase (p := .finished) rfl fun _ hq =>
      absurd (hr.symm.trans hq.1) (by simp)) rfl rfl rfl
    exact hchange.congr (hand_futures _ _ _) (by rw [hand_state]; rfl) (by rw [hand_state]; rfl)
      (hand_closing _ _ _)
  | queue hi hp h0 ho hr hc hw => exact h.queue hi h0 ho hr hc
  | repoll hi hp ho hr =>
    have hv := h.valid _ _ hi
    exact h.change hi (valid_park (hv.needs hr) ho) hr.symm rfl rfl
  | tryTake hc hw hn =>
    exact h.congr (hand_futures _ _ _) (by rw [hand_state]) (by rw [hand_state])
      (hand_closing _ _ _)
  | tryFails | closeAgain hc => exact h
  | addPermits | dropPermit hk | dropOwned hk => exact (h.release _).congr rfl rfl rfl rfl
  | forgetPermits | merge hj hk hjk => exact h.congr rfl rfl rfl rfl
  | close hc => exact h.close hc
  | closeNext hc => exact h.closeNext hc

theorem linked_init (permits : UInt64) : (semaphore permits).init.Linked where
  valid _ _ h := absurd h (by simp [semaphore])
  line _ := iff_of_false not_mem_nil (by simp [semaphore])
  nodup := nodup_nil
  needed _ he := absurd he not_mem_nil
  emptied _ := rfl
  untold _ := rfl
  unclosed _ _ _ h := absurd h (by simp [semaphore])

end Linked

/-! ## The order of the queue -/

/-- The first waiter lacks permits, and grants follow the queue. -/
structure Fair (w : World) : Prop where
  front : ∀ e rest, w.state.waiters = e :: rest → w.state.permits < e.needed
  order : w.state.closed = false → w.granted ++ w.state.waiters.map Waiter.future = w.queued
  inOrder : w.granted <+: w.queued
  told : ∀ i : ℕ, i ∈ w.granted ↔ ∃ f : Acquire, w.futures[i]? = some f ∧ f.outcome = .granted

section Fair

variable {w v : World} {l : Label} {i : ℕ} {f : Acquire} {g : Acquire → Acquire}

theorem Fair.of_same (h : w.Fair) (hwaiters : v.state.waiters = w.state.waiters)
    (hpermits : v.state.permits ≤ w.state.permits) (hclosed : v.state.closed = w.state.closed)
    (hgranted : v.granted = w.granted) (hqueued : v.queued = w.queued)
    (htold : ∀ i : ℕ, (∃ f : Acquire, v.futures[i]? = some f ∧ f.outcome = .granted) ↔
      ∃ f : Acquire, w.futures[i]? = some f ∧ f.outcome = .granted) : v.Fair where
  front e rest he := Nat.lt_of_le_of_lt hpermits (h.front e rest (hwaiters ▸ he))
  order hc := by
    rw [hgranted, hwaiters, hqueued]
    exact h.order (hclosed ▸ hc)
  inOrder := by
    rw [hgranted, hqueued]
    exact h.inOrder
  told i := by
    rw [hgranted, htold]
    exact h.told i

theorem told_change (hi : w.futures[i]? = some f)
    (ho : (g f).outcome = .granted ↔ f.outcome = .granted) (j : ℕ) :
    (∃ f' : Acquire, (w.change i g).futures[j]? = some f' ∧ f'.outcome = .granted) ↔
      ∃ f' : Acquire, w.futures[j]? = some f' ∧ f'.outcome = .granted := by
  obtain rfl | hij := eq_or_ne i j
  · rw [change_self hi, hi]
    simp only [some.injEq, exists_eq_left']
    exact ho
  · rw [change_of_ne hij]

theorem Fair.change (h : w.Fair)
    (hi : w.futures[i]? = some f) (ho : (g f).outcome = .granted ↔ f.outcome = .granted) :
    (w.change i g).Fair :=
  h.of_same rfl (Nat.le_refl _) rfl rfl rfl (told_change hi ho)

theorem Fair.hand (h : w.Fair) (n : ℕ) (owned : Bool) : (w.hand n owned).Fair :=
  h.of_same (by rw [hand_state]) (Nat.le_of_eq (by rw [hand_state])) (by rw [hand_state])
    (hand_granted _ _ _) (hand_queued _ _ _) (fun i => by rw [hand_futures])

theorem Fair.start (h : w.Fair) (n : UInt32) (owned : Bool) :
    Fair { w with futures := w.futures ++ [Acquire.new n owned] } := by
  refine h.of_same rfl (Nat.le_refl _) rfl rfl rfl fun j => ?_
  constructor <;> rintro ⟨f, hf, ho⟩
  · rcases of_snoc hf with hf | ⟨-, rfl⟩
    · exact ⟨f, hf, ho⟩
    · simp [Acquire.new] at ho
  · exact ⟨f, append_of_some hf _, ho⟩

theorem Fair.queue (h : w.Fair) (hi : w.futures[i]? = some f) (hc : w.state.closed = false)
    (hw : w.state.waiters ≠ [] ∨ w.state.permits < f.needed.toNat) : Fair (World.change { w with
      state := { w.state with waiters := w.state.waiters ++ [⟨f.needed.toNat, i⟩] }
      queued := w.queued ++ [i] } i Acquire.park) where
  front e rest he := by
    change w.state.waiters ++ [Waiter.mk f.needed.toNat i] = e :: rest at he
    cases hwaiters : w.state.waiters with
    | nil =>
      rw [hwaiters, nil_append] at he
      cases he
      exact hw.resolve_left fun hne => hne hwaiters
    | cons e₀ rest₀ =>
      rw [hwaiters, cons_append] at he
      obtain ⟨rfl, -⟩ := cons.inj he
      exact h.front e₀ rest₀ hwaiters
  order _ := by
    change w.granted ++ (w.state.waiters ++ [Waiter.mk f.needed.toNat i]).map Waiter.future =
      w.queued ++ [i]
    rw [map_append, ← append_assoc, h.order hc]
    rfl
  inOrder := h.inOrder.trans (prefix_append _ _)
  told j := (h.told j).trans
    (told_change (w := { w with
      state := { w.state with waiters := w.state.waiters ++ [⟨f.needed.toNat, i⟩] }
      queued := w.queued ++ [i] }) hi Iff.rfl j).symm

theorem Fair.release (h : w.Fair) (hl : w.Linked) (n : ℕ) : (w.release n).Fair := by
  have hsplit := granted_append_waiters w.state n
  refine ⟨fun e rest he => lt_need_of_rest Waiter.needed he, fun hc => ?_, ?_, fun j => ?_⟩
  · change (w.granted ++ (w.state.release n).2.map Waiter.future) ++
      (w.state.release n).1.waiters.map Waiter.future = w.queued
    rw [append_assoc, ← map_append, hsplit]
    exact h.order hc
  · change w.granted ++ (w.state.release n).2.map Waiter.future <+: w.queued
    cases hc : w.state.closed with
    | true =>
      rw [hl.emptied hc] at hsplit
      rw [(append_eq_nil_iff.mp hsplit).1, map_nil, append_nil]
      exact h.inOrder
    | false =>
      rw [← h.order hc, ← hsplit, map_append, ← append_assoc]
      exact prefix_append _ _
  · change j ∈ w.granted ++ (w.state.release n).2.map Waiter.future ↔ _
    rw [mem_append, h.told j, getElem?_release]
    by_cases hmem : j ∈ (w.state.release n).2.map Waiter.future
    · refine iff_of_true (.inr hmem) ?_
      have hline : j ∈ w.line := by
        rw [line, ← hsplit, map_append, append_assoc]
        exact mem_append_left _ hmem
      obtain ⟨f, hf, -⟩ := (hl.line j).mp hline
      exact ⟨f.tell .granted, by rw [hf, map_some, if_pos hmem], rfl⟩
    · rw [or_iff_left hmem]
      simp only [hmem, if_false, Option.map_id_fun']
      rfl

theorem fair_of_step (h : w.Fair) (hl : w.Linked) (hs : w.step l = some v) : v.Fair := by
  cases steps_of_step hs with
  | start => exact h.start _ _
  | panic hi hp h0 | refuse hi hp ho | repoll hi hp ho hr | drop hi hp => exact h.change hi Iff.rfl
  | observe hi hp ho => exact (h.change hi Iff.rfl).hand _ _
  | take hi hp ho hr hc hw hn =>
    have hchange := h.change (g := Acquire.setPhase .finished) hi Iff.rfl
    refine Fair.hand ?_ _ _
    exact hchange.of_same rfl (Nat.sub_le _ _) rfl rfl rfl fun _ => Iff.rfl
  | queue hi hp h0 ho hr hc hw => exact h.queue hi hc hw
  | tryTake hc hw hn =>
    refine Fair.hand ?_ _ _
    exact h.of_same rfl (Nat.sub_le _ _) rfl rfl rfl fun _ => Iff.rfl
  | tryFails | closeAgain hc => exact h
  | addPermits => exact (h.release hl _).of_same rfl (Nat.le_refl _) rfl rfl rfl fun _ => Iff.rfl
  | forgetPermits => exact h.of_same rfl (Nat.sub_le _ _) rfl rfl rfl fun _ => Iff.rfl
  | dropPermit hk | dropOwned hk =>
    exact (h.release hl _).of_same rfl (Nat.le_refl _) rfl rfl rfl fun _ => Iff.rfl
  | merge hj hk hjk => exact h.of_same rfl (Nat.le_refl _) rfl rfl rfl fun _ => Iff.rfl
  | close hc =>
    exact ⟨by simp, by simp, h.inOrder,
      h.told⟩
  | @closeNext i rest hc =>
    have hmem : i ∈ w.line := mem_append_right _ (by rw [hc]; exact mem_cons_self)
    obtain ⟨f, hi, hq⟩ := (hl.line i).mp hmem
    have hsame : Fair { w with closing := rest } :=
      h.of_same rfl (Nat.le_refl _) rfl rfl rfl fun _ => Iff.rfl
    exact hsame.change hi (iff_of_false (by simp [Acquire.tell]) (by simp [hq.2]))

def Orderly (w : World) : Prop := w.Linked ∧ w.Fair

theorem orderly_init (permits : UInt64) : (semaphore permits).init.Orderly := by
  refine ⟨linked_init permits, fun e rest he => absurd he ?_, fun _ => rfl, nil_prefix,
    fun i => iff_of_false not_mem_nil ?_⟩
  · simp [semaphore, constNew]
  · simp [semaphore]

theorem orderly_of_step (h : w.Orderly) (hs : w.step l = some v) : v.Orderly :=
  ⟨linked_of_step h.1 hs, fair_of_step h.2 h.1 hs⟩

theorem orderly_of_reachable {permits : UInt64} (hw : (semaphore permits).Reachable w) :
    w.Orderly :=
  System.inv_of_reachable (I := Orderly) (orderly_init permits)
    (fun _ _ _ h hs => orderly_of_step h hs) hw

theorem not_ok_of_queue (h : w.Linked) (hw : w.state.waiters ≠ [])
    (hi : w.futures[i]? = some f) (hr : f.registered = false) :
    (w.state.pollAcquire f i).2 ≠ .ready (.ok ()) := by
  have ho := (h.valid i f hi).fresh hr
  have hfast : ¬ (w.state.waiters.isEmpty && decide (f.needed.toNat ≤ w.state.permits)) :=
    fun hfast => hw (fast_iff.mp hfast).1
  rw [State.pollAcquire, ho, hr]
  simp only [Bool.false_eq_true, if_false, hfast]
  split <;> simp

theorem tryAcquireMany_ne_ok {s : State} (hw : s.waiters ≠ []) (n : ℕ) :
    (s.tryAcquireMany n).2 ≠ .ok () := by
  have hfast : ¬ (s.waiters.isEmpty && decide (n ≤ s.permits)) :=
    fun hfast => hw (fast_iff.mp hfast).1
  rw [State.tryAcquireMany, if_neg hfast]
  split <;> simp

end Fair

end World

/-- **First in, first out, and nobody jumps the queue.**  In every run the front of the queue needs
more than the available permits; those who were granted are the first of those who queued,
followed, while it is open, by the queue; and while somebody is queued no call succeeds without
queuing. -/
theorem fifo_without_barging {permits : UInt64} {w : World} (hw : (semaphore permits).Reachable w) :
    (∀ e rest, w.state.waiters = e :: rest → w.state.permits < e.needed) ∧
      (w.state.closed = true → w.state.waiters = []) ∧ (w.granted <+: w.queued ∧
        (w.state.closed = false → w.granted ++ w.state.waiters.map Waiter.future = w.queued) ∧
        ∀ i : ℕ, i ∈ w.granted ↔ ∃ f : Acquire, w.futures[i]? = some f ∧ f.outcome = .granted) ∧
      (w.state.waiters ≠ [] →
        (∀ (i : ℕ) (f : Acquire), w.futures[i]? = some f → f.registered = false →
          (w.state.pollAcquire f i).2 ≠ .ready (.ok ())) ∧
        ∀ n, (w.state.tryAcquireMany n).2 ≠ .ok ()) := by
  obtain ⟨hlinked, hfair⟩ := orderly_of_reachable hw
  refine ⟨hfair.front, hlinked.emptied, ⟨hfair.inOrder, hfair.order, hfair.told⟩, fun hne => ?_⟩
  exact ⟨fun i f hi hr => not_ok_of_queue hlinked hne hi hr, fun n => tryAcquireMany_ne_ok hne n⟩

theorem fifo_after_two_grants : ∃ w : World, (semaphore 2).Reachable w ∧
    w.state.waiters = [⟨2, 3⟩] ∧ w.granted = [1, 2] ∧ w.queued = [1, 2, 3] ∧
    w.state.permits < 2 ∧ w.granted <+: w.queued ∧ (w.state.tryAcquireMany 0).2 ≠ .ok () := by
  have hw : (semaphore 2).Reachable _ :=
    ⟨[.start 2 false, .poll 0, .start 2 true, .poll 1, .start 1 false, .poll 2, .start 2 false,
      .poll 3, .dropPermit 0, .addPermits 1], rfl⟩
  obtain ⟨hfront, -, ⟨hserved, -, -⟩, hbarge⟩ := fifo_without_barging hw
  exact ⟨_, hw, rfl, rfl, rfl, hfront _ _ rfl, hserved, (hbarge (by decide)).2 0⟩

end RustyTokio.Semaphore

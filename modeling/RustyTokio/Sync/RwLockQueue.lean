import RustyTokio.Sync.RwLock

/-!
# When the reader/writer lock strands its queue

A lock is stranded when nobody holds it, somebody is parked on it and nobody who is parked has been
woken.  The comment on `wake_eligible` argues that a writer left in the queue behind a popped batch
of readers "gets its turn one release later".
-/

namespace RustyTokio.RwLock

open Transition List Option Table State World

/-! ## The runs and the bad states -/

/-- Polls come first or after a wake, and no pending future is dropped. -/
def Disciplined (w : World) : Event → Prop
  | .poll i => ∀ f ∈ w.futures[i]?, f.phase ≠ .parked false
  | .cancel i => ∀ f ∈ w.futures[i]?, f.phase.isParked = false
  | _ => True

instance (w : World) : (e : Event) → Decidable (Disciplined w e)
  | .poll i => inferInstanceAs (Decidable (∀ f ∈ w.futures[i]?, f.phase ≠ .parked false))
  | .cancel i => inferInstanceAs (Decidable (∀ f ∈ w.futures[i]?, f.phase.isParked = false))
  | .create _ => .isTrue trivial
  | .tryRead => .isTrue trivial
  | .tryWrite => .isTrue trivial
  | .dropRead => .isTrue trivial
  | .dropWrite => .isTrue trivial
  | .downgrade => .isTrue trivial

/-- Nobody holds the lock, somebody is parked, nobody parked has been woken. -/
def Stranded (w : World) : Prop :=
  w.lock.writerLocked = false ∧ w.lock.readers = 0 ∧
    (∃ f ∈ w.futures, f.phase.isParked = true) ∧ ∀ f ∈ w.futures, f.phase.isWoken = false

instance (w : World) : Decidable (Stranded w) := by
  unfold Stranded
  infer_instance

/-- A writer has been woken and has not polled since. -/
def WokenWriter (w : World) : Prop :=
  ∃ f ∈ w.futures, f.kind = .write ∧ f.phase.isWoken = true

instance (w : World) : Decidable (WokenWriter w) := by
  unfold WokenWriter
  infer_instance

def FreesLock (w : World) : Event → Prop
  | .dropRead => w.lock.writerLocked = false ∧ w.lock.readers ≤ 1
  | .dropWrite => w.lock.readers = 0
  | _ => False

instance (w : World) : (e : Event) → Decidable (FreesLock w e)
  | .dropRead => inferInstanceAs (Decidable (_ ∧ _))
  | .dropWrite => inferInstanceAs (Decidable (w.lock.readers = 0))
  | .create _ => .isFalse id
  | .poll _ => .isFalse id
  | .cancel _ => .isFalse id
  | .tryRead => .isFalse id
  | .tryWrite => .isFalse id
  | .downgrade => .isFalse id

def readerAtFront (s : State ℕ) : Bool :=
  match s.waiters with
  | (.read, _) :: _ => true
  | _ => false

/-- The release frees the lock and pops readers from in front of a queued
writer, and no woken writer is about to poll. -/
def SplitsQueue (w : World) (e : Event) : Prop :=
  FreesLock w e ∧ readerAtFront w.lock = true ∧ w.lock.writerPending = true ∧ ¬ WokenWriter w

instance (w : World) (e : Event) : Decidable (SplitsQueue w e) := by
  unfold SplitsQueue
  infer_instance

/-! ## The invariant -/

/-- The queue is of the futures that sleep, each once. -/
structure QueueInv (w : World) : Prop where
  mem_iff : ∀ m i, (m, i) ∈ w.lock.waiters ↔ w.futures[i]? = some ⟨m, .parked false⟩
  nodup : (w.lock.waiters.map Prod.snd).Nodup

/-- A free lock with a queue has a woken future that will take it. -/
def FreeInv (w : World) : Prop :=
  w.lock.writerLocked = false → w.lock.readers = 0 → w.lock.waiters ≠ [] →
    WokenWriter w ∨
      ((∃ f ∈ w.futures, f.phase.isWoken = true) ∧ w.lock.writerPending = false)

variable {s l : State ℕ} {w v : World} {i : ℕ} {f : Future Mode} {e : Event}

theorem writerPending_iff : s.writerPending ↔ ∃ i, (Mode.write, i) ∈ s.waiters := by
  rw [State.writerPending, List.any_eq_true]
  constructor
  · rintro ⟨⟨m, i⟩, hm, hw⟩
    have hm' : m = .write := of_decide_eq_true hw
    exact ⟨i, hm' ▸ hm⟩
  · rintro ⟨i, hi⟩
    exact ⟨(.write, i), hi, rfl⟩

theorem readerAtFront_iff : readerAtFront s ↔ ∃ i q, s.waiters = (.read, i) :: q := by
  unfold readerAtFront
  constructor
  · intro h
    split at h
    next i q hq => exact ⟨i, q, hq⟩
    · cases h
  · rintro ⟨i, q, hq⟩
    rw [hq]

section

variable (h : QueueInv w) (hf : w.futures[i]? = some f) (hp : f.phase ≠ .parked false)

include h hf hp

theorem QueueInv.notMem_of_phase (m : Mode) : (m, i) ∉ w.lock.waiters := by
  intro hm
  have hw := (h.mem_iff m i).mp hm
  rw [hf] at hw
  exact hp (by rw [some.inj hw])

theorem QueueInv.setPhase {p : Phase}
    (hp' : p ≠ .parked false) (hl : l.waiters = w.lock.waiters) (r g : ℕ) :
    QueueInv ⟨l, Table.setPhase w.futures i p, r, g⟩ := by
  refine ⟨fun m j => ?_, by rw [hl]; exact h.nodup⟩
  show (m, j) ∈ l.waiters ↔ (Table.setPhase w.futures i p)[j]? = _
  rw [hl, h.mem_iff, getElem?_setPhase]
  obtain rfl | hij := eq_or_ne i j
  · rw [hf]
    constructor <;> intro hs
    · exact absurd (congrArg Future.phase (some.inj hs)) hp
    · simp only [if_true, map_some, some.injEq, Future.mk.injEq] at hs
      exact absurd hs.2 hp'
  · simp [hij]

theorem QueueInv.park (hl : l.waiters = w.lock.waiters ++ [(f.kind, i)]) (r g : ℕ) :
    QueueInv ⟨l, Table.setPhase w.futures i (.parked false), r, g⟩ := by
  have hnot : ∀ m, (m, i) ∉ w.lock.waiters := h.notMem_of_phase hf hp
  constructor
  · intro m j
    show (m, j) ∈ l.waiters ↔ (Table.setPhase w.futures i _)[j]? = _
    rw [hl, mem_append, mem_singleton, getElem?_setPhase]
    obtain rfl | hij := eq_or_ne i j
    · rw [hf]
      constructor
      · rintro (hm | hm)
        · exact absurd hm (hnot m)
        · rw [(Prod.mk.inj hm).1]
          simp
      · intro hs
        simp only [if_true, map_some, some.injEq, Future.mk.injEq] at hs
        exact .inr (by rw [hs.1])
    · have hji : ¬ ((m, j) = (f.kind, i)) := fun hm => hij (Prod.mk.inj hm).2.symm
      rw [or_iff_left hji, h.mem_iff]
      simp [hij]
  · show (l.waiters.map Prod.snd).Nodup
    rw [hl, map_append, map_cons, map_nil, nodup_append]
    refine ⟨h.nodup, nodup_singleton i, ?_⟩
    intro a ha b hb
    rw [mem_singleton] at hb
    subst hb
    rintro rfl
    obtain ⟨⟨m, j⟩, hm, hj⟩ := mem_map.mp ha
    have hj' : j = a := hj
    exact hnot m (hj' ▸ hm)

end

theorem QueueInv.pop (h : QueueInv w) (ps : List (Mode × ℕ))
    {q : List (Mode × ℕ)} (hq : w.lock.waiters = ps ++ q) (hl : l.waiters = q) (r g : ℕ) :
    QueueInv ⟨l, Table.wakeAll w.futures (ps.map Prod.snd), r, g⟩ := by
  have hnodup := h.nodup
  rw [hq, map_append, nodup_append] at hnodup
  obtain ⟨-, hqn, hdisj⟩ := hnodup
  refine ⟨fun m j => ?_, by rw [hl]; exact hqn⟩
  show (m, j) ∈ l.waiters ↔ (Table.wakeAll w.futures _)[j]? = _
  rw [hl, getElem?_wakeAll]
  by_cases hj : j ∈ ps.map Prod.snd
  · -- a popped future is awake, and its only entry is gone
    constructor
    · intro hm
      exact absurd rfl (hdisj j hj j (mem_map.mpr ⟨(m, j), hm, rfl⟩))
    · intro hs
      simp only [hj, if_true, map_eq_some_iff] at hs
      obtain ⟨f, -, hf⟩ := hs
      have hphase : f.phase.wake = .parked false := congrArg Future.phase hf
      cases hfp : f.phase <;> rw [hfp] at hphase <;> cases hphase
  · have hiff : (m, j) ∈ q ↔ (m, j) ∈ w.lock.waiters := by
      rw [hq, mem_append]
      refine ⟨.inr, fun hm => hm.resolve_left fun hp => hj ?_⟩
      exact mem_map.mpr ⟨(m, j), hp, rfl⟩
    rw [hiff, h.mem_iff]
    simp [hj]

theorem wokenWriter_iff : WokenWriter w ↔ ∃ (j : ℕ) (f : Future Mode),
      w.futures[j]? = some f ∧ f.kind = .write ∧ f.phase = .parked true := by
  constructor
  · rintro ⟨f, hf, hk, hp⟩
    obtain ⟨j, hj⟩ := mem_iff_getElem?.mp hf
    exact ⟨j, f, hj, hk, Phase.isWoken_iff.mp hp⟩
  · rintro ⟨j, f, hj, hk, hp⟩
    exact ⟨f, mem_of_getElem? hj, hk, Phase.isWoken_iff.mpr hp⟩

theorem WokenWriter.wakeAll (h : WokenWriter w) (l : State ℕ) (is : List ℕ)
    (r g : ℕ) : WokenWriter ⟨l, Table.wakeAll w.futures is, r, g⟩ := by
  obtain ⟨j, f, hj, hk, hp⟩ := wokenWriter_iff.mp h
  refine wokenWriter_iff.mpr ⟨j, { f with phase := .parked true }, ?_, hk, rfl⟩
  show (Table.wakeAll w.futures is)[j]? = _
  rw [getElem?_wakeAll, hj, map_some]
  obtain ⟨k, p⟩ := f
  have hp' : p = .parked true := hp
  subst hp'
  split <;> rfl

theorem WokenWriter.setPhase (h : WokenWriter w)
    (hf : w.futures[i]? = some f) (hk : f.kind = .read) (l : State ℕ) (p : Phase) (r g : ℕ) :
    WokenWriter ⟨l, Table.setPhase w.futures i p, r, g⟩ := by
  obtain ⟨j, f', hj, hk', hp'⟩ := wokenWriter_iff.mp h
  have hij : i ≠ j := by
    rintro rfl
    rw [hf] at hj
    rw [← some.inj hj, hk] at hk'
    cases hk'
  refine wokenWriter_iff.mpr ⟨j, f', ?_, hk', hp'⟩
  show (Table.setPhase w.futures i p)[j]? = _
  rw [getElem?_setPhase, hj]
  simp [hij]

/-! ## Each step keeps the invariant -/

theorem freeInv_of_held (h : w.lock.writerLocked ∨ w.lock.readers ≠ 0) : FreeInv w := by
  intro hl hr
  rcases h with h | h
  · rw [hl] at h
    cases h
  · exact absurd hr h

theorem pollFuture_cases (w : World) (i : ℕ) (m : Mode) : (∃ l, w.pollFuture i m =
        { w with lock := l, futures := Table.setPhase w.futures i .finished }.grant m ∧
      l.waiters = w.lock.waiters ∧ (l.writerLocked ∨ l.readers ≠ 0)) ∨
    (w.pollFuture i m =
        { w with
          lock := { w.lock with waiters := w.lock.waiters ++ [(m, i)] }
          futures := Table.setPhase w.futures i (.parked false) } ∧
      (w.lock.writerLocked ∨ w.lock.readers ≠ 0 ∨ (m = .read ∧ w.lock.writerPending))) := by
  rcases acquire_cases w.lock m i with ⟨l, ha, hlw, hheld⟩ | ⟨ha, hwhy⟩
  · exact .inl ⟨l, by rw [World.pollFuture, ha], hlw, hheld⟩
  · exact .inr ⟨by rw [World.pollFuture, ha], hwhy⟩

theorem QueueInv.poll (hq : QueueInv w)
    (hf : w.futures[i]? = some f) (hp : f.phase ≠ .parked false) :
    QueueInv (w.pollFuture i f.kind) := by
  rcases pollFuture_cases w i f.kind with ⟨l, hv, hlw, -⟩ | ⟨hv, -⟩ <;> rw [hv]
  · cases f.kind <;> exact hq.setPhase hf hp (by simp) hlw _ _
  · exact hq.park hf hp rfl _ _

theorem FreeInv.poll (hfree : FreeInv w)
    (hf : w.futures[i]? = some f) : FreeInv (w.pollFuture i f.kind) := by
  rcases pollFuture_cases w i f.kind with ⟨l, hv, -, hheld⟩ | ⟨hv, hwhy⟩ <;> rw [hv]
  · apply freeInv_of_held
    cases f.kind <;> exact hheld
  · intro hl hr _
    -- parked although the lock is free: a reader that saw a queued writer
    rcases hwhy with hwl | hrd | ⟨hk, hwp⟩
    · cases hl.symm.trans hwl
    · exact absurd hr hrd
    · obtain ⟨j, hj⟩ := writerPending_iff.mp hwp
      rcases hfree hl hr (ne_nil_of_mem hj) with hw | ⟨-, hnw⟩
      · exact .inl (hw.setPhase hf hk _ _ _ _)
      · rw [hwp] at hnw
        cases hnw

theorem map_snd_read (ws : List ℕ) : (ws.map (Prod.mk Mode.read)).map Prod.snd = ws := by
  rw [List.map_map]
  exact map_id ws

theorem QueueInv.wakeEligible (hq : QueueInv w) (hsw : s.waiters = w.lock.waiters) (r g : ℕ) :
    QueueInv ⟨s.wakeEligible.1, Table.wakeAll w.futures s.wakeEligible.2, r, g⟩ := by
  rcases wakeEligible_cases s with ⟨-, he⟩ | ⟨ws, q, -, hsplit, -, he⟩ |
    ⟨j, q, hsplit, -, he⟩ | ⟨j, q, -, -, he⟩
  · rw [he]
    exact hq.pop [] hsw.symm rfl r g
  · have hpop := hq.pop (ws.map (Prod.mk Mode.read)) (hsw ▸ hsplit)
      (l := { s with waiters := q }) rfl r g
    rw [map_snd_read] at hpop
    rw [he]
    exact hpop
  · rw [he]
    exact hq.pop [(.write, j)] (hsw ▸ hsplit) (l := { s with waiters := q }) rfl r g
  · rw [he]
    exact hq.pop [] hsw.symm rfl r g

theorem freeInv_wakeEligible (hq : QueueInv w) (hsw : s.waiters = w.lock.waiters) (r g : ℕ)
    (hgood : s.writerLocked = false → s.readers = 0 →
      readerAtFront s → s.writerPending → WokenWriter w) :
    FreeInv ⟨s.wakeEligible.1, Table.wakeAll w.futures s.wakeEligible.2, r, g⟩ := by
  rcases wakeEligible_cases s with ⟨hnil, he⟩ | ⟨ws, q, hws, hsplit, hrest, he⟩ |
    ⟨j, q, hsplit, -, he⟩ | ⟨j, q, -, hr, he⟩
  · rw [he]
    exact fun _ _ hne => absurd hnil hne
  · -- a batch of readers was popped
    rw [he]
    intro hl hr hne
    rcases hrest with rfl | ⟨j, q', rfl⟩
    · exact absurd rfl hne
    · refine .inl ((hgood hl hr ?_ ?_).wakeAll _ _ _ _)
      · obtain ⟨i, ws', rfl⟩ := exists_cons_of_ne_nil hws
        exact readerAtFront_iff.mpr ⟨i, _, hsplit⟩
      · exact writerPending_iff.mpr ⟨j, by rw [hsplit]; simp⟩
  · -- the writer at the front was popped
    rw [he]
    intro _ _ _
    have hj : w.futures[j]? = some ⟨.write, .parked false⟩ :=
      (hq.mem_iff .write j).mp (by rw [← hsw, hsplit]; exact mem_cons_self ..)
    refine .inl (wokenWriter_iff.mpr ⟨j, ⟨.write, .parked true⟩, ?_, rfl, rfl⟩)
    show (Table.wakeAll w.futures [j])[j]? = _
    rw [getElem?_wakeAll, hj]
    simp [Phase.wake]
  · rw [he]
    exact freeInv_of_held (.inr hr)

theorem phase_of_disciplined_cancel (hd : Disciplined w (.cancel i)) (hf : w.futures[i]? = some f)
    (hlive : f.phase.isLive) : f.phase = .fresh := by
  have hnp : f.phase.isParked = false := hd f hf
  cases hph : f.phase with
  | fresh => rfl
  | parked b => rw [hph] at hnp; cases hnp
  | finished | dropped => rw [hph] at hlive; cases hlive

theorem QueueInv.step (hq : QueueInv w) (hd : Disciplined w e)
    (hs : w.step e = some v) : QueueInv v := by
  cases e with
  | create m =>
    cases hs
    refine ⟨fun m' j => ?_, hq.nodup⟩
    show (m', j) ∈ w.lock.waiters ↔ (w.futures ++ [⟨m, .fresh⟩])[j]? = _
    rw [hq.mem_iff, getElem?_append]
    by_cases hj : j < w.futures.length
    · rw [if_pos hj]
    · rw [if_neg hj, getElem?_eq_none (by omega)]
      cases j - w.futures.length with
      | zero | succ k => simp
  | poll i =>
    obtain ⟨f, hf, -, rfl⟩ := World.step_poll.mp hs
    exact hq.poll hf (hd f hf)
  | cancel i =>
    obtain ⟨f, hf, hlive, rfl⟩ := World.step_cancel.mp hs
    have hp := phase_of_disciplined_cancel hd hf hlive
    exact hq.setPhase hf (by rw [hp]; simp) (by simp) rfl _ _
  | tryRead =>
    obtain ⟨-, -, rfl⟩ | rfl := step_tryRead hs
    · exact ⟨hq.mem_iff, hq.nodup⟩
    · exact hq
  | tryWrite =>
    obtain ⟨-, -, rfl⟩ | rfl := step_tryWrite hs
    · exact ⟨hq.mem_iff, hq.nodup⟩
    · exact hq
  | dropRead =>
    obtain ⟨-, rfl⟩ := World.step_dropRead.mp hs
    simp only [World.release, State.releaseRead]
    by_cases hlast : w.lock.readers - 1 = 0
    · rw [if_pos hlast]
      exact hq.wakeEligible (s := { w.lock with readers := w.lock.readers - 1 }) rfl _ _
    · rw [if_neg hlast]
      exact ⟨hq.mem_iff, hq.nodup⟩
  | dropWrite =>
    obtain ⟨-, rfl⟩ := World.step_dropWrite.mp hs
    exact hq.wakeEligible (s := { w.lock with writerLocked := false }) rfl _ _
  | downgrade =>
    obtain ⟨-, rfl⟩ := World.step_downgrade.mp hs
    exact hq.wakeEligible (s := { w.lock with writerLocked := false, readers := 1 }) rfl _ _

theorem FreeInv.step (hq : QueueInv w) (hfree : FreeInv w)
    (hd : Disciplined w e) (hns : ¬ SplitsQueue w e) (hs : w.step e = some v) : FreeInv v := by
  cases e with
  | create m =>
    cases hs
    intro hl hr hne
    rcases hfree hl hr hne with ⟨f, hf, hw⟩ | ⟨⟨f, hf, hw⟩, hnw⟩
    · exact .inl ⟨f, mem_append_left _ hf, hw⟩
    · exact .inr ⟨⟨f, mem_append_left _ hf, hw⟩, hnw⟩
  | poll i =>
    obtain ⟨f, hf, -, rfl⟩ := World.step_poll.mp hs
    exact hfree.poll hf
  | cancel i =>
    obtain ⟨f, hf, hlive, rfl⟩ := World.step_cancel.mp hs
    have hp := phase_of_disciplined_cancel hd hf hlive
    -- a woken future is not the fresh one that was dropped
    have hkeep : ∀ g : Future Mode, g ∈ w.futures → g.phase.isWoken →
        g ∈ Table.setPhase w.futures i .dropped := by
      intro g hg hw
      obtain ⟨j, hj⟩ := mem_iff_getElem?.mp hg
      have hij : i ≠ j := by
        rintro rfl
        rw [hf] at hj
        rw [← some.inj hj, hp] at hw
        cases hw
      refine mem_iff_getElem?.mpr ⟨j, ?_⟩
      rw [getElem?_setPhase, hj]
      simp [hij]
    intro hl hr hne
    rcases hfree hl hr hne with ⟨g, hg, hk, hw⟩ | ⟨⟨g, hg, hw⟩, hnw⟩
    · exact .inl ⟨g, hkeep g hg hw, hk, hw⟩
    · exact .inr ⟨⟨g, hkeep g hg hw, hw⟩, hnw⟩
  | tryRead =>
    obtain ⟨-, -, rfl⟩ | rfl := step_tryRead hs
    · exact freeInv_of_held (.inr (Nat.succ_ne_zero _))
    · exact hfree
  | tryWrite =>
    obtain ⟨-, -, rfl⟩ | rfl := step_tryWrite hs
    · exact freeInv_of_held (.inl rfl)
    · exact hfree
  | dropRead =>
    obtain ⟨-, rfl⟩ := World.step_dropRead.mp hs
    simp only [World.release, State.releaseRead]
    by_cases hlast : w.lock.readers - 1 = 0
    · rw [if_pos hlast]
      refine freeInv_wakeEligible hq (s := { w.lock with readers := w.lock.readers - 1 })
        rfl _ _ ?_
      intro hl _ hfront hwp
      by_contra hw
      exact hns ⟨⟨hl, by omega⟩, hfront, hwp, hw⟩
    · rw [if_neg hlast]
      exact freeInv_of_held (.inr hlast)
  | dropWrite =>
    obtain ⟨-, rfl⟩ := World.step_dropWrite.mp hs
    refine freeInv_wakeEligible hq (s := { w.lock with writerLocked := false }) rfl _ _ ?_
    intro _ hr hfront hwp
    by_contra hw
    exact hns ⟨hr, hfront, hwp, hw⟩
  | downgrade =>
    obtain ⟨-, rfl⟩ := World.step_downgrade.mp hs
    refine freeInv_wakeEligible hq (s := { w.lock with writerLocked := false, readers := 1 })
      rfl _ _ ?_
    intro _ hr
    exact absurd hr Nat.one_ne_zero

theorem not_stranded_of_inv (hq : QueueInv w) (hfree : FreeInv w) : ¬ Stranded w := by
  rintro ⟨hl, hr, ⟨f, hf, hp⟩, hnone⟩
  obtain ⟨i, hi⟩ := mem_iff_getElem?.mp hf
  have hasleep : f.phase = .parked false := by
    obtain ⟨b, hb⟩ := Phase.isParked_iff.mp hp
    have hnw := hnone f hf
    rw [hb] at hnw ⊢
    exact congrArg Phase.parked hnw
  have hmem : (f.kind, i) ∈ w.lock.waiters := by
    refine (hq.mem_iff f.kind i).mpr ?_
    rw [hi, ← hasleep]
  rcases hfree hl hr (ne_nil_of_mem hmem) with ⟨g, hg, -, hw⟩ | ⟨⟨g, hg, hw⟩, -⟩
  · exact absurd (hnone g hg) (by rw [hw]; simp)
  · exact absurd (hnone g hg) (by rw [hw]; simp)

theorem queueInv_init : QueueInv rwSystem.init := by
  refine ⟨fun m i => ?_, nodup_nil⟩
  simp [rwSystem, State.new]

theorem queueInv_of_reachable (h : rwSystem.ReachableUnder Disciplined w) : QueueInv w :=
  System.inv_of_reachableUnder queueInv_init (fun _ _ _ hi hd hs => hi.step hd hs) h

/-! ## After a splitting release -/

/-- The lock is free, a writer pending, and no writer awake. -/
structure Doomed (w : World) : Prop where
  queue : QueueInv w
  unlocked : w.lock.writerLocked = false
  readers : w.lock.readers = 0
  pending : w.lock.writerPending
  woken : ¬ WokenWriter w

theorem Doomed.stranded (h : Doomed w)
    (hnone : ∀ f ∈ w.futures, f.phase.isWoken = false) : Stranded w := by
  obtain ⟨i, hi⟩ := writerPending_iff.mp h.pending
  have hf := (h.queue.mem_iff .write i).mp hi
  exact ⟨h.unlocked, h.readers, ⟨_, mem_of_getElem? hf, rfl⟩, hnone⟩

theorem Doomed.poll (h : Doomed w) (hf : w.futures[i]? = some f) (hw : f.phase = .parked true) :
    Doomed (w.pollFuture i f.kind) ∧
      (w.pollFuture i f.kind).futures.countP (fun g => g.phase.isWoken) <
        w.futures.countP fun g => g.phase.isWoken := by
  have hk : f.kind = .read := by
    cases hk : f.kind with
    | read => rfl
    | write => exact absurd (wokenWriter_iff.mpr ⟨i, f, hf, hk, hw⟩) h.woken
  have hv : w.pollFuture i f.kind =
      { w with
        lock := { w.lock with waiters := w.lock.waiters ++ [(f.kind, i)] }
        futures := Table.setPhase w.futures i (.parked false) } := by
    rw [World.pollFuture, hk]
    simp [State.acquire, State.acquireRead, h.pending]
  have hcount := countP_modify (fun g : Future Mode => g.phase.isWoken)
    (fun g => { g with phase := .parked false }) hf
  rw [hv]
  refine ⟨⟨h.queue.park hf (by rw [hw]; simp) rfl _ _, h.unlocked, h.readers, ?_, ?_⟩, ?_⟩
  · obtain ⟨j, hj⟩ := writerPending_iff.mp h.pending
    exact writerPending_iff.mpr ⟨j, mem_append_left _ hj⟩
  · intro hww
    obtain ⟨j, g, hj, hgk, hgp⟩ := wokenWriter_iff.mp hww
    have hj' : (Table.setPhase w.futures i (.parked false))[j]? = some g := hj
    rw [getElem?_setPhase, map_eq_some_iff] at hj'
    obtain ⟨g', hg', he⟩ := hj'
    by_cases hij : i = j
    · rw [if_pos hij] at he
      rw [← he] at hgp
      cases hgp
    · rw [if_neg hij] at he
      exact h.woken (wokenWriter_iff.mpr ⟨j, g', hg', he ▸ hgk, he ▸ hgp⟩)
  · have h1 : f.phase.isWoken := by rw [hw]; rfl
    rw [h1] at hcount
    have h2 : (Phase.parked false).isWoken = false := rfl
    simp only [h2, Bool.toNat_true, Bool.toNat_false] at hcount
    show (Table.setPhase w.futures i (.parked false)).countP _ < _
    rw [Table.setPhase]
    omega

theorem Doomed.exists_stranded (h : Doomed w) :
    ∃ es v, rwSystem.run w es = some v ∧ rwSystem.Along Disciplined w es ∧ Stranded v := by
  -- the number of woken futures decreases with every poll
  induction hn : w.futures.countP (fun g => g.phase.isWoken) using Nat.strongRecOn
    generalizing w with
  | ind n ih =>
    by_cases hex : ∃ f ∈ w.futures, f.phase.isWoken
    · obtain ⟨f, hf, hw⟩ := hex
      obtain ⟨i, hi⟩ := mem_iff_getElem?.mp hf
      have hp := Phase.isWoken_iff.mp hw
      obtain ⟨hd, hlt⟩ := h.poll hi hp
      obtain ⟨es, v, hr, hA, hst⟩ := ih _ (hn ▸ hlt) hd rfl
      have hstep : rwSystem.step w (.poll i) = some (w.pollFuture i f.kind) :=
        World.step_poll.mpr ⟨f, hi, by rw [hp]; rfl, rfl⟩
      have hdis : Disciplined w (.poll i) := by
        intro g hg
        rw [hi] at hg
        rw [← some.inj hg, hp]
        simp
      exact ⟨.poll i :: es, v, System.run_cons_eq_some.mpr ⟨_, hstep, hr⟩,
        (System.along_cons_of_step hstep).mpr ⟨hdis, hA⟩, hst⟩
    · refine ⟨[], w, rfl, trivial, h.stranded fun f hf => ?_⟩
      simpa using fun hw => hex ⟨f, hf, hw⟩

theorem doomed_wakeEligible (hq : QueueInv w)
    (hsw : s.waiters = w.lock.waiters) (hl : s.writerLocked = false) (hr : s.readers = 0)
    (hfront : readerAtFront s) (hwp : s.writerPending) (hnw : ¬ WokenWriter w) (r g : ℕ) :
    Doomed ⟨s.wakeEligible.1, Table.wakeAll w.futures s.wakeEligible.2, r, g⟩ := by
  have hq' := hq.wakeEligible hsw r g
  obtain ⟨i, q₀, hi⟩ := readerAtFront_iff.mp hfront
  rcases wakeEligible_cases s with ⟨hnil, -⟩ | ⟨ws, q, -, hsplit, -, he⟩ |
    ⟨j, q, hsplit, -, -⟩ | ⟨j, q, hsplit, -, -⟩
  · rw [hi] at hnil
    cases hnil
  · rw [he] at hq' ⊢
    refine ⟨hq', hl, hr, ?_, ?_⟩
    · -- the queued writer is not in the batch
      obtain ⟨j, hj⟩ := writerPending_iff.mp hwp
      rw [hsplit, mem_append] at hj
      refine writerPending_iff.mpr ⟨j, hj.resolve_left fun hb => ?_⟩
      obtain ⟨k, -, hk⟩ := mem_map.mp hb
      cases hk
    · intro hww
      obtain ⟨j, f, hj, hk, hp⟩ := wokenWriter_iff.mp hww
      have hj' : (Table.wakeAll w.futures ws)[j]? = some f := hj
      rw [getElem?_wakeAll, map_eq_some_iff] at hj'
      obtain ⟨f', hf', hff⟩ := hj'
      by_cases hmem : j ∈ ws
      · have hread : (Mode.read, j) ∈ w.lock.waiters := by
          rw [← hsw, hsplit]
          exact mem_append_left _ (mem_map.mpr ⟨j, hmem, rfl⟩)
        rw [(hq.mem_iff .read j).mp hread] at hf'
        rw [if_pos hmem, ← some.inj hf'] at hff
        rw [← hff] at hk
        cases hk
      · rw [if_neg hmem] at hff
        exact hnw (wokenWriter_iff.mpr ⟨j, f', hf', hff ▸ hk, hff ▸ hp⟩)
  · rw [hi] at hsplit
    cases hsplit
  · rw [hi] at hsplit
    cases hsplit

theorem doomed_of_splitsQueue (hq : QueueInv w)
    (hsp : SplitsQueue w e) (hs : w.step e = some v) : Doomed v := by
  obtain ⟨hfrees, hfront, hwp, hnw⟩ := hsp
  cases e with
  | dropRead =>
    obtain ⟨-, rfl⟩ := World.step_dropRead.mp hs
    obtain ⟨hl, hr⟩ : w.lock.writerLocked = false ∧ w.lock.readers ≤ 1 := hfrees
    have hlast : w.lock.readers - 1 = 0 := by omega
    simp only [World.release, State.releaseRead]
    rw [if_pos hlast]
    exact doomed_wakeEligible hq (s := { w.lock with readers := w.lock.readers - 1 }) rfl hl hlast
      hfront hwp hnw _ _
  | dropWrite =>
    obtain ⟨-, rfl⟩ := World.step_dropWrite.mp hs
    exact doomed_wakeEligible hq (s := { w.lock with writerLocked := false }) rfl rfl hfrees
      hfront hwp hnw _ _
  | create m | poll i | cancel i | tryRead | tryWrite | downgrade => cases hfrees

/-! ## The result -/

/-- **The queue is stranded exactly through a splitting release.**  In every disciplined run
without one, no world is stranded; and a splitting release can be continued, by polls of the
futures it woke, to a stranded world. -/
theorem not_stranded_unless_splitsQueue (w : World) :
    (rwSystem.ReachableUnder (fun w e => Disciplined w e ∧ ¬ SplitsQueue w e) w → ¬ Stranded w) ∧
    (∀ e v, rwSystem.ReachableUnder Disciplined w → SplitsQueue w e → rwSystem.step w e = some v →
      ∃ es u, rwSystem.run v es = some u ∧ rwSystem.Along Disciplined v es ∧ Stranded u) := by
  constructor
  · intro h
    have hinv : QueueInv w ∧ FreeInv w := by
      refine System.inv_of_reachableUnder (I := fun w => QueueInv w ∧ FreeInv w)
        ⟨queueInv_init, fun _ _ hne => absurd rfl hne⟩ ?_ h
      rintro s e t ⟨hq, hfree⟩ ⟨hd, hns⟩ hs
      exact ⟨hq.step hd hs, hfree.step hq hd hns hs⟩
    exact not_stranded_of_inv hinv.1 hinv.2
  · intro e v hw hsp hs
    exact (doomed_of_splitsQueue (queueInv_of_reachable hw) hsp hs).exists_stranded

/-- A writer holds the lock, a reader and then a writer queue up, the first
writer releases: the reader is woken, parks again behind the queued writer, and
the free lock is stranded. -/
theorem exists_stranded_of_disciplined :
    ∃ w, rwSystem.ReachableUnder Disciplined w ∧ Stranded w := by
  refine ⟨⟨⟨false, 0, [(.write, 2), (.read, 1)]⟩,
    [⟨.write, .finished⟩, ⟨.read, .parked false⟩, ⟨.write, .parked false⟩], 0, 0⟩, ?_, by decide⟩
  exact ⟨[.create .write, .poll 0, .create .read, .poll 1, .create .write, .poll 2, .dropWrite,
    .poll 1], rfl, by decide⟩

theorem not_stranded_at_handover :
    (¬ Stranded ⟨⟨false, 0, []⟩, [⟨.write, .finished⟩, ⟨.write, .parked true⟩], 0, 0⟩) ∧
    ∃ es u, rwSystem.run ⟨⟨false, 0, [(.write, 2)]⟩,
        [⟨.write, .finished⟩, ⟨.read, .parked true⟩, ⟨.write, .parked false⟩], 0, 0⟩ es = some u ∧
      Stranded u := by
  constructor
  · exact (not_stranded_unless_splitsQueue _).1
      ⟨[.create .write, .poll 0, .create .write, .poll 1, .dropWrite], rfl, by decide⟩
  · obtain ⟨es, u, hr, -, hst⟩ := (not_stranded_unless_splitsQueue
      ⟨⟨true, 0, [(.read, 1), (.write, 2)]⟩,
        [⟨.write, .finished⟩, ⟨.read, .parked false⟩, ⟨.write, .parked false⟩], 0, 1⟩).2
      .dropWrite _
      ⟨[.create .write, .poll 0, .create .read, .poll 1, .create .write, .poll 2], rfl, by decide⟩
      (by decide) rfl
    exact ⟨es, u, hr, hst⟩

end RustyTokio.RwLock

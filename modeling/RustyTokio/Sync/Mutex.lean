import RustyTokio.Sync.Guards
import RustyTokio.Transition.Slots

/-!
# The mutex

`src/sync/mutex.rs`.  The state under the inner mutex is the lock bit and a queue of bare wakers: a
poll that finds the bit set queues the waker of its context, and `release` clears the bit and pops
one waker, whoever's it is.
-/

namespace RustyTokio.Mutex

open Transition Guards World

structure State where
  locked : Bool
  waiters : List ℕ
  deriving DecidableEq

namespace State

def new : State := ⟨false, []⟩

def acquire (s : State) (waker : ℕ) : State × Bool :=
  if !s.locked then ({ s with locked := true }, true)
  else ({ s with waiters := s.waiters ++ [waker] }, false)

def tryAcquire (s : State) : State × Bool :=
  if s.locked then (s, false) else ({ s with locked := true }, true)

def release (s : State) : State × List ℕ :=
  (⟨false, s.waiters.drop 1⟩, s.waiters.take 1)

variable {s t : State} {waker : ℕ}

theorem acquire_eq_true (h : s.acquire waker = (t, true)) :
    s.locked = false ∧ t = { s with locked := true } := by
  obtain ⟨hc, ht⟩ := eq_of_ite_true h
  exact ⟨by simpa using hc, ht⟩

theorem acquire_eq_false (h : s.acquire waker = (t, false)) :
    s.locked ∧ t = { s with waiters := s.waiters ++ [waker] } := by
  obtain ⟨hc, ht⟩ := eq_of_ite_false h
  exact ⟨by simpa using hc, ht⟩

theorem tryAcquire_eq_true (h : s.tryAcquire = (t, true)) :
    s.locked = false ∧ t = { s with locked := true } := by
  cases hl : s.locked with
  | false =>
    rw [tryAcquire, hl] at h
    exact ⟨rfl, (Prod.mk.inj h).1.symm⟩
  | true =>
    rw [tryAcquire, hl] at h
    exact absurd (Prod.mk.inj h).2 Bool.false_ne_true

theorem tryAcquire_eq_false (h : s.tryAcquire = (t, false)) : t = s := by
  cases hl : s.locked with
  | false =>
    rw [tryAcquire, hl] at h
    exact absurd (Prod.mk.inj h).2.symm Bool.false_ne_true
  | true =>
    rw [tryAcquire, hl] at h
    exact (Prod.mk.inj h).1.symm

end State

def lock : Lock State Unit where
  new := State.new
  exclusive _ := true
  acquire s _ waker := s.acquire waker
  tryAcquire s _ := s.tryAcquire
  release s _ := s.release
  downgrade _ _ := none
  held s _ := s.locked.toNat

theorem lock_takes {s t : State} (hs : s.locked = false) (ht : t = { s with locked := true }) :
    lock.Takes s () t := by
  have hheld : ∀ n, lock.held s n = 0 := fun n => by
    change s.locked.toNat = 0
    rw [hs]
    rfl
  refine ⟨fun n _ => hheld n, fun _ => hheld, fun n => ?_⟩
  rw [hheld, ht]
  rfl

theorem lock_lawful : lock.Lawful where
  new _ := rfl
  acquire h := by
    obtain ⟨hs, ht⟩ := State.acquire_eq_true h
    exact lock_takes hs ht
  wait h := by rw [(State.acquire_eq_false h).2]; rfl
  tryAcquire h := by
    obtain ⟨hs, ht⟩ := State.tryAcquire_eq_true h
    exact lock_takes hs ht
  tryFail h := by rw [State.tryAcquire_eq_false h]
  release s _ _ := by
    change 0 = s.locked.toNat - 1
    cases s.locked <;> rfl
  downgrade h := absurd h (by simp [lock])

/-! ## The waiters -/

def slots (_ : Request Unit) : ℕ := 1

def room (w : World State Unit) : Room (Request Unit) :=
  ⟨(!w.lock.locked).toNat, w.futures, w.lock.waiters⟩

/-- The mutex is free, a live `lock` future is parked, and no parked one has been woken
since its last poll. -/
structure Stranded (w : World State Unit) : Prop where
  unlocked : w.lock.locked = false
  parked : ∃ f ∈ w.futures, f.phase.isParked = true
  still : ∀ f ∈ w.futures, f.phase ≠ .parked true

/-- A guard is dropped while the front waker is not that of a sleeping future, or a
woken future is dropped, while a future sleeps and no other is woken. -/
def wastes (w : World State Unit) : Label Unit → Bool
  | .dropGuard _ => (room w).wasteful slots
  | .map k true => !(w.guards[k]?.any fun g => g.owned) && (room w).wasteful slots
  | .drop i => (room w).abandons slots i
  | _ => false

variable {w : World State Unit} {k : ℕ} {g : Guard Unit}

theorem stranded_of_room (h : Room.Stranded slots (room w)) : Stranded w := by
  obtain ⟨i, f, hi, -, hp⟩ := Room.asleep_iff.mp h.asleep
  refine ⟨?_, ⟨f, List.mem_of_getElem? hi, Phase.isParked_iff.mpr ⟨false, hp⟩⟩, h.still⟩
  have hfree : 0 < (!w.lock.locked).toNat := h.free
  cases hl : w.lock.locked with
  | false => rfl
  | true => simp [hl] at hfree

theorem Stranded.room (h : Stranded w) : Room.Stranded slots (room w) := by
  obtain ⟨hl, ⟨f, hf, hp⟩, hs⟩ := h
  obtain ⟨i, hi⟩ := List.getElem?_of_mem hf
  refine ⟨?_, Room.asleep_iff.mpr ⟨i, f, hi, rfl, ?_⟩, hs⟩
  · change 0 < (!w.lock.locked).toNat
    rw [hl]
    exact Nat.one_pos
  · obtain ⟨b, hb⟩ := Phase.isParked_iff.mp hp
    cases b with
    | false => exact hb
    | true => exact absurd hb (hs f hf)

theorem stranded_of_overdrawn (h : Room.Overdrawn slots (room w)) : Stranded w := by
  have hone : (room w).free ≤ 1 := Bool.toNat_le _
  have hshort := h.short
  have hzero : (room w).woken slots = 0 := by omega
  refine stranded_of_room (h.stranded fun f hf hp => ?_)
  refine List.countP_eq_zero.mp hzero f hf ?_
  rw [Room.wokenSingle, Phase.isWoken_iff.mpr hp]
  rfl

theorem locked_of_guard (h : w.Covered lock) (hk : w.guards[k]? = some g) : w.lock.locked := by
  have hheld : w.lock.locked.toNat = 1 := by
    have hone := h.held_of_exclusive hk rfl ()
    simpa [lock] using hone
  cases hl : w.lock.locked with
  | true => rfl
  | false =>
    rw [hl] at hheld
    cases hheld

theorem room_release (h : w.Covered lock) (hk : w.guards[k]? = some g) :
    room (World.release lock { w with guards := w.guards.eraseIdx k } g) =
      (room w).release 1 := by
  have hl := locked_of_guard h hk
  simp only [room, Room.release, World.release, lock, State.release, hl]
  rfl

/-- **What a step does to the room.**  It keeps the balance unless it wastes a wake, and
wasting one leaves nobody to take the slot. -/
theorem room_of_step {v : World State Unit} {l : Label Unit} (h : w.Covered lock)
    (hs : World.Steps lock w l v) :
    (wastes w l = false → Room.Balanced slots (room w) → Room.Balanced slots (room v)) ∧
      (wastes w l → Room.Overdrawn slots (room v)) := by
  -- what cannot waste a wake only has to keep the balance
  have quiet : ∀ {l' : Label Unit} {u}, wastes w l' = false →
      (Room.Balanced slots (room w) → Room.Balanced slots (room u)) →
      (wastes w l' = false → Room.Balanced slots (room w) → Room.Balanced slots (room u)) ∧
        (wastes w l' → Room.Overdrawn slots (room u)) :=
    fun hq hb => ⟨fun _ => hb, fun hw => absurd (hq.symm.trans hw) Bool.false_ne_true⟩
  cases hs with
  | start hh => exact quiet rfl fun hb => hb.create _
  | @poll i f l hi hf ha =>
    refine quiet rfl fun hb => ?_
    obtain ⟨hl, rfl⟩ := State.acquire_eq_true ha
    have hfin := hb.finish hi
    simpa [room, World.hand, Room.setPhase, slots, hl] using hfin
  | @park i f l hi hf ha =>
    refine quiet rfl fun hb => ?_
    obtain ⟨hl, rfl⟩ := State.acquire_eq_false ha
    refine hb.park hi ?_
    change (!w.lock.locked).toNat < 1
    rw [hl]
    exact Nat.one_pos
  | @drop i f hi hf => exact ⟨fun hc hb => hb.drop hi hc, Room.overdrawn_of_abandons hi⟩
  | @tryTaken m owned l hh ha =>
    refine quiet rfl fun hb => ?_
    obtain ⟨hl, rfl⟩ := State.tryAcquire_eq_true ha
    have hclaim := hb.claim 1
    simpa [room, World.hand, hl] using hclaim
  | tryFailed hh ha =>
    refine quiet rfl fun hb => ?_
    rw [State.tryAcquire_eq_false ha]
    exact hb
  | dropGuard hk =>
    rw [room_release h hk]
    exact ⟨fun hc hb => hb.release_one hc, Room.overdrawn_of_wasteful⟩
  | map hk he hm | cloneHandle hh | dropHandle hh => exact quiet rfl id
  | @mapUnwinds k g hk he hm ho =>
    have hw : wastes w (.map k true) = (room w).wasteful slots := by
      simp [wastes, hk, ho]
    rw [room_release h hk, hw]
    exact ⟨fun hc hb => hb.release_one hc, Room.overdrawn_of_wasteful⟩
  | @mapLoses k g hk he hm ho =>
    -- the lock stays as it is, and nobody is woken
    have hw : wastes w (.map k true) = false := by simp [wastes, hk, ho]
    exact quiet hw id
  | downgrade hk hm hd => simp [lock] at hd

theorem balanced_init : Room.Balanced slots (room (system lock).init) := by
  refine ⟨fun i f hi _ => ?_, fun ha => ?_⟩
  · simp [system, room] at hi
  · simp [system, room, Room.asleep] at ha

theorem balanced_of_reachableUnder
    (h : (system lock).ReachableUnder (fun w l => wastes w l = false) w) :
    Room.Balanced slots (room w) := by
  have key : w.Covered lock ∧ Room.Balanced slots (room w) := by
    refine System.inv_of_reachableUnder
      (I := fun w : World State Unit => w.Covered lock ∧ Room.Balanced slots (room w))
      ⟨covered_init lock_lawful, balanced_init⟩ ?_ h
    rintro w l v ⟨hc, hb⟩ hl hs
    have hstep := steps_of_step hs
    exact ⟨(hc.step lock_lawful hstep).1, (room_of_step hc hstep).1 hl hb⟩
  exact key.2

/-- **A waiter is stranded only if a wake is wasted.**  In every run whose steps waste no wake, no
state has a waiter stranded; and any step that wastes one strands a waiter. -/
theorem waiter_stranded_only_if_wasted {w : World State Unit} (hw : (system lock).Reachable w) :
    ((system lock).ReachableUnder (fun w l => wastes w l = false) w → ¬ Stranded w) ∧
      ∀ l v, wastes w l = true → w.step lock l = some v → Stranded v := by
  constructor
  · intro hunder hst
    exact (balanced_of_reachableUnder hunder).not_stranded hst.room
  · intro l v hl hs
    have hc := covered_of_reachable lock_lawful hw
    exact stranded_of_overdrawn ((room_of_step hc (steps_of_step hs)).2 hl)

theorem waiter_stranded_after_cancel :
    ∃ w v : World State Unit, (system lock).Reachable w ∧ ¬ Stranded w ∧
      w.step lock (.dropGuard 0) = some v ∧ Stranded v := by
  have hw : (system lock).ReachableUnder (fun w l => wastes w l = false) _ :=
    ⟨[.tryAcquire () false, .start () false, .poll 0, .start () false, .poll 1, .drop 0],
      rfl, by decide⟩
  obtain ⟨hsafe, hbad⟩ := waiter_stranded_only_if_wasted hw.reachable
  exact ⟨_, _, hw.reachable, hsafe hw, rfl, hbad (.dropGuard 0) _ (by decide) rfl⟩

/-- **A waiter can be stranded.**  The guard's one wake goes to a `lock` future that was
dropped; the other one sleeps on beside a free mutex. -/
theorem exists_stranded_waiter : ∃ w, (system lock).Reachable w ∧ Stranded w := by
  refine ⟨⟨⟨false, [1]⟩, [⟨⟨(), false⟩, .dropped⟩, ⟨⟨(), false⟩, .parked false⟩], [], 1, 1⟩,
    ⟨[.tryAcquire () false, .start () false, .poll 0, .start () false, .poll 1, .drop 0,
      .dropGuard 0], rfl⟩, rfl, ?_, by decide⟩
  exact ⟨⟨⟨(), false⟩, .parked false⟩, by decide, rfl⟩

end RustyTokio.Mutex

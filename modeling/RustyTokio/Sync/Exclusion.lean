import RustyTokio.Sync.Mutex

/-!
# Exclusion, and what owned guards leave behind

The two locks of the crate under the guards of `Sync.Guards`: the mutex, with one exclusive mode,
and the reader/writer lock, with a shared mode besides.

Both have a `map` on their owned guard that puts the guard into a `ManuallyDrop` before it calls the
closure and clones the guard's `Arc` after.
-/

namespace RustyTokio

open Transition Guards World RwLock

namespace RwLock

namespace State

variable {ω : Type}

def tryAcquire (s : State ω) : Mode → State ω × Bool
  | .read => s.tryAcquireRead
  | .write => s.tryAcquireWrite

def release (s : State ω) : Mode → State ω × List ω
  | .read => s.releaseRead
  | .write => s.releaseWrite

def held (s : State ω) : Mode → ℕ
  | .read => s.readers
  | .write => s.writerLocked.toNat

def downgradeFrom (s : State ω) : Mode → Option (Mode × State ω × List ω)
  | .read => none
  | .write => some (.read, s.downgrade)

end State

def lock : Lock (State ℕ) Mode where
  new := State.new
  exclusive m := decide (m = .write)
  acquire := State.acquire
  tryAcquire := State.tryAcquire
  release := State.release
  downgrade := State.downgradeFrom
  held := State.held

variable {s t : State ℕ} {w : Guards.World (State ℕ) Mode}

theorem lock_takes_read
    (h : (!s.writerLocked && !s.writerPending) ∧ t = { s with readers := s.readers + 1 }) :
    lock.Takes s .read t := by
  obtain ⟨hc, rfl⟩ := h
  have hw : s.writerLocked = false := by simpa using (Bool.and_eq_true_iff.mp hc).1
  refine ⟨fun n hn => ?_, by simp [lock], fun n => ?_⟩
  · obtain rfl : n = .write := of_decide_eq_true hn
    change s.writerLocked.toNat = 0
    rw [hw]
    rfl
  · cases n <;> rfl

theorem lock_takes_write
    (h : (!s.writerLocked && decide (s.readers = 0)) ∧ t = { s with writerLocked := true }) :
    lock.Takes s .write t := by
  obtain ⟨hc, rfl⟩ := h
  obtain ⟨hw, hr⟩ := Bool.and_eq_true_iff.mp hc
  have hw : s.writerLocked = false := by simpa using hw
  have hr : s.readers = 0 := of_decide_eq_true hr
  have hheld : ∀ n, lock.held s n = 0 := by
    intro n
    cases n with
    | read => exact hr
    | write =>
      change s.writerLocked.toNat = 0
      rw [hw]
      rfl
  refine ⟨fun n _ => hheld n, fun _ => hheld, fun n => ?_⟩
  rw [hheld]
  cases n with
  | read => exact hr
  | write => rfl

theorem lock_lawful : lock.Lawful where
  new n := by cases n <;> rfl
  acquire {s m i t} h := by
    cases m with
    | read => exact lock_takes_read (eq_of_ite_true h)
    | write => exact lock_takes_write (eq_of_ite_true h)
  wait {s m i t} h := by
    cases m with
    | read | write =>
      rw [(eq_of_ite_false h).2]
      rfl
  tryAcquire {s m t} h := by
    cases m with
    | read => exact lock_takes_read (eq_of_ite_true h)
    | write => exact lock_takes_write (eq_of_ite_true h)
  tryFail {s m t} h := by
    cases m with
    | read | write => rw [(eq_of_ite_false h).2]
  release s m n := by
    cases m with
    | read =>
      obtain ⟨hw, hr⟩ := s.releaseRead_spec
      cases n with
      | read => exact hr
      | write =>
        change s.releaseRead.1.writerLocked.toNat = s.writerLocked.toNat
        rw [hw]
    | write =>
      obtain ⟨hw, hr, -, -⟩ := State.wakeEligible_spec { s with writerLocked := false }
      cases n with
      | read => exact hr
      | write =>
        change s.releaseWrite.1.writerLocked.toNat = s.writerLocked.toNat - 1
        rw [State.releaseWrite, hw]
        cases s.writerLocked <;> rfl
  downgrade {s m m' t wakers} h := by
    cases m with
    | read => simp [lock, State.downgradeFrom] at h
    | write =>
      obtain ⟨hw, hr, -, -⟩ :=
        State.wakeEligible_spec { s with writerLocked := false, readers := 1 }
      have hd : (Mode.read, s.downgrade) = (m', t, wakers) := Option.some.inj h
      obtain ⟨rfl, hpair⟩ := Prod.mk.inj hd
      have ht : s.downgrade.1 = t := congrArg Prod.fst hpair
      refine ⟨rfl, fun n => ?_⟩
      rw [← ht]
      cases n with
      | read => exact hr
      | write =>
        change s.downgrade.1.writerLocked.toNat = 0
        rw [State.downgrade, hw]
        rfl

/-- The writer bit says whether the one write guard is there, plain, owned or mapped; the
reader count is the number of read guards; and a write guard is the only guard. -/
structure Exclusive (w : Guards.World (State ℕ) Mode) : Prop where
  locked : w.lock.writerLocked = true ↔ w.count .write = 1
  unlocked : w.lock.writerLocked = false ↔ w.count .write = 0
  readers : w.lock.readers = w.count .read
  alone : ∀ g ∈ w.guards, g.mode = .write → w.guards = [g]

theorem exclusive_of_reachableUnder
    (h : (system lock).ReachableUnder (fun w l => w.loses l = false) w) : Exclusive w := by
  have hheld := Guards.World.held_of_reachableUnder lock_lawful h
  have hwrite : w.lock.writerLocked.toNat = w.count .write := hheld .write
  refine ⟨?_, ?_, hheld .read, fun g hg hm => ?_⟩
  · rw [← hwrite]
    cases w.lock.writerLocked <;> simp
  · rw [← hwrite]
    cases w.lock.writerLocked <;> simp
  · exact (Guards.World.covered_of_reachable lock_lawful h.reachable).alone g hg (decide_eq_true hm)

theorem locked_of_stuck (h : Guards.World.Stuck lock w) : w.lock.writerLocked := by
  obtain ⟨n, he, hn⟩ := h.held
  obtain rfl : n = .write := of_decide_eq_true he
  have hpos : 0 < w.lock.writerLocked.toNat := hn
  cases hl : w.lock.writerLocked with
  | true => rfl
  | false =>
    rw [hl] at hpos
    cases hpos

end RwLock

namespace Mutex

/-- The mutex is locked if there is a guard, and there is at most one. -/
structure Exclusive (w : World State Unit) : Prop where
  locked : w.lock.locked = true ↔ w.guards.length = 1
  unlocked : w.lock.locked = false ↔ w.guards = []

variable {w : World State Unit}

theorem exclusive_of_reachableUnder
    (h : (system lock).ReachableUnder (fun w l => w.loses l = false) w) : Exclusive w := by
  have hheld : w.lock.locked.toNat = w.count () := held_of_reachableUnder lock_lawful h ()
  have hcount : w.count () = w.guards.length :=
    List.countP_eq_length.mpr fun g _ => decide_eq_true rfl
  rw [hcount] at hheld
  constructor
  · rw [← hheld]
    cases w.lock.locked <;> simp
  · rw [← List.length_eq_zero_iff, ← hheld]
    cases w.lock.locked <;> simp

theorem locked_of_stuck (h : World.Stuck lock w) : w.lock.locked := by
  obtain ⟨n, -, hn⟩ := h.held
  have hpos : 0 < w.lock.locked.toNat := hn
  cases hl : w.lock.locked with
  | true => rfl
  | false =>
    rw [hl] at hpos
    cases hpos

end Mutex

namespace Guards

/-- **Exclusion, unless a hold is lost.**  In every run of either lock in which no closure panics
in the `map` of an owned guard, the lock says which guards there are.  After such a panic there is
no guard, and the lock stays locked in every state that can still be reached. -/
theorem exclusive_unless_lost {w : World (RwLock.State ℕ) RwLock.Mode}
    {m : World Mutex.State Unit} (hw : (system RwLock.lock).Reachable w)
    (hm : (system Mutex.lock).Reachable m) :
    (((system RwLock.lock).ReachableUnder (fun w l => w.loses l = false) w → RwLock.Exclusive w) ∧
      ((system Mutex.lock).ReachableUnder (fun w l => w.loses l = false) m → Mutex.Exclusive m)) ∧
    (∀ l v ls u, w.loses l = true → w.step RwLock.lock l = some v →
      (system RwLock.lock).run v ls = some u → u.lock.writerLocked = true ∧ u.guards = []) ∧
    ∀ l v ls u, m.loses l = true → m.step Mutex.lock l = some v →
      (system Mutex.lock).run v ls = some u → u.lock.locked = true ∧ u.guards = [] := by
  refine ⟨⟨exclusive_of_reachableUnder, Mutex.exclusive_of_reachableUnder⟩, ?_, ?_⟩
  · intro l v ls u hl hs hr
    have hcov := covered_of_reachable lock_lawful hw
    have hstuck := (hcov.stuck hl (steps_of_step hs)).run lock_lawful hr
    exact ⟨locked_of_stuck hstuck, hstuck.guards⟩
  · intro l v ls u hl hs hr
    have hcov := covered_of_reachable Mutex.lock_lawful hm
    have hstuck := (hcov.stuck hl (steps_of_step hs)).run Mutex.lock_lawful hr
    exact ⟨Mutex.locked_of_stuck hstuck, hstuck.guards⟩

theorem lost_after_panic :
    ∃ (w v : World (RwLock.State ℕ) RwLock.Mode) (m n : World Mutex.State Unit),
      RwLock.Exclusive w ∧ Mutex.Exclusive m ∧
      w.step RwLock.lock (.map 0 true) = some v ∧ m.step Mutex.lock (.map 0 true) = some n ∧
      (v.lock.writerLocked = true ∧ v.guards = []) ∧ (n.lock.locked = true ∧ n.guards = []) := by
  have hw : (system RwLock.lock).ReachableUnder (fun w l => w.loses l = false) _ :=
    ⟨[.tryAcquire .write true], rfl, by decide⟩
  have hm : (system Mutex.lock).ReachableUnder (fun w l => w.loses l = false) _ :=
    ⟨[.tryAcquire () true], rfl, by decide⟩
  obtain ⟨⟨hrw, hmu⟩, hrwLost, hmuLost⟩ := exclusive_unless_lost hw.reachable hm.reachable
  exact ⟨_, _, _, _, hrw hw, hmu hm, rfl, rfl, hrwLost (.map 0 true) _ [] _ rfl rfl rfl,
    hmuLost (.map 0 true) _ [] _ rfl rfl rfl⟩

/-- **A lock can be held by nobody.**  `try_write_owned` and `try_lock_owned`, then `map`
with a closure that panics. -/
theorem exists_held_by_nobody : (∃ w, (system RwLock.lock).Reachable w ∧ ¬ RwLock.Exclusive w) ∧
      ∃ m, (system Mutex.lock).Reachable m ∧ ¬ Mutex.Exclusive m := by
  refine ⟨⟨⟨⟨true, 0, []⟩, [], [], 1, 2⟩, ⟨[.tryAcquire .write true, .map 0 true], rfl⟩, ?_⟩,
    ⟨⟨true, []⟩, [], [], 1, 2⟩, ⟨[.tryAcquire () true, .map 0 true], rfl⟩, ?_⟩ <;> intro h
  · exact absurd (h.locked.mp rfl) (by decide)
  · exact absurd (h.locked.mp rfl) (by decide)

/-- **No reference is leaked, unless an owned guard is mapped.**  In every run of either lock
without such a `map`, the strong count is the number of the user's handles and the live owned
guards.  After one it is too large in every state that can still be reached. -/
theorem unleaked_unless_mapped {w : World (RwLock.State ℕ) RwLock.Mode}
    {m : World Mutex.State Unit} (hw : (system RwLock.lock).Reachable w)
    (hm : (system Mutex.lock).Reachable m) :
    (((system RwLock.lock).ReachableUnder (fun w l => w.mapsOwned l = false) w →
        w.strong = w.handles + w.owned) ∧
      ((system Mutex.lock).ReachableUnder (fun w l => w.mapsOwned l = false) m →
        m.strong = m.handles + m.owned)) ∧
    (∀ l v ls u, w.mapsOwned l = true → w.step RwLock.lock l = some v →
      (system RwLock.lock).run v ls = some u → u.handles + u.owned < u.strong) ∧
    ∀ l v ls u, m.mapsOwned l = true → m.step Mutex.lock l = some v →
      (system Mutex.lock).run v ls = some u → u.handles + u.owned < u.strong :=
  ⟨⟨strong_of_reachableUnder, strong_of_reachableUnder⟩,
    fun _ _ _ _ hl hs hr => leaked_of_run (leaked_of_mapsOwned hw hl hs) hr,
    fun _ _ _ _ hl hs hr => leaked_of_run (leaked_of_mapsOwned hm hl hs) hr⟩

theorem leaked_after_map :
    ∃ (w v u : World (RwLock.State ℕ) RwLock.Mode) (m n o : World Mutex.State Unit),
      w.strong = w.handles + w.owned ∧ m.strong = m.handles + m.owned ∧
      w.step RwLock.lock (.map 0 false) = some v ∧ m.step Mutex.lock (.map 0 false) = some n ∧
      (system RwLock.lock).run v [.dropGuard 0] = some u ∧
      (system Mutex.lock).run n [.dropGuard 0] = some o ∧
      u.handles + u.owned < u.strong ∧ o.handles + o.owned < o.strong := by
  have hw : (system RwLock.lock).ReachableUnder (fun w l => w.mapsOwned l = false) _ :=
    ⟨[.tryAcquire .write true], rfl, by decide⟩
  have hm : (system Mutex.lock).ReachableUnder (fun w l => w.mapsOwned l = false) _ :=
    ⟨[.tryAcquire () true], rfl, by decide⟩
  obtain ⟨⟨hrw, hmu⟩, hrwLeak, hmuLeak⟩ := unleaked_unless_mapped hw.reachable hm.reachable
  exact ⟨_, _, _, _, _, _, hrw hw, hmu hm, rfl, rfl, rfl, rfl,
    hrwLeak (.map 0 false) _ [.dropGuard 0] _ rfl rfl rfl,
    hmuLeak (.map 0 false) _ [.dropGuard 0] _ rfl rfl rfl⟩

/-- **A reference can be leaked.**  An owned guard of either lock is mapped and the mapped
guard dropped: one handle is left, and two references. -/
theorem exists_leaked_reference :
    (∃ w, (system RwLock.lock).Reachable w ∧ w.strong ≠ w.handles + w.owned) ∧
      ∃ m, (system Mutex.lock).Reachable m ∧ m.strong ≠ m.handles + m.owned := by
  refine ⟨⟨⟨⟨false, 0, []⟩, [], [], 1, 2⟩,
      ⟨[.tryAcquire .write true, .map 0 false, .dropGuard 0], rfl⟩, by decide⟩,
    ⟨⟨false, []⟩, [], [], 1, 2⟩, ⟨[.tryAcquire () true, .map 0 false, .dropGuard 0], rfl⟩,
    by decide⟩

end Guards
end RustyTokio

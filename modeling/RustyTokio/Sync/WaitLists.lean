import RustyTokio.Sync.BroadcastDelivery
import RustyTokio.Sync.WatchUpdates

/-!
# The wait lists of `broadcast` and `watch`

Wakers leave the list of a channel only all at once.  `Receiver::poll_recv` of `broadcast` pushes
one with every poll that has to wait, `Receiver::changed` of `watch` only with the first, and the
drop of a future takes none out.
-/

namespace RustyTokio

open Transition Option Bool Table

variable {α : Type}

namespace Broadcast
namespace World

/-- A poll of `recv` for this receiver would be pending. -/
def waits (w : World α) (r : ℕ) : Bool :=
  match w.receivers[r]? with
  | none => false
  | some rcv => decide (w.inner.nextSeq ≤ rcv.nextToRead) && decide (w.inner.sendersAlive ≠ 0)

/-- A parked future that still has to wait is polled again, or dropped. -/
def leaks (w : World α) : Label α → Bool
  | .poll i _ | .drop i => w.futures[i]?.any fun f => f.phase.isParked && w.waits f.kind
  | _ => false

def parked (w : World α) : ℕ := w.futures.countP fun f => f.phase.isParked

variable {w v : World α} {l : Label α} {k n : ℕ} {result : Except TryRecvError α} {r : ℕ}
  {rcv rcv' : Receiver α}

theorem waits_mono (h : w.waits k) (hr : ∀ (r : ℕ) (rcv : Receiver α), w.receivers[r]? = some rcv →
      ∃ rcv', v.receivers[r]? = some rcv' ∧ rcv.nextToRead ≤ rcv'.nextToRead)
    (hseq : v.inner.nextSeq = w.inner.nextSeq)
    (ha : w.inner.sendersAlive ≠ 0 → v.inner.sendersAlive ≠ 0) : v.waits k := by
  rw [waits] at h ⊢
  cases hk : w.receivers[k]? with
  | none => simp [hk] at h
  | some rcv =>
    obtain ⟨rcv', hk', hle⟩ := hr k rcv hk
    simp only [hk, hk', hseq, and_eq_true, decide_eq_true_eq] at h ⊢
    exact ⟨le_trans h.1 hle, ha h.2⟩

theorem waits_of_set (h : w.waits k) (hr : w.receivers[r]? = some rcv)
    (hle : rcv.nextToRead ≤ rcv'.nextToRead) (hv : v.receivers = w.receivers.set r rcv')
    (hseq : v.inner.nextSeq = w.inner.nextSeq)
    (ha : v.inner.sendersAlive = w.inner.sendersAlive) : v.waits k := by
  refine waits_mono h ?_ hseq (fun hne => ha ▸ hne)
  rw [hv]
  exact set_of_some (R := fun a b : Receiver α => a.nextToRead ≤ b.nextToRead)
    (fun _ => le_refl _) hr hle

theorem nextToRead_le (hn : w.inner.Reads rcv.nextToRead n result) :
    rcv.nextToRead ≤ (rcv.record n (toPoll result)).nextToRead := by
  cases hn with
  | lagged hb => exact le_of_lt hb
  | ok hb hv hn => exact Nat.le_succ _
  | closed hn ha | empty hn ha => exact le_refl _

theorem waits_of_ready
    (hr : w.receivers[r]? = some rcv) (hn : w.inner.Reads rcv.nextToRead n result)
    (hp : (toPoll result).isPending = false) : w.waits r = false := by
  rw [waits, hr]
  cases hn with
  | lagged hb =>
    have hlt := lt_of_lt_of_le hb (Nat.sub_le _ _)
    simp [not_le.mpr hlt]
  | ok hb hv hn => simp [not_le.mpr hn]
  | closed hn ha => simp [ha]
  | empty hn ha => exact absurd hp Bool.noConfusion

theorem bounded_of_step (h : Lot.Bounded w.waits w.futures w.inner.waiters)
    (hl : w.leaks l = false) (hs : Steps w l v) :
    Lot.Bounded v.waits v.futures v.inner.waiters := by
  cases hs with
  | send hs hr | dropLast hs ha => exact Nat.zero_le _
  | subscribe hs =>
    exact h.mono fun _ hk =>
      waits_mono hk (fun _ rcv hr => ⟨rcv, append_of_some hr _, le_refl _⟩) rfl id
  | cloneSender hs | upgrade ha =>
    exact h.mono fun _ hk =>
      waits_mono hk (fun _ rcv hr => ⟨rcv, hr, le_refl _⟩) rfl (fun _ => Nat.succ_ne_zero _)
  | dropSender hs ha =>
    exact h.mono fun _ hk =>
      waits_mono hk (fun _ rcv hr => ⟨rcv, hr, le_refl _⟩) rfl (fun _ => ha)
  | wakeNext hk => exact h.wakeNext hk
  | @dropReceiver r rcv hr ha =>
    have hle : rcv.nextToRead ≤ { rcv with alive := false }.nextToRead := le_refl _
    exact h.mono fun _ hk => waits_of_set hk hr hle rfl rfl rfl
  | tryRecv hr hn =>
    exact h.mono fun _ hk => waits_of_set hk hr (nextToRead_le hn) rfl rfl rfl
  | recv => exact h.snoc _
  | @finish i waker f rcv n result hi hr hn hp =>
    have hf : w.waits f.kind = false := waits_of_ready hr hn hp
    refine (h.set hi (g := ⟨f.kind, waker, .finished⟩) fun hold => ?_).mono fun _ hk =>
      waits_of_set hk hr (nextToRead_le hn) rfl rfl rfl
    simp [hf] at hold
  | @park i waker f rcv hi hr hn ha =>
    simp only [leaks, hi, any_some] at hl
    have hwaits : w.waits f.kind := by simp [waits, hr, hn, ha]
    exact (h.park hi hl (g := ⟨f.kind, waker, .parked false⟩) hwaits waker).mono fun _ hk =>
      waits_of_set hk hr le_rfl rfl rfl rfl
  | @drop i f hi =>
    simp only [leaks, hi, any_some] at hl
    exact h.set hi fun hold => absurd (hl.symm.trans hold) Bool.false_ne_true
  | weak n | fails => exact h

theorem poll_of_waits {f : Sleeper ℕ} {i waker : ℕ} (hi : w.futures[i]? = some f)
    (hf : w.waits f.kind) (hs : w.step (.poll i waker) = some v) :
    v.inner.waiters = w.inner.waiters ++ [waker] ∧
      v.futures = w.futures.set i ⟨f.kind, waker, .parked false⟩ := by
  simp only [step, hi, bind_some, ite_none_right_eq_some] at hs
  obtain ⟨rcv, hr, rfl⟩ := map_eq_some_iff.mp hs.2
  simp only [waits, hr, and_eq_true, decide_eq_true_eq] at hf
  have hb : ¬ rcv.nextToRead < w.inner.baseSeq :=
    not_lt.mpr (le_trans (Nat.sub_le _ _) hf.1)
  rw [poll, Inner.pollRecv, dif_neg hb, dif_neg (not_lt.mpr hf.1), if_neg hf.2]
  exact ⟨rfl, rfl⟩

theorem parked_lt_of_leaks (h : w.parked ≤ w.inner.waiters.length) (hl : w.leaks l)
    (hs : w.step l = some v) : v.parked < v.inner.waiters.length := by
  cases l with
  | poll i waker =>
    obtain ⟨f, hi, hf⟩ := (any_eq_true _ _).mp hl
    rw [and_eq_true] at hf
    obtain ⟨hwaiters, hfutures⟩ := poll_of_waits hi hf.2 hs
    have hset := Lot.countP_parked_set (g := ⟨f.kind, waker, .parked false⟩) hi hf.1
    rw [parked, hfutures, hwaiters, List.length_append]
    exact Nat.lt_succ_of_le (le_trans (le_of_eq hset) h)
  | drop i =>
    obtain ⟨f, hi, hf⟩ := (any_eq_true _ _).mp hl
    rw [and_eq_true] at hf
    simp only [step, hi, bind_some, ite_none_right_eq_some] at hs
    obtain rfl := some.inj hs.2
    have hset := Lot.countP_parked_set (g := { f with phase := .dropped }) hi hf.1
    exact lt_of_lt_of_le (Nat.lt_of_succ_le (le_of_eq hset)) h
  | _ => cases hl

theorem bounded_of_reachableUnder {inner : Inner α} {capacity : ℕ}
    (hi : Inner.channel capacity = some inner)
    (h : (broadcast inner).ReachableUnder (fun w l => w.leaks l = false) w) :
    Lot.Bounded w.waits w.futures w.inner.waiters := by
  refine System.inv_of_reachableUnder
    (I := fun w : World α => Lot.Bounded w.waits w.futures w.inner.waiters) ?_
    (fun _ _ _ hb hl hs => bounded_of_step hb hl (steps_of_step hs)) h
  obtain ⟨-, rfl⟩ := of_guard hi
  exact le_refl _

end World
end Broadcast

namespace Watch
namespace World

/-- A parked future that still has to wait is dropped. -/
def leaks (w : World α) : Label α → Bool
  | .drop i => w.futures[i]?.any fun f => f.phase.isParked && w.waits f.kind
  | _ => false

def parked (w : World α) : ℕ := w.futures.countP fun f => f.phase.isParked

variable {w v : World α} {l : Label α} {k : Changed}

theorem waits_mono (h : w.waits k) (hr : ∀ (r : ℕ) (rcv : Receiver), w.receivers[r]? = some rcv →
      ∃ rcv', v.receivers[r]? = some rcv' ∧
        (rcv'.seenVersion = rcv.seenVersion ∨ rcv'.seenVersion = w.inner.version))
    (hv : v.inner.version = w.inner.version) (ha : v.inner.senderAlive = w.inner.senderAlive) :
    v.waits k := by
  obtain ⟨rcv, hk, hver, halive⟩ := waits_iff.mp h
  obtain ⟨rcv', hk', hseen⟩ := hr _ rcv hk
  refine waits_iff.mpr ⟨rcv', hk', ?_, ha.trans halive⟩
  rcases hseen with hseen | hseen
  · rw [hv, hver, hseen]
  · rw [hv, hseen]

theorem waits_of_set (h : w.waits k) {r : ℕ} {rcv rcv' : Receiver} (hr : w.receivers[r]? = some rcv)
    (hseen : rcv'.seenVersion = rcv.seenVersion ∨ rcv'.seenVersion = w.inner.version)
    (hreceivers : v.receivers = w.receivers.set r rcv') (hv : v.inner.version = w.inner.version)
    (ha : v.inner.senderAlive = w.inner.senderAlive) : v.waits k := by
  refine waits_mono h ?_ hv ha
  rw [hreceivers]
  exact set_of_some
    (R := fun a b : Receiver => b.seenVersion = a.seenVersion ∨ b.seenVersion = w.inner.version)
    (fun _ => .inl rfl) hr hseen

theorem bounded_of_step (hsound : w.Sound) (h : Lot.Bounded w.waits w.futures w.inner.wakers)
    (hl : w.leaks l = false) (hs : Steps w l v) : Lot.Bounded v.waits v.futures v.inner.wakers := by
  cases hs with
  | update value ha hl | dropSender ha => exact Nat.zero_le _
  | sendFails ha hr => exact h
  | wakeNext hk => exact h.wakeNext hk
  | cloneReceiver hr ha hb =>
    exact h.mono fun _ hk =>
      waits_mono hk (fun _ rcv hr => ⟨rcv, append_of_some hr _, .inl rfl⟩) rfl rfl
  | @dropReceiver r rcv hr ha hb =>
    have hseen : { rcv with alive := false }.seenVersion = rcv.seenVersion := rfl
    exact h.mono fun _ hk => waits_of_set hk hr (.inl hseen) rfl rfl rfl
  | borrowAndUpdate hr ha hb =>
    exact h.mono fun _ hk => waits_of_set hk hr (.inr rfl) rfl rfl rfl
  | changed hr ha hb => exact h.snoc _
  | @marks i waker f rcv hi hlive hr hv =>
    have hf : w.waits f.kind = false := by simp [waits, hr, hv]
    refine (h.set hi (g := ⟨f.kind, waker, .finished⟩) fun hold => ?_).mono fun _ hk =>
      waits_of_set hk hr (.inr rfl) rfl rfl rfl
    simp [hf] at hold
  | @refuses i waker f rcv hi hlive hr hv ha =>
    refine h.set hi fun hold => ?_
    simp [waits_of_dropped f.kind ha] at hold
  | @registers i waker f rcv hi hlive hr hv ha hg =>
    have hf : f.phase.isParked = false := by
      rw [← not_eq_true]
      intro hp
      exact absurd (hg.symm.trans (hsound.parked f (List.mem_of_getElem? hi) hp))
        Bool.false_ne_true
    refine h.park hi ?_ ?_ waker
    · rw [hf, Bool.false_and]
    · exact waits_iff.mpr ⟨rcv, hr, hv, ha⟩
  | @repolls i waker f rcv hi hlive hr hv ha hg =>
    exact h.set hi fun hold => (and_eq_true_iff.mp hold).2
  | @drop i f hi hlive =>
    simp only [leaks, hi, any_some] at hl
    exact h.set hi fun hold => absurd (hl.symm.trans hold) Bool.false_ne_true

theorem parked_lt_of_leaks (h : w.parked ≤ w.inner.wakers.length) (hl : w.leaks l)
    (hs : w.step l = some v) : v.parked < v.inner.wakers.length := by
  cases l with
  | drop i =>
    obtain ⟨f, hi, hf⟩ := (any_eq_true _ _).mp hl
    rw [and_eq_true] at hf
    simp only [step, hi, bind_some, ite_none_right_eq_some] at hs
    obtain rfl := some.inj hs.2
    have hset := Lot.countP_parked_set (g := { f with phase := .dropped }) hi hf.1
    exact lt_of_lt_of_le (Nat.lt_of_succ_le (le_of_eq hset)) h
  | _ => cases hl

theorem bounded_of_reachableUnder {initial : α}
    (h : (watch initial).ReachableUnder (fun w l => w.leaks l = false) w) :
    Lot.Bounded w.waits w.futures w.inner.wakers := by
  refine h.inv (I := fun w : World α => Lot.Bounded w.waits w.futures w.inner.wakers)
    le_rfl fun _ _ _ hr hb hl hs => ?_
  exact bounded_of_step (sound_of_reachable hr) hb hl (steps_of_step hs)

end World
end Watch

/-- **No more wakers than parked futures, unless one leaks.**  In every run in which no parked
future that still has to wait is dropped and, for `broadcast`, none is polled again, the list holds
at most as many wakers as there are parked futures.  Such a step breaks the bound whenever the list
holds as many wakers as there are parked futures before it. -/
theorem wakers_bounded_unless_leaks {capacity : ℕ} {inner : Broadcast.Inner α}
    (hi : Broadcast.Inner.channel capacity = some inner) (initial : α) :
    (∀ w, (Broadcast.broadcast inner).ReachableUnder (fun w l => w.leaks l = false) w →
      w.inner.waiters.length ≤ w.parked) ∧
    (∀ w l v, w.parked ≤ w.inner.waiters.length → w.leaks l = true →
      (Broadcast.broadcast inner).step w l = some v → v.parked < v.inner.waiters.length) ∧
    (∀ w, (Watch.watch initial).ReachableUnder (fun w l => w.leaks l = false) w →
      w.inner.wakers.length ≤ w.parked) ∧
    (∀ w l v, w.parked ≤ w.inner.wakers.length → w.leaks l = true →
      (Watch.watch initial).step w l = some v → v.parked < v.inner.wakers.length) :=
  ⟨fun _ h => (Broadcast.World.bounded_of_reachableUnder hi h).le_parked,
    fun _ _ _ => Broadcast.World.parked_lt_of_leaks,
    fun _ h => (Watch.World.bounded_of_reachableUnder h).le_parked,
    fun _ _ _ => Watch.World.parked_lt_of_leaks⟩

theorem wakers_bounded_unless_leaks_of_two :
    ∃ w : Broadcast.World ℕ, (Broadcast.broadcast ⟨[], 2, 0, [], 1, 1⟩).ReachableUnder
      (fun w l => w.leaks l = false) w ∧ w.inner.waiters = [7, 8] ∧
      w.inner.waiters.length ≤ w.parked := by
  have hw : ∃ w : Broadcast.World ℕ, (Broadcast.broadcast ⟨[], 2, 0, [], 1, 1⟩).ReachableUnder
      (fun w l => w.leaks l = false) w ∧ w.inner.waiters = [7, 8] :=
    ⟨_, ⟨[.subscribe, .recv 0, .recv 1, .poll 0 7, .poll 1 8], rfl, by decide⟩, rfl⟩
  obtain ⟨w, hr, hlist⟩ := hw
  have hc : Broadcast.Inner.channel 2 = some (⟨[], 2, 0, [], 1, 1⟩ : Broadcast.Inner ℕ) := rfl
  exact ⟨w, hr, hlist, (wakers_bounded_unless_leaks hc 0).1 w hr⟩

/-- A future of `recv` is polled three times and dropped, one of `changed` is polled and dropped:
three wakers and one waker are left, and nobody is parked. -/
theorem exists_leaked_wakers :
    (∃ w : Broadcast.World ℕ, (Broadcast.broadcast ⟨[], 2, 0, [], 1, 1⟩).Reachable w ∧
      w.inner.waiters = [7, 7, 7] ∧ w.parked = 0) ∧
    ∃ w : Watch.World ℕ, (Watch.watch 0).Reachable w ∧ w.inner.wakers = [7] ∧ w.parked = 0 :=
  ⟨⟨_, ⟨[.recv 0, .poll 0 7, .poll 0 7, .poll 0 7, .drop 0], rfl⟩, rfl, rfl⟩,
    _, ⟨[.changed 0, .poll 0 7, .drop 0], rfl⟩, rfl, rfl⟩

end RustyTokio

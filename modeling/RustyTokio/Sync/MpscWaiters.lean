import RustyTokio.Sync.MpscAccounts

/-!
# The parked senders of a bounded channel

`recv` wakes one queued sender for the slot it frees, a permit that is given up wakes as many as it
gives slots back.  The wakers they pop can be stale: a future that was dropped, or polled ready by a
spurious wake, leaves its waker behind, and one that was polled twice has two.
-/

namespace RustyTokio.Mpsc

open Transition Coop List

variable {T : Type}

namespace World

/-- The receiver is alive and a slot is free, a single-slot future is parked, and no
parked future has been woken since its last poll. -/
structure Stranded (w : World T) : Prop where
  receiver : w.inner.receiverAlive
  room : w.inner.queue.length + w.inner.reserved < w.inner.capacity
  parked : ∃ f ∈ w.sends, f.kind.slots = 1 ∧ f.phase.isParked = true
  still : ∀ f ∈ w.sends, f.phase ≠ .parked true

/-- A wake is spent on the wrong future while another sleeps on, or a woken future is
dropped, and nobody woken is to spare. -/
def wastes (w : World T) (l : Label T) : Bool :=
  (Room.squanders Sending.slots (w.frees l) w.room &&
      (w.room.release (w.frees l)).asleep Sending.slots) ||
    match l with
    | .drop i => w.room.abandons Sending.slots i
    | _ => false

variable {w v : World T} {l : Label T} {capacity : UInt64} {c : Inner T} {i : ℕ}
  {f : Future (Sending T)}

theorem stranded_iff : w.Stranded ↔ w.inner.receiverAlive ∧ Room.Stranded Sending.slots w.room := by
  constructor
  · rintro ⟨hr, hroom, ⟨f, hf, hk, hp⟩, hs⟩
    obtain ⟨i, hi⟩ := getElem?_of_mem hf
    refine ⟨hr, Nat.sub_pos_of_lt hroom, Room.asleep_iff.mpr ⟨i, f, hi, hk, ?_⟩, hs⟩
    obtain ⟨b, hb⟩ := Phase.isParked_iff.mp hp
    cases b with
    | false => exact hb
    | true => exact absurd hb (hs f hf)
  · rintro ⟨hr, hfree, ha, hs⟩
    obtain ⟨i, f, hi, hk, hp⟩ := Room.asleep_iff.mp ha
    exact ⟨hr, Nat.lt_of_sub_pos hfree,
      ⟨f, mem_of_getElem? hi, hk, Phase.isParked_iff.mpr ⟨false, hp⟩⟩, hs⟩

/-! ## Until a wake is wasted -/

/-- As long as the receiver lives, slots and senders are balanced. -/
structure Kept (w : World T) : Prop where
  accounted : w.Accounted
  balanced : w.inner.receiverAlive = true → Room.Balanced Sending.slots w.room

theorem Effect.balanced (h : w.Effect l v)
    (hb : Room.Balanced Sending.slots w.room) (hc : w.wastes l = false) :
    Room.Balanced Sending.slots v.room := by
  obtain ⟨hrel, hdrop⟩ := Bool.or_eq_false_iff.mp hc
  cases h with
  | claim m hl hr =>
    rw [hr]
    exact hb.claim m
  | create k hl hr =>
    rw [hr]
    exact hb.create k
  | finish i f hl hi hr =>
    rw [hr]
    exact hb.finish hi
  | park i f hl hi hfull hr =>
    rw [hr]
    exact hb.park hi hfull
  | expire i hl hfull hr =>
    rw [hr]
    exact hb.expire i hfull
  | drop i f hl hi hr =>
    subst hl
    rw [hr]
    exact hb.drop hi hdrop
  | release hl hr =>
    rw [hr]
    exact hb.release _ (Bool.and_eq_false_iff.mp hrel)

theorem Kept.step (h : w.Kept) (hn : w.overflows l = false)
    (hc : w.wastes l = false) (hs : w.step l = some v) : v.Kept := by
  obtain ⟨hacc, he⟩ := lawful_of_step h.accounted hn hs
  refine ⟨hacc, fun ha => ?_⟩
  obtain ⟨halive, heff⟩ := he ha
  exact heff.balanced (h.balanced halive) hc

theorem kept_init (hc : channel T capacity = some c) : (mpsc c).init.Kept := by
  refine ⟨accounted_init hc, fun _ => ⟨fun i f hi _ => ?_, fun ha => ?_⟩⟩
  · simp [mpsc, room] at hi
  · simp [mpsc, room, Room.asleep] at ha

theorem kept_of_reachableUnder (hc : channel T capacity = some c)
    (hw : (mpsc c).ReachableUnder (fun w l => w.overflows l = false ∧ w.wastes l = false) w) :
    w.Kept :=
  System.inv_of_reachableUnder (I := Kept) (kept_init hc)
    (fun _ _ _ h hC hs => h.step hC.1 hC.2 hs) hw

/-! ## Once a wake is wasted -/

theorem Effect.overdrawn (h : w.Effect l v)
    (hc : w.wastes l) : Room.Overdrawn Sending.slots v.room := by
  -- a wasting call is not a quiet one
  have hloud : w.quiet l = false := by
    rcases Bool.or_eq_true_iff.mp hc with hrel | hdrop
    · cases hf : w.frees l with
      | zero => simp [hf, Room.squanders] at hrel
      | succ n => simp [quiet, hf]
    · cases l with
      | drop i => simp [quiet]
      | _ => cases hdrop
  cases h with
  | claim m hl hr | create k hl hr | finish i f hl hi hr | park i f hl hi hfull hr
  | expire i hl hfull hr => cases hloud.symm.trans hl
  | drop i f hl hi hr =>
    subst hl
    rw [hr]
    refine Room.overdrawn_of_abandons hi ?_
    simpa [wastes, frees, Room.squanders] using hc
  | release hl hr =>
    rw [hr]
    have hrel : (Room.squanders Sending.slots (w.frees l) w.room &&
        (w.room.release (w.frees l)).asleep Sending.slots) := by
      cases l with
      | drop i => exact absurd rfl (hl i)
      | _ => simpa only [wastes, Bool.or_false] using hc
    obtain ⟨h1, h2⟩ := Bool.and_eq_true_iff.mp hrel
    exact Room.overdrawn_of_squanders h1 h2

theorem overflows_of_single (h : w.Accounted) (hi : w.sends[i]? = some f) (hk : f.kind.slots = 1)
    (hfree : w.inner.queue.length + w.inner.reserved < w.inner.capacity) :
    w.overflows (.poll i) = false := by
  have hcap := h.fits.capacity
  have hsum : ¬ 2 ^ 64 ≤ w.inner.queue.length + w.inner.reserved + f.kind.slots := by omega
  simp only [overflows, hi, Option.any_some]
  cases hkind : f.kind with
  | send value => rfl
  | _ =>
    rw [hkind] at hsum
    exact decide_eq_false hsum

theorem pollSending_finish (h : w.Accounted) (ha : w.inner.receiverAlive) (hk : f.kind.slots = 1)
    (hfree : w.inner.queue.length + w.inner.reserved < w.inner.capacity) :
    (w.pollSending i f.kind).inner.receiverAlive ∧ (w.pollSending i f.kind).room =
        { w.room.setPhase i .finished with free := w.room.free - 1 } := by
  have hres := h.fits.pollReserve_ready i ha hfree
  cases hkind : f.kind with
  | send value =>
    simp only [pollSending, h.fits.pollSend_ready value i ha hfree]
    refine ⟨ha, ?_⟩
    simp only [room, Room.setPhase, Inner.push, phaseOf, length_append,
      length_singleton, Room.mk.injEq, and_true]
    omega
  | _ =>
    rw [← hkind, pollSending_eq _ (by simp [hkind])]
    simp only [pollReserving, hk, hres, room, hold_inner, hold_sends, reserve]
    exact ⟨ha, by simp only [Room.setPhase, phaseOf, ← add_assoc, Nat.sub_add_eq]⟩

theorem dropSending_of_many {k : Sending T} (hk : k.slots ≠ 1) :
    w.dropSending i k = { w with sends := Table.setPhase w.sends i .dropped } := by
  cases k with
  | reserveMany n => rfl
  | _ => exact absurd rfl hk

end World

def Label.bySender (l : Label T) : Prop := ∃ i, l = .poll i ∨ l = .drop i

namespace World

theorem leadsTo_of_overdrawn {c : Inner T} {w : World T} (h : w.Accounted)
    (ha : w.inner.receiverAlive) (ho : Room.Overdrawn Sending.slots w.room) :
    (mpsc c).LeadsTo Label.bySender Stranded w := by
  have key : (mpsc c).LeadsTo Label.bySender
      (fun t => (t.Accounted ∧ t.inner.receiverAlive) ∧ Room.Stranded Sending.slots t.room) w := by
    refine Room.Overdrawn.leadsTo room ?_ ?_ ⟨h, ha⟩ ho
    · rintro s i f ⟨hs, hsa⟩ hi hp hk hfree
      have hlt := Nat.lt_of_sub_pos hfree
      have hlaw := lawful_pollSending hs hi (overflows_of_single hs hi hk hlt)
      obtain ⟨hva, hvr⟩ := pollSending_finish (i := i) hs hsa hk hlt
      exact ⟨.poll i, s.pollSending i f.kind, ⟨i, .inl rfl⟩,
        bind_guard_eq_some.mpr ⟨f, hi, by simp [hp, Phase.isLive], rfl⟩, ⟨hlaw.accounted, hva⟩, hvr⟩
    · rintro s i f ⟨hs, hsa⟩ hi hp hk
      exact ⟨.drop i, _, ⟨i, .inr rfl⟩, bind_guard_eq_some.mpr ⟨f, hi, by simp [hp, Phase.isLive],
        dropSending_of_many hk⟩, ⟨⟨hs.fits, hs.reserved⟩, hsa⟩, rfl⟩
  exact key.mono fun t ht => stranded_iff.mpr ⟨ht.1.2, ht.2⟩

/-- **No sender is stranded unless a wake is wasted.**  In every run that neither wastes a wake nor
overflows the sum of `poll_reserve`, no state has a sender stranded.  After any call that wastes a
wake, polls and drops of senders alone can strand one. -/
theorem not_stranded_unless_wastes {capacity : UInt64} {c : Inner T}
    (hc : channel T capacity = some c) :
    (∀ w, (mpsc c).ReachableUnder (fun w l => w.overflows l = false ∧ w.wastes l = false) w →
      ¬ w.Stranded) ∧ ∀ w l v, (mpsc c).ReachableUnder (fun w l => w.overflows l = false) w →
      w.wastes l = true → w.step l = some v → v.inner.receiverAlive = true →
      (mpsc c).LeadsTo Label.bySender Stranded v := by
  constructor
  · intro w hw hst
    obtain ⟨ha, hs⟩ := stranded_iff.mp hst
    exact ((kept_of_reachableUnder hc hw).balanced ha).not_stranded hs
  · intro w l v hw hwaste hs hv
    -- the sum of `poll_reserve` has no part in a call that wastes a wake
    have hn : w.overflows l = false := by
      cases l with
      | poll i | pollElapsed i => simp [wastes, frees, Room.squanders] at hwaste
      | _ => rfl
    obtain ⟨hacc, he⟩ := lawful_of_step (accounted_of_reachableUnder hc hw) hn hs
    exact leadsTo_of_overdrawn hacc hv ((he hv).2.overdrawn hwaste)

theorem stranded_after_drop :
    ∃ (c : Inner Unit) (w v : World Unit), channel Unit 1 = some c ∧ (mpsc c).Reachable w ∧
      ¬ w.Stranded ∧ w.step (.drop 1) = some v ∧ (mpsc c).LeadsTo Label.bySender Stranded v := by
  have hc : channel Unit 1 = some ⟨[], 1, 0, [], none, 1, true⟩ := rfl
  obtain ⟨hsafe, hbad⟩ := not_stranded_unless_wastes hc
  have hw : (mpsc ⟨[], 1, 0, [], none, 1, true⟩).ReachableUnder
      (fun w l => w.overflows l = false ∧ w.wastes l = false) _ :=
    ⟨[.start (.send ()), .poll 0, .start (.send ()), .poll 1, .start (.send ()), .poll 2,
      .startRecv, .pollRecv 0 none], rfl, by decide⟩
  refine ⟨_, _, _, hc, hw.reachable, hsafe _ hw, rfl,
    hbad _ (.drop 1) _ (hw.mono fun _ _ h => h.1) ?_ rfl ?_⟩
  · decide
  · rfl

/-- **A sender can be stranded.**  Three sends to a channel with one slot; the second
and the third park, the second is dropped.  The receiver takes the first value and
wakes the second. -/
theorem exists_stranded_sender :
    ∃ (c : Inner Unit) (w : World Unit), channel Unit 1 = some c ∧ (mpsc c).Reachable w ∧
      w.Stranded := by
  refine ⟨⟨[], 1, 0, [], none, 1, true⟩, _, rfl,
    ⟨[.start (.send ()), .poll 0, .start (.send ()), .poll 1, .start (.send ()), .poll 2,
      .drop 1, .startRecv, .pollRecv 0 none], rfl⟩, rfl, by decide, ?_, by decide⟩
  exact ⟨⟨.send (), .parked false⟩, by decide, rfl, rfl⟩

end World

end RustyTokio.Mpsc

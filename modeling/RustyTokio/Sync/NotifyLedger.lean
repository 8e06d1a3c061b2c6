import RustyTokio.Sync.NotifyWakeups

/-!
# What becomes of a notification

A call of `notify_one` or `notify_last` banks a permit or is spent on the future whose entry it
pops; a permit is later spent on the future that takes it.
-/

namespace RustyTokio.Notify

open Transition List Option Bool

namespace Notified

/-- A notification was spent on the future, and it was not dropped before it was ready. -/
def credited (f : Notified) : Bool := f.granted && !f.status.isDropped

theorem credited_leave {f : Notified} {s : Status} (hf : f.status.isDropped = false)
    (hs : s.isDropped = false) : (f.leave s).credited = f.credited := by
  change (f.granted && !s.isDropped) = (f.granted && !f.status.isDropped)
  rw [hs, hf]

/-- The future is under the mutex, and takes a permit if there is one. -/
def wantsPermit (f : Notified) : Bool :=
  match f.pc with
  | .locking _ => !f.registered
  | .enabling => true
  | _ => false

end Notified

namespace World

def completed (w : World) : ℕ := w.futures.countP fun f => f.granted && decide (f.status = .ready)

/-- The live futures that have received a notification and have not completed. -/
def received (w : World) : ℕ := w.futures.countP fun f => f.granted && f.status.isLive

def credits (w : World) : ℕ := w.futures.countP Notified.credited

/-- A notification that popped an entry is spent on nobody: the future is dropped, or one
was spent on it already.  One that popped none overflows the permits. -/
def wasted (w : World) : Option (ℕ × List ℕ) → Bool
  | none => decide (2 ^ 64 ≤ w.permits + 1)
  | some (e, _) => !(w.futures[e]?.any fun f => !f.granted && !f.status.isDropped)

def misspends (w : World) : Label → Bool
  | .notifyOne => w.wasted (popFront w.waiters)
  | .notifyLast => w.wasted (popBack w.waiters)
  | .advance i => decide (0 < w.permits) && w.futures[i]?.any fun f => f.wantsPermit && f.granted
  | .drop i => w.futures[i]?.any fun f => f.granted
  | _ => false

theorem credits_eq (w : World) : w.credits = w.completed + w.received := by
  rw [credits, completed, received]
  induction w.futures with
  | nil => rfl
  | cons f futures ih =>
    rw [countP_cons, countP_cons, countP_cons, ih]
    cases hg : f.granted <;> cases hs : f.status <;>
      simp [Notified.credited, hg, hs, Status.isDropped, Status.isLive] <;> omega

variable {w v : World} {i : ℕ} {g : Notified → Notified} {f : Notified}

theorem credits_change (hi : w.futures[i]? = some f) (g : Notified → Notified) :
    (w.change i g).credits + f.credited.toNat = w.credits + (g f).credited.toNat :=
  Table.countP_modify Notified.credited g hi

theorem credits_change_of_eq (h : ∀ f, w.futures[i]? = some f → (g f).credited = f.credited) :
    (w.change i g).credits = w.credits := by
  cases hi : w.futures[i]? with
  | none =>
    rw [change, modify_eq_self (List.getElem?_eq_none_iff.mp hi)]
  | some f =>
    have hc := credits_change hi g
    rw [h f hi] at hc
    exact Nat.add_right_cancel hc

/-- A step keeps the balance, or falls short if it misspends a permit. -/
structure Balance (w : World) (misspent : Bool) (v : World) : Prop where
  even : misspent = false → v.permits + v.credits + w.issued = w.permits + w.credits + v.issued
  short : misspent = true → v.permits + v.credits + w.issued < w.permits + w.credits + v.issued

theorem Balance.le {misspent : Bool} (h : Balance w misspent v) :
    v.permits + v.credits + w.issued ≤ w.permits + w.credits + v.issued := by
  cases misspent with
  | false => exact Nat.le_of_eq (h.even rfl)
  | true => exact Nat.le_of_lt (h.short rfl)

theorem balance_of_eq (h : v.permits + v.credits + w.issued = w.permits + w.credits + v.issued) :
    Balance w false v :=
  ⟨fun _ => h, fun hm => absurd hm Bool.false_ne_true⟩

theorem balance_of_change
    (hfutures : v.futures = w.futures.modify i g) (hpermits : v.permits = w.permits)
    (hissued : v.issued = w.issued)
    (hg : ∀ f, w.futures[i]? = some f → (g f).credited = f.credited) : Balance w false v := by
  have hc : v.credits = w.credits := by
    rw [credits, hfutures]
    exact credits_change_of_eq hg
  refine balance_of_eq ?_
  rw [hc, hpermits, hissued]

theorem balance_of_permit
    (hi : w.futures[i]? = some f) (hw : 0 < w.permits) (hf : f.status.isDropped = false)
    (hg : (g f).credited) :
    Balance w f.granted (change { w with permits := w.permits - 1 } i g) := by
  have hc := credits_change hi g
  have hcred : f.credited = f.granted := by rw [Notified.credited, hf]; simp
  rw [hg, hcred, toNat_true] at hc
  constructor <;> intro hgr
  · rw [hgr, toNat_false] at hc
    change w.permits - 1 + (w.change i g).credits + w.issued = _ + w.issued
    omega
  · rw [hgr, toNat_true] at hc
    change w.permits - 1 + (w.change i g).credits + w.issued < _ + w.issued
    omega

theorem balance_notify (w : World) (popped : Option (ℕ × List ℕ)) :
    Balance w (w.wasted popped) (w.notify popped) := by
  cases popped with
  | none =>
    constructor <;> intro h
    · have hlt : w.permits + 1 < 2 ^ 64 := Nat.lt_of_not_le (of_decide_eq_false h)
      change uadd w.permits 1 + w.credits + w.issued = _ + (w.issued + 1)
      rw [uadd_eq hlt]
      omega
    · have hle : 2 ^ 64 ≤ w.permits + 1 := of_decide_eq_true h
      change uadd w.permits 1 + w.credits + w.issued < _ + (w.issued + 1)
      rw [uadd, if_neg (Nat.not_lt_of_le hle)]
      omega
  | some p =>
    obtain ⟨e, rest⟩ := p
    have hpermits : (w.notify (some (e, rest))).permits = w.permits := rfl
    have hissued : (w.notify (some (e, rest))).issued = w.issued + 1 := rfl
    have hcredits : (w.notify (some (e, rest))).credits = (w.change e .grant).credits := rfl
    cases he : w.futures[e]? with
    | none =>
      have hsame : (w.change e .grant).credits = w.credits :=
        credits_change_of_eq fun f hf => absurd (he.symm.trans hf) (by simp)
      refine ⟨by simp [wasted, he], fun _ => ?_⟩
      rw [hpermits, hissued, hcredits, hsame]
      omega
    | some f =>
      have hc := credits_change he .grant
      have hbefore : f.credited = (f.granted && !f.status.isDropped) := rfl
      have hafter : f.grant.credited = !f.status.isDropped := Bool.true_and _
      rw [hbefore, hafter] at hc
      refine ⟨fun h => ?_, fun h => ?_⟩
      · rw [wasted, he, any_some, not_eq_false', and_eq_true, not_eq_true', not_eq_true'] at h
        rw [h.1, h.2] at hc
        simp only [Bool.false_and, Bool.not_false, toNat_false, toNat_true] at hc
        rw [hpermits, hissued, hcredits]
        omega
      · -- what it adds to the credits of the future was there, or does not count
        have hsame : (f.granted && !f.status.isDropped) = !f.status.isDropped := by
          rw [wasted, he, any_some, not_eq_true'] at h
          cases hg : f.granted with
          | true => rfl
          | false =>
            rw [hg, Bool.not_false, Bool.true_and] at h
            rw [h]
            rfl
        rw [hsame] at hc
        rw [hpermits, hissued, hcredits]
        omega

theorem balance_of_step {l : Label} (h : w.Linked) (hs : Steps w l v) :
    Balance w (w.misspends l) v := by
  -- for a future amid its poll or `enable`
  have busy : ∀ {i : ℕ} {f : Notified}, w.futures[i]? = some f → f.pc ≠ .idle →
      f.status.isDropped = false := fun hi => (h.sound _ _ hi).kept
  have live := @Status.isDropped_of_isLive
  -- and for a poll that returns
  have returns : ∀ {i : ℕ} {f : Notified} {s : Status}, w.futures[i]? = some f →
      f.status.isDropped = false → s.isDropped = false →
      ∀ f', w.futures[i]? = some f' → (f'.leave s).credited = f'.credited := by
    intro i f s hi hf hs f' hf'
    cases hi.symm.trans hf'
    exact Notified.credited_leave hf hs
  have advances : ∀ {i : ℕ} {f : Notified}, w.futures[i]? = some f →
      w.misspends (.advance i) = (decide (0 < w.permits) && (f.wantsPermit && f.granted)) := by
    intro i f hi
    rw [misspends, hi, any_some]
  cases hs with
  | start =>
    have hc : (w.futures ++ [Notified.new]).countP Notified.credited = w.credits := by
      rw [countP_append]
      rfl
    refine balance_of_eq ?_
    change w.permits + (w.futures ++ [Notified.new]).countP Notified.credited + w.issued = _
    rw [hc]
  | pollYields hi hl hp hb | pollReady hi hl hp hb hw =>
    exact balance_of_change rfl rfl rfl (returns hi (live hl) rfl)
  | pollLocks hi hl hp hb hw | enableLocks hi hd hp hw hr | marks hk ht hm
  | takesWaker hk ht hm => exact balance_of_change rfl rfl rfl fun _ _ => rfl
  | enableReturns hi hd hp hw | notifyWaiters => exact balance_of_eq rfl
  | registeredAlready hi hp hr =>
    rw [advances hi]
    simp only [Notified.wantsPermit, hp, hr, Bool.not_true, Bool.false_and, Bool.and_false]
    exact balance_of_change rfl rfl rfl fun _ _ => rfl
  | takesPermit hi hp hr hw =>
    rw [advances hi]
    simp only [Notified.wantsPermit, hp, hr, hw, decide_true, Bool.not_false, Bool.true_and]
    exact balance_of_permit hi hw (busy hi (by simp [hp])) rfl
  | @registers i f waker hi hp hr hw | @enableRegisters i f hi hp hw =>
    have hm : w.misspends (.advance i) = false := by simp [advances hi, hw]
    rw [hm]
    exact balance_of_change rfl rfl rfl fun _ _ => rfl
  | stores hi hp =>
    rw [advances hi]
    simp only [Notified.wantsPermit, hp, Bool.false_and, Bool.and_false]
    exact balance_of_change rfl rfl rfl fun _ _ => rfl
  | @rechecks i f hi hp =>
    rw [advances hi]
    simp only [Notified.wantsPermit, hp, Bool.false_and, Bool.and_false]
    refine balance_of_change rfl rfl rfl (returns hi (busy hi (by simp [hp])) ?_)
    cases f.woken <;> rfl
  | enableTakesPermit hi hp hw =>
    have hd := busy hi (by simp [hp])
    rw [advances hi]
    simp only [Notified.wantsPermit, hp, hw, decide_true, Bool.true_and]
    refine balance_of_permit hi hw hd ?_
    simp [Notified.credited, Notified.enablePermit, hd]
  | @drop i f hi hl hp =>
    have hm : w.misspends (.drop i) = f.granted := by rw [misspends, hi, any_some]
    have hc := credits_change hi (.leave .dropped)
    have hbefore : f.credited = f.granted := by
      simp [Notified.credited, Status.isDropped_of_isLive hl]
    have hafter : (f.leave .dropped).credited = false := Bool.and_false _
    rw [hbefore, hafter, toNat_false] at hc
    rw [hm]
    refine ⟨fun hg => ?_, fun hg => ?_⟩
    · rw [hg, toNat_false] at hc
      change w.permits + (w.change i (.leave .dropped)).credits + w.issued = _ + w.issued
      omega
    · rw [hg, toNat_true] at hc
      change w.permits + (w.change i (.leave .dropped)).credits + w.issued < _ + w.issued
      omega
  | notifyOne | notifyLast => exact balance_notify w _

theorem credits_le_of_reachable (hw : notifySystem.Reachable w) :
    w.permits + w.credits ≤ w.issued := by
  refine hw.inv (I := fun w => w.permits + w.credits ≤ w.issued) (Nat.le_refl _) ?_
  intro w l v hr hle hs
  have hb := (balance_of_step (linked_of_reachable hr) (steps_of_step hs)).le
  omega

theorem missing_of_run {u : World} {ls : List Label} (h : w.Linked)
    (hlt : w.permits + w.credits < w.issued) (hr : notifySystem.run w ls = some u) :
    u.permits + u.credits < u.issued := by
  have key : u.Linked ∧ u.permits + u.credits < u.issued := by
    refine System.inv_of_any_run (I := fun w => w.Linked ∧ w.permits + w.credits < w.issued)
      ?_ ⟨h, hlt⟩ hr
    rintro w l v ⟨hlinked, hlt⟩ hs
    have hstep := steps_of_step hs
    have hb := (balance_of_step hlinked hstep).le
    exact ⟨linked_of_step hlinked hstep, by omega⟩
  exact key.2

/-- **Notifications are conserved, unless one is misspent.**  As long as none is, the calls of
`notify_one` and `notify_last` are as many as the banked permits, the futures completed by one and
the live ones that have received one.  After a step that misspends one there are fewer from then
on. -/
theorem conserved_unless_misspent {w : World} (hw : notifySystem.Reachable w) :
    (notifySystem.ReachableUnder (fun w l => w.misspends l = false) w →
      w.issued = w.permits + w.completed + w.received) ∧
    ∀ l v ls u, w.misspends l = true → w.step l = some v → notifySystem.run v ls = some u →
      u.permits + u.completed + u.received < u.issued := by
  constructor
  · intro hunder
    have heq : w.issued = w.permits + w.credits := by
      refine hunder.inv (I := fun w => w.issued = w.permits + w.credits) rfl ?_
      intro w l v hr heq hl hs
      have heven := (balance_of_step (linked_of_reachable hr) (steps_of_step hs)).even hl
      omega
    rw [heq, credits_eq, add_assoc]
  · intro l v ls u hl hs hr
    have hlinked := linked_of_reachable hw
    have hle := credits_le_of_reachable hw
    have hstep := steps_of_step hs
    have hshort := (balance_of_step hlinked hstep).short hl
    have hmissing := missing_of_run (linked_of_step hlinked hstep) (by omega) hr
    rw [credits_eq] at hmissing
    omega

theorem missing_after_drop :
    ∃ w v : World, notifySystem.Reachable w ∧ w.issued = w.permits + w.completed + w.received ∧
      w.step (.drop 0) = some v ∧ v.permits + v.completed + v.received < v.issued := by
  have hw : notifySystem.ReachableUnder (fun w l => w.misspends l = false) _ :=
    ⟨[.start, .poll 0 5 none, .advance 0, .advance 0, .advance 0, .notifyOne, .fire 0, .fire 0],
      rfl, by decide⟩
  obtain ⟨hsafe, hbad⟩ := conserved_unless_misspent hw.reachable
  exact ⟨_, _, hw.reachable, hsafe hw, rfl, hbad (.drop 0) _ [] _ rfl rfl rfl⟩

/-- **A notification can be lost.**  The future `notify_one` was spent on is dropped. -/
theorem exists_lost_notification :
    ∃ w : World, notifySystem.Reachable w ∧ w.issued ≠ w.permits + w.completed + w.received := by
  refine ⟨⟨0, [], [⟨true, true, none, .idle, .dropped, some 5, true, true, true⟩],
    [⟨[0], [], false⟩], 1⟩, ⟨[.start, .poll 0 5 none, .advance 0, .advance 0, .advance 0,
      .notifyOne, .fire 0, .fire 0, .drop 0], rfl⟩, by decide⟩

end World

end RustyTokio.Notify

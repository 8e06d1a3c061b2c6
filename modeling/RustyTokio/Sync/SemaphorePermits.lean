import RustyTokio.Sync.SemaphoreQueue
import RustyTokio.Transition.Pool

/-!
# Where the permits of a semaphore are

A permit is available, or held by a `SemaphorePermit` or an `OwnedSemaphorePermit`, or it was
granted to a future that has yet to be polled.
-/

namespace RustyTokio.Semaphore

open Transition List Option Bool Pool

/-- The permits that were granted to a live future and that it has yet to see. -/
def Acquire.unobserved (f : Acquire) : ℕ :=
  if f.phase.isLive && f.outcome == .granted then f.needed.toNat else 0

namespace World

def held (w : World) : ℕ := w.permits.sum + w.ownedPermits.sum

def unobserved (w : World) : ℕ := Pool.total Acquire.unobserved w.futures

def accounted (w : World) : ℕ := w.state.permits + w.held + w.unobserved + w.forgotten

/-- Permits free, held, granted or forgotten are those there were and those added. -/
def Conserved (permits : UInt64) (w : World) : Prop :=
  w.state.permits + w.held + w.unobserved + w.forgotten = permits.toNat + w.added

instance decidableConserved (permits : UInt64) (w : World) : Decidable (w.Conserved permits) :=
  inferInstanceAs (Decidable (_ = _))

/-- With `n` more permits, those there are suffice for the waiter of a dropped future and for
all waiters ahead of it. -/
def reaches (w : World) (n : ℕ) : Bool :=
  (List.range w.state.waiters.length).any fun j =>
    (w.state.waiters[j]?.any fun e => w.isDropped e.future) &&
      decide (((w.state.waiters.take (j + 1)).map Waiter.needed).sum ≤ w.state.permits + n)

/-- A future is dropped that was granted and did not see it, or permits are given back that
reach the waiter of a dropped future. -/
def leaks (w : World) : Label → Bool
  | .drop i => w.futures[i]?.any fun f => f.outcome == .granted
  | .addPermits n => w.reaches n.toNat
  | .dropPermit k => w.permits[k]?.any w.reaches
  | .dropOwned k => w.ownedPermits[k]?.any w.reaches
  | _ => false

/-- The sum in `release`, or that in `merge`, overflows. -/
def overflows (w : World) : Label → Bool
  | .addPermits n => decide (2 ^ 64 ≤ w.state.permits + n.toNat)
  | .dropPermit k => w.permits[k]?.any fun n => decide (2 ^ 64 ≤ w.state.permits + n)
  | .dropOwned k => w.ownedPermits[k]?.any fun n => decide (2 ^ 64 ≤ w.state.permits + n)
  | .merge j k => w.ownedPermits[j]?.any fun m => w.ownedPermits[k]?.any fun n =>
    decide (2 ^ 64 ≤ m + n)
  | _ => false

section Balance

variable {w v : World} {l : Label} {i : ℕ} {f : Acquire} {n : ℕ}

theorem accounted_hand (w : World) (n : ℕ) (owned : Bool) :
    (w.hand n owned).accounted = w.accounted + n ∧ (w.hand n owned).added = w.added := by
  cases owned <;> refine ⟨?_, rfl⟩
  · simp only [hand, accounted, held, unobserved, false_eq_true, if_false, sum_append,
      sum_singleton]
    omega
  · simp only [hand, accounted, held, unobserved, if_true, sum_append, sum_singleton]
    omega

theorem accounted_change (hi : w.futures[i]? = some f) (g : Acquire → Acquire) :
    (w.change i g).accounted + f.unobserved = w.accounted + (g f).unobserved := by
  have htotal := total_modify (f := Acquire.unobserved) g hi
  simp only [accounted, held, unobserved, change] at htotal ⊢
  omega

theorem unobserved_of_ne (h : f.outcome ≠ .granted) : f.unobserved = 0 := by
  rw [Acquire.unobserved, if_neg]
  simp [h]

theorem unobserved_of_granted (hp : f.phase.isLive) (h : f.outcome = .granted) :
    f.unobserved = f.needed.toNat := by
  rw [Acquire.unobserved, hp, h]
  rfl

theorem unobserved_setPhase (f : Acquire) {p : Phase} (hp : p.isLive = false) :
    (f.setPhase p).unobserved = 0 := by
  rw [Acquire.unobserved, Acquire.setPhase, hp]
  rfl

theorem exists_lost_of_grant : ∀ (es : List Waiter) (t : List Acquire),
    (es.map Waiter.future).Nodup →
    (∀ e ∈ es, ∃ f : Acquire, t[e.future]? = some f ∧ f.outcome = .pending ∧
      f.needed.toNat = e.needed ∧ 0 < e.needed) →
    ∃ lost, Pool.total Acquire.unobserved ((es.map Waiter.future).foldl
        (fun t i => t.modify i (Acquire.tell .granted)) t) + lost =
      Pool.total Acquire.unobserved t + (es.map Waiter.needed).sum ∧
      (0 < lost ↔ ∃ e ∈ es, ∃ f : Acquire, t[e.future]? = some f ∧ f.phase.isLive = false)
  | [], t, _, _ => ⟨0, rfl, by simp⟩
  | e :: es, t, hnodup, hes => by
    rw [map_cons, nodup_cons] at hnodup
    obtain ⟨f, hf, ho, hn, hpos⟩ := hes e mem_cons_self
    -- the futures of the other waiters are as they were
    have hsame : ∀ e' ∈ es, (t.modify e.future (Acquire.tell .granted))[e'.future]? =
        t[e'.future]? := by
      intro e' he'
      have hne : e.future ≠ e'.future := by
        intro heq
        exact hnodup.1 (heq ▸ mem_map_of_mem he')
      simp [hne]
    obtain ⟨lost, hsum, hlost⟩ := exists_lost_of_grant es
      (t.modify e.future (Acquire.tell .granted)) hnodup.2 fun e' he' => by
        rw [hsame e' he']
        exact hes e' (mem_cons_of_mem _ he')
    have htotal := total_modify (f := Acquire.unobserved) (Acquire.tell .granted) hf
    rw [unobserved_of_ne (by rw [ho]; simp)] at htotal
    have hwake : f.phase.wake.isLive = f.phase.isLive := by cases f.phase <;> rfl
    have hrest : (∃ e' ∈ es, ∃ f : Acquire,
        (t.modify e.future (Acquire.tell .granted))[e'.future]? = some f ∧ f.phase.isLive = false) ↔
        ∃ e' ∈ es, ∃ f : Acquire, t[e'.future]? = some f ∧ f.phase.isLive = false := by
      refine exists_congr fun e' => and_congr_right fun he' => ?_
      rw [hsame e' he']
    rw [hrest] at hlost
    rw [map_cons, foldl_cons, map_cons, sum_cons]
    cases hp : f.phase.isLive with
    | true =>
      have htell : (f.tell .granted).unobserved = e.needed := by
        rw [unobserved_of_granted (hwake.trans hp) rfl]
        exact hn
      refine ⟨lost, by omega, hlost.trans ?_⟩
      rw [exists_mem_cons_iff]
      refine (or_iff_right ?_).symm
      rintro ⟨f', hf', hp'⟩
      cases hf.symm.trans hf'
      cases hp.symm.trans hp'
    | false =>
      have htell : (f.tell .granted).unobserved = 0 := by
        rw [Acquire.unobserved, if_neg]
        simp [Acquire.tell, hwake, hp]
      refine ⟨lost + e.needed, by omega, iff_of_true (by omega) ?_⟩
      exact ⟨e, mem_cons_self, f, hf, hp⟩

theorem reaches_iff (h : w.Linked) (hn : w.state.permits + n < 2 ^ 64) :
    w.reaches n ↔ ∃ e ∈ (w.state.release n).2, ∃ f : Acquire,
      w.futures[e.future]? = some f ∧ f.phase.isLive = false := by
  have hsplit := granted_append_waiters w.state n
  have hplace : ∀ {j : ℕ}, j < w.state.waiters.length →
      (j < (w.state.release n).2.length ↔
        ((w.state.waiters.take (j + 1)).map Waiter.needed).sum ≤ w.state.permits + n) := by
    intro j hj
    rw [← uadd_eq hn]
    exact lt_length_served_iff Waiter.needed hj
  -- a queued future that is not live was dropped
  have hdropped : ∀ {e : Waiter}, e ∈ w.state.waiters →
      (w.isDropped e.future ↔ ∃ f : Acquire,
        w.futures[e.future]? = some f ∧ f.phase.isLive = false) := by
    intro e he
    obtain ⟨f, hf, hq, -⟩ := h.future_of_mem he
    have hfin := (h.valid _ f hf).waits hq
    rw [isDropped_iff, hf]
    simp only [Option.some.injEq, exists_eq_left']
    cases hp : f.phase <;> simp_all [Phase.isLive]
  rw [reaches, List.any_eq_true]
  constructor
  · rintro ⟨j, hj, hany⟩
    rw [List.mem_range] at hj
    rw [Bool.and_eq_true, Option.any_eq_true, decide_eq_true_iff] at hany
    obtain ⟨⟨e, he, hd⟩, hsum⟩ := hany
    have hlt := (hplace hj).mpr hsum
    rw [← hsplit, List.getElem?_append_left hlt] at he
    have hmem := List.mem_of_getElem? he
    have hmem' : e ∈ w.state.waiters := hsplit ▸ List.mem_append_left _ hmem
    exact ⟨e, hmem, (hdropped hmem').mp hd⟩
  · rintro ⟨e, he, hd⟩
    obtain ⟨j, hj⟩ := List.getElem?_of_mem he
    obtain ⟨hlt, -⟩ := List.getElem?_eq_some_iff.mp hj
    have hlen : j < w.state.waiters.length := by
      rw [← hsplit, List.length_append]
      omega
    have hwait : w.state.waiters[j]? = some e := by
      rw [← hsplit, List.getElem?_append_left hlt]
      exact hj
    refine ⟨j, List.mem_range.mpr hlen, ?_⟩
    rw [Bool.and_eq_true, Option.any_eq_true, decide_eq_true_iff]
    exact ⟨⟨e, hwait, (hdropped (List.mem_of_getElem? hwait)).mpr hd⟩, (hplace hlen).mp hlt⟩

theorem exists_lost_of_release (h : w.Linked) (hn : w.state.permits + n < 2 ^ 64) :
    ∃ lost, (w.release n).state.permits + (w.release n).unobserved + lost =
      w.state.permits + n + w.unobserved ∧ (0 < lost ↔ w.reaches n) := by
  have hsplit := granted_append_waiters w.state n
  have hsum : (w.state.release n).1.permits +
      ((w.state.release n).2.map Waiter.needed).sum = w.state.permits + n := by
    rw [← uadd_eq hn]
    exact left_add_sum_served Waiter.needed (uadd w.state.permits n) w.state.waiters
  have hmem : ∀ e ∈ (w.state.release n).2, e ∈ w.state.waiters := fun e he =>
    hsplit ▸ mem_append_left _ he
  have hnodup := h.nodup
  rw [line, ← hsplit, map_append, append_assoc] at hnodup
  obtain ⟨lost, htotal, hlost⟩ := exists_lost_of_grant (w.state.release n).2 w.futures
    (nodup_append.mp hnodup).1 fun e he => by
      obtain ⟨f, hf, hq, hneeded⟩ := h.future_of_mem (hmem e he)
      exact ⟨f, hf, hq.2, hneeded, h.needed_pos (hmem e he)⟩
  refine ⟨lost, ?_, hlost.trans (reaches_iff h hn).symm⟩
  have hfutures : (w.release n).unobserved + lost =
      w.unobserved + ((w.state.release n).2.map Waiter.needed).sum := htotal
  have hstate : (w.release n).state.permits = (w.state.release n).1.permits := rfl
  omega

theorem accounted_change_eq (hi : w.futures[i]? = some f) {g : Acquire → Acquire}
    (hf : f.unobserved = 0) (hg : (g f).unobserved = 0) :
    (w.change i g).accounted = w.accounted := by
  have hchange := accounted_change hi g
  omega

def Balance (w : World) (l : Label) (v : World) : Prop :=
  ∃ lost, v.accounted + lost + w.added = w.accounted + v.added ∧ (0 < lost ↔ w.leaks l = true)

theorem balance_of_even (hl : w.leaks l = false)
    (heq : v.accounted + w.added = w.accounted + v.added) : Balance w l v :=
  ⟨0, heq, iff_of_false (Nat.lt_irrefl 0) (by simp [hl])⟩

theorem accounted_release (h : w.Linked) (hn : w.state.permits + n < 2 ^ 64) :
    ∃ lost, (w.release n).accounted + lost = w.accounted + n ∧ (0 < lost ↔ w.reaches n) := by
  obtain ⟨lost, htotal, hlost⟩ := exists_lost_of_release h hn
  refine ⟨lost, ?_, hlost⟩
  have hheld : (w.release n).held = w.held := rfl
  have hforgotten : (w.release n).forgotten = w.forgotten := rfl
  rw [accounted, accounted, hheld, hforgotten]
  omega

theorem balance_of_release (h : w.Linked) (hn : w.state.permits + n < 2 ^ 64)
    (hacc : v.accounted + n = (w.release n).accounted) (hadded : v.added = w.added)
    (hl : w.leaks l = w.reaches n) : Balance w l v := by
  obtain ⟨lost, htotal, hlost⟩ := accounted_release h hn
  refine ⟨lost, by omega, ?_⟩
  rw [hlost, hl]

theorem balance_drop (h : w.Linked) (hi : w.futures[i]? = some f) (hp : f.phase.isLive) :
    Balance w (.drop i) (w.change i (Acquire.setPhase .dropped)) := by
  have hchange := accounted_change hi (Acquire.setPhase .dropped)
  have hsame : (w.change i (Acquire.setPhase .dropped)).added = w.added := rfl
  rw [unobserved_setPhase f rfl] at hchange
  by_cases ho : f.outcome = .granted
  · -- the future was granted and had not seen it
    have hreg : f.registered := by
      by_contra hr
      have hpending := (h.valid i f hi).fresh (not_eq_true _ ▸ hr)
      cases ho.symm.trans hpending
    have hpos := (h.valid i f hi).needs hreg
    rw [unobserved_of_granted hp ho] at hchange
    exact ⟨f.needed.toNat, by omega, iff_of_true hpos (by simp [leaks, hi, ho])⟩
  · rw [unobserved_of_ne ho] at hchange
    exact balance_of_even (by simp [leaks, hi, ho]) (by omega)

theorem balance_merge {j k m : ℕ} (hj : w.ownedPermits[j]? = some m)
    (hk : w.ownedPermits[k]? = some n) (hjk : j ≠ k) (hsum : m + n < 2 ^ 64) :
    Balance w (.merge j k)
      { w with ownedPermits := (w.ownedPermits.set j (uadd m n)).eraseIdx k } := by
  have hset := sum_set_add (m + n) hj
  have hk' : (w.ownedPermits.set j (m + n))[k]? = some n := by
    rw [getElem?_set_ne hjk]
    exact hk
  have hgone := sum_eraseIdx_add hk'
  refine balance_of_even rfl ?_
  simp only [accounted, held, unobserved, uadd_eq hsum]
  omega

theorem balance_of_step (h : w.Linked) (hn : w.overflows l = false) (hs : w.step l = some v) :
    Balance w l v := by
  cases steps_of_step hs with
  | @start n owned =>
    refine balance_of_even rfl ?_
    have htotal := total_append (f := Acquire.unobserved) w.futures (Acquire.new n owned)
    rw [unobserved_of_ne (f := Acquire.new n owned) (by simp [Acquire.new])] at htotal
    simp only [accounted, held, unobserved] at htotal ⊢
    omega
  | @panic i f hi hp h0 =>
    have hf : f.unobserved = 0 := by
      rw [Acquire.unobserved, h0]
      exact ite_self 0
    refine balance_of_even rfl ?_
    rw [accounted_change_eq hi hf (unobserved_setPhase f rfl)]
    rfl
  | @observe i f hi hp ho =>
    refine balance_of_even rfl ?_
    have hchange := accounted_change hi (Acquire.setPhase .finished)
    obtain ⟨hhand, hadded⟩ :=
      (w.change i (Acquire.setPhase .finished)).accounted_hand f.needed.toNat f.owned
    rw [unobserved_of_granted hp ho, unobserved_setPhase f rfl] at hchange
    have hsame : (w.change i (Acquire.setPhase .finished)).added = w.added := rfl
    omega
  | @refuse i f hi hp ho =>
    have hout : f.outcome ≠ .granted := by
      rcases ho with ho | ⟨ho, -⟩ <;> simp [ho]
    refine balance_of_even rfl ?_
    rw [accounted_change_eq hi (unobserved_of_ne hout) (unobserved_setPhase f rfl)]
    rfl
  | @take i f hi hp ho hr hc hw hle =>
    refine balance_of_even rfl ?_
    have hchange := accounted_change_eq
      (w := { w with state := { w.state with permits := w.state.permits - f.needed.toNat } })
      (g := Acquire.setPhase .finished) hi (unobserved_of_ne (by simp [ho]))
      (unobserved_setPhase f rfl)
    obtain ⟨hhand, hadded⟩ := accounted_hand (change
      { w with state := { w.state with permits := w.state.permits - f.needed.toNat } } i
      (Acquire.setPhase .finished)) f.needed.toNat f.owned
    rw [hhand, hadded, hchange]
    simp only [accounted, held, unobserved, change]
    omega
  | @queue i f hi hp h0 ho hr hc hw =>
    have hchange := accounted_change_eq (g := Acquire.park) hi (unobserved_of_ne (by simp [ho]))
      (unobserved_of_ne (by simp [Acquire.park, ho]))
    exact balance_of_even rfl (congrArg (· + w.added) hchange)
  | @repoll i f hi hp ho hr =>
    refine balance_of_even rfl ?_
    rw [accounted_change_eq hi (unobserved_of_ne (by simp [ho]))
      (unobserved_of_ne (by simp [Acquire.park, ho]))]
    rfl
  | drop hi hp => exact balance_drop h hi hp
  | @tryTake n owned hc hw hle =>
    refine balance_of_even rfl ?_
    obtain ⟨hhand, hadded⟩ := accounted_hand
      { w with state := { w.state with permits := w.state.permits - n.toNat } } n.toNat owned
    rw [hhand, hadded]
    simp only [accounted, held, unobserved]
    omega
  | tryFails | close hc | closeAgain hc => exact balance_of_even rfl rfl
  | @addPermits n =>
    have hsum : w.state.permits + n.toNat < 2 ^ 64 := Nat.lt_of_not_le (of_decide_eq_false hn)
    obtain ⟨lost, htotal, hlost⟩ := accounted_release h hsum
    refine ⟨lost, ?_, hlost⟩
    change (w.release n.toNat).accounted + lost + w.added = w.accounted + (w.added + n.toNat)
    omega
  | forgetPermits =>
    refine balance_of_even rfl ?_
    simp only [accounted, held, unobserved]
    omega
  | @dropPermit k n hk =>
    have hsum : w.state.permits + n < 2 ^ 64 := by simpa [overflows, hk] using hn
    have hgone := sum_eraseIdx_add hk
    have hl : w.leaks (.dropPermit k) = w.reaches n := by rw [leaks, hk, any_some]
    refine balance_of_release h hsum ?_ rfl hl
    simp only [accounted, held, unobserved, World.release]
    omega
  | @dropOwned k n hk =>
    have hsum : w.state.permits + n < 2 ^ 64 := by simpa [overflows, hk] using hn
    have hgone := sum_eraseIdx_add hk
    have hl : w.leaks (.dropOwned k) = w.reaches n := by rw [leaks, hk, any_some]
    refine balance_of_release h hsum ?_ rfl hl
    simp only [accounted, held, unobserved, World.release]
    omega
  | merge hj hk hjk => exact balance_merge hj hk hjk (by simpa [overflows, hj, hk] using hn)
  | @closeNext i rest hc =>
    have hmem : i ∈ w.line := mem_append_right _ (by rw [hc]; exact mem_cons_self)
    obtain ⟨f, hi, hq⟩ := (h.line i).mp hmem
    refine balance_of_even rfl ?_
    rw [accounted_change_eq (w := { w with closing := rest }) hi (unobserved_of_ne (by simp [hq.2]))
      (unobserved_of_ne (by simp [Acquire.tell]))]
    rfl

end Balance

/-! ## Whole runs -/

theorem accounted_init (permits : UInt64) :
    (semaphore permits).init.accounted = permits.toNat + (semaphore permits).init.added := rfl

/-- **Permits are conserved unless a call leaks.**  In every run in which no sum overflows and
no call leaks the permits are conserved, and after a call that leaks they are not conserved in
any state that is reached without an overflow. -/
theorem conserved_unless_leaks (permits : UInt64) : (∀ w, (semaphore permits).ReachableUnder
        (fun w l => w.overflows l = false ∧ w.leaks l = false) w → w.Conserved permits) ∧
    ∀ w l v ls u, (semaphore permits).ReachableUnder (fun w l => w.overflows l = false) w →
      w.overflows l = false → w.leaks l = true → w.step l = some v →
      (semaphore permits).run v ls = some u →
      (semaphore permits).Along (fun w l => w.overflows l = false) v ls →
      ¬ u.Conserved permits := by
  constructor
  · intro w hw
    refine (System.inv_of_reachableUnder
      (I := fun w => w.Linked ∧ w.accounted = permits.toNat + w.added)
      ⟨linked_init permits, accounted_init permits⟩ (fun s l t h hn hs => ?_) hw).2
    obtain ⟨lost, hsum, hlost⟩ := balance_of_step h.1 hn.1 hs
    refine ⟨linked_of_step h.1 hs, ?_⟩
    have hzero : ¬ 0 < lost := fun hpos => absurd ((hlost.mp hpos).symm.trans hn.2) (by simp)
    have heq := h.2
    omega
  · intro w l v ls u hw hn hl hs hrun halong
    -- what is accounted for never exceeds what there is, and once less it stays less
    have hle : w.Linked ∧ w.accounted ≤ permits.toNat + w.added := by
      refine System.inv_of_reachableUnder
        (I := fun w => w.Linked ∧ w.accounted ≤ permits.toNat + w.added)
        ⟨linked_init permits, Nat.le_of_eq (accounted_init permits)⟩ (fun s l t h hn hs => ?_) hw
      obtain ⟨lost, hsum, -⟩ := balance_of_step h.1 hn hs
      refine ⟨linked_of_step h.1 hs, ?_⟩
      have hle := h.2
      omega
    have hlt : v.Linked ∧ v.accounted < permits.toNat + v.added := by
      obtain ⟨lost, hsum, hlost⟩ := balance_of_step hle.1 hn hs
      have hpos := hlost.mpr hl
      refine ⟨linked_of_step hle.1 hs, ?_⟩
      have hle := hle.2
      omega
    have hend : u.Linked ∧ u.accounted < permits.toNat + u.added := by
      refine System.inv_of_run (I := fun w => w.Linked ∧ w.accounted < permits.toNat + w.added)
        (fun s l t h hn hs => ?_) hlt hrun halong
      obtain ⟨lost, hsum, -⟩ := balance_of_step h.1 hn hs
      refine ⟨linked_of_step h.1 hs, ?_⟩
      have hlt := h.2
      omega
    exact fun heq => absurd heq (Nat.ne_of_lt hend.2)

theorem lost_after_drop : ∃ w v : World, (semaphore 1).Reachable w ∧ w.Conserved 1 ∧
    w.step (.drop 0) = some v ∧ ¬ v.Conserved 1 := by
  obtain ⟨hsafe, hbad⟩ := conserved_unless_leaks 1
  have hw : (semaphore 1).ReachableUnder
      (fun w l => w.overflows l = false ∧ w.leaks l = false) _ :=
    ⟨[.tryAcquire 1 false, .start 1 false, .poll 0, .dropPermit 0], rfl, by decide⟩
  exact ⟨_, _, hw.reachable, hsafe _ hw, rfl,
    hbad _ (.drop 0) _ [] _ (hw.mono fun _ _ h => h.1) rfl (by decide) rfl rfl trivial⟩

/-- **Permits are not conserved.**  The one permit is granted to a parked future that is dropped:
none is available, none is held and no live future was granted one. -/
theorem exists_not_conserved : ∃ w : World, (semaphore 1).Reachable w ∧ ¬ w.Conserved 1 :=
  ⟨⟨⟨0, false, []⟩, [⟨1, false, .granted, true, .dropped⟩], [], [], [], 0, 0, [0], [0]⟩,
    ⟨[.tryAcquire 1 false, .start 1 false, .poll 0, .dropPermit 0, .drop 0], rfl⟩, by decide⟩

/-! ## The cap -/

/-- The permits that are available, in a guard, or granted to a future that makes a guard of
them. -/
def total (w : World) : ℕ := w.state.permits + w.held + w.unobserved

def exceeds (w : World) : Label → Bool
  | .addPermits n => decide (maxPermits < w.total + n.toNat)
  | _ => false

section Cap

variable {w v : World} {l : Label} {n : ℕ}

def adds : Label → ℕ
  | .addPermits n => n.toNat
  | _ => 0

theorem books_of_step (hs : w.step l = some v) :
    v.added = w.added + adds l ∧ w.forgotten ≤ v.forgotten := by
  have hhand : ∀ (u : World) (n : ℕ) (owned : Bool),
      (u.hand n owned).added = u.added ∧ u.forgotten ≤ (u.hand n owned).forgotten := by
    rintro u n (_ | _) <;> exact ⟨rfl, Nat.le_refl _⟩
  cases steps_of_step hs with
  | observe hi hp ho | take hi hp ho hr hc hw hn | tryTake hc hw hn =>
    exact hhand _ _ _
  | forgetPermits => exact ⟨rfl, Nat.le_add_right _ _⟩
  | _ => exact ⟨rfl, Nat.le_refl _⟩

theorem total_of_step (h : w.Linked) (hn : w.overflows l = false) (hs : w.step l = some v) :
    v.total ≤ w.total + adds l := by
  obtain ⟨lost, hsum, -⟩ := balance_of_step h hn hs
  obtain ⟨hadded, hforgotten⟩ := books_of_step hs
  simp only [accounted] at hsum
  simp only [total]
  omega

theorem total_release (h : w.Linked) (hn : w.state.permits + n < 2 ^ 64)
    (hl : w.reaches n = false) : (w.release n).total = w.total + n := by
  obtain ⟨lost, hsum, hlost⟩ := accounted_release h hn
  have hzero : ¬ 0 < lost := fun hpos => absurd ((hlost.mp hpos).symm.trans hl) (by simp)
  have hforgotten : (w.release n).forgotten = w.forgotten := rfl
  simp only [accounted] at hsum
  simp only [total]
  omega

/-- Two guards hold no more than all of them. -/
theorem add_le_sum {ns : List ℕ} {j k m : ℕ} (hj : ns[j]? = some m) (hk : ns[k]? = some n)
    (hjk : j ≠ k) : m + n ≤ ns.sum := by
  have hset := sum_set_add 0 hj
  have hk' : (ns.set j 0)[k]? = some n := by
    rw [getElem?_set_ne hjk]
    exact hk
  have hgone := sum_eraseIdx_add hk'
  omega

theorem fits_of_capped (h : w.total ≤ maxPermits) (hx : w.exceeds l = false)
    (hs : w.step l = some v) : w.overflows l = false := by
  have hmax : maxPermits < 2 ^ 64 := by decide
  simp only [total, held] at h
  cases steps_of_step hs with
  | addPermits =>
    have hx := of_decide_eq_false hx
    simp only [total, held] at hx
    exact decide_eq_false (by omega)
  | dropPermit hk =>
    have hgone := sum_eraseIdx_add hk
    simp only [overflows, hk, any_some]
    exact decide_eq_false (by omega)
  | dropOwned hk =>
    have hgone := sum_eraseIdx_add hk
    simp only [overflows, hk, any_some]
    exact decide_eq_false (by omega)
  | merge hj hk hjk =>
    have hsum := add_le_sum hj hk hjk
    simp only [overflows, hj, hk, any_some]
    exact decide_eq_false (by omega)
  | _ => rfl

end Cap

/-- **The cap holds unless `add_permits` exceeds it.**  Then no sum overflows, so that none wraps
around or panics.  A call of `add_permits` that exceeds it is not rejected: unless it leaks, its sum
overflows, or there are more permits than `MAX_PERMITS` after it. -/
theorem capped_unless_exceeds {permits : UInt64} {s : State}
    (hnew : Semaphore.new permits = some s) :
    (∀ w, (semaphore permits).ReachableUnder (fun w l => w.exceeds l = false) w →
      w.state.permits + w.held ≤ maxPermits ∧
        ∀ l v, w.exceeds l = false → w.step l = some v → w.overflows l = false) ∧
    ∀ w n v, (semaphore permits).ReachableUnder (fun w l => w.exceeds l = false) w →
      w.exceeds (.addPermits n) = true → w.leaks (.addPermits n) = false →
      w.step (.addPermits n) = some v →
      w.overflows (.addPermits n) = true ∨ maxPermits < v.total := by
  have hcap : ∀ w, (semaphore permits).ReachableUnder (fun w l => w.exceeds l = false) w →
      w.Linked ∧ w.total ≤ maxPermits := by
    intro w hw
    refine System.inv_of_reachableUnder (I := fun w => w.Linked ∧ w.total ≤ maxPermits)
      ⟨linked_init permits, (of_guard hnew).1⟩ (fun u l v h hx hs => ?_) hw
    refine ⟨linked_of_step h.1 hs, ?_⟩
    have hle := total_of_step h.1 (fits_of_capped h.2 hx hs) hs
    cases l with
    | addPermits n => exact Nat.le_trans hle (Nat.le_of_not_lt (of_decide_eq_false hx))
    | _ => exact Nat.le_trans hle h.2
  refine ⟨fun w hw => ?_, fun w n v hw hx hl hs => ?_⟩
  · obtain ⟨-, hle⟩ := hcap w hw
    exact ⟨Nat.le_trans (Nat.le_add_right _ _) hle, fun l v => fits_of_capped hle⟩
  · obtain ⟨hlinked, -⟩ := hcap w hw
    cases hs
    by_cases hn : w.state.permits + n.toNat < 2 ^ 64
    · refine .inr ?_
      have htotal := total_release hlinked hn hl
      exact Nat.lt_of_lt_of_eq (of_decide_eq_true hx) htotal.symm
    · exact .inl (decide_eq_true (Nat.le_of_not_lt hn))

theorem capped_after_forget : ∃ w v : World, (semaphore 3).Reachable w ∧ w.forgotten = 1 ∧
    w.state.permits + w.held ≤ maxPermits ∧ w.step (.addPermits 2305843009213693951) = some v ∧
    maxPermits < v.total := by
  have hw : (semaphore 3).ReachableUnder (fun w l => w.exceeds l = false) _ :=
    ⟨[.tryAcquire 1 false, .forgetPermits 1], rfl, by decide⟩
  obtain ⟨hsafe, hbad⟩ := capped_unless_exceeds (show Semaphore.new 3 = some _ from rfl)
  refine ⟨_, _, hw.reachable, rfl, (hsafe _ hw).1, rfl, ?_⟩
  exact (hbad _ _ _ hw (by decide) (by decide) rfl).resolve_left (by decide)

/-- A semaphore that is full takes one permit more, and `usize::MAX` more make two out of three. -/
theorem exists_above_cap : ∃ w v u : World, Semaphore.new 2305843009213693951 = some w.state ∧
    (semaphore 2305843009213693951).Reachable w ∧ w.step (.addPermits 1) = some v ∧
    v.state.permits = maxPermits + 1 ∧
    (semaphore 3).step (semaphore 3).init (.addPermits 18446744073709551615) = some u ∧
    u.state.permits = 2 :=
  ⟨_, _, _, rfl, ⟨[], rfl⟩, rfl, by decide, rfl, by decide⟩

end World
end RustyTokio.Semaphore

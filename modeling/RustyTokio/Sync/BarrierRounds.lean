import RustyTokio.Sync.Barrier

/-!
# The rounds of a `Barrier`

Arrivals are numbered from zero in the order in which they took the lock; arrival `p` belongs to
round `p / n`.  The counters are functions of how many arrivals there were: `arrived` is the
remainder by `n`, and the generation is the quotient, modulo `2 ^ 64`.
-/

namespace RustyTokio.Barrier

open Transition List Option Table Lot

/-! ## One more arrival -/

section Arithmetic

variable {n m : ℕ}

theorem round_succ (hn : 0 < n) (h : m % n + 1 = n) :
    (m + 1) / n = m / n + 1 ∧ (m + 1) % n = 0 := by
  have hm : m + 1 = n * (m / n + 1) := by
    have hdiv := Nat.div_add_mod m n
    rw [Nat.mul_add, Nat.mul_one]
    omega
  constructor
  · rw [hm, Nat.mul_div_cancel_left _ hn]
  · rw [hm, Nat.mul_mod_right]

theorem round_same (hn : 0 < n) (h : m % n + 1 ≠ n) :
    (m + 1) / n = m / n ∧ (m + 1) % n = m % n + 1 := by
  have hlt : m % n + 1 < n := Nat.lt_of_le_of_ne (Nat.mod_lt m hn) h
  have hm : m + 1 = m % n + 1 + n * (m / n) := by
    have hdiv := Nat.div_add_mod m n
    omega
  constructor
  · rw [hm, Nat.add_mul_div_left _ _ hn, Nat.div_eq_of_lt hlt, zero_add]
  · rw [hm, Nat.add_mul_mod_self_left, Nat.mod_eq_of_lt hlt]

end Arithmetic

/-! ## What a future knows -/

/-- **A future and its round**, after `m` arrivals. -/
structure Call.Fits (n m : ℕ) (k : Call) : Prop where
  counted : ∀ p, k.arrival = some p → p < m
  leader : k.isLeader = some true ↔ ∃ p, k.arrival = some p ∧ (p + 1) % n = 0
  follower : k.isLeader = some false → ∃ p, k.arrival = some p ∧ p / n < m / n
  generation : ∀ my, k.stage = .recheck my ∨ k.stage = .waiting my →
    k.isLeader = none ∧ ∃ p, k.arrival = some p ∧ my = p / n % 2 ^ 64
  early : k.stage = .start ∨ k.stage = .arrive → k.arrival = none ∧ k.isLeader = none

namespace Call

variable {n m : ℕ} {k : Call} {my : ℕ}

theorem fits_start : (⟨.start, none, none⟩ : Call).Fits n m where
  counted _ hp := absurd hp (by simp)
  leader := by simp
  follower hp := absurd hp (by simp)
  generation my hs := by simp at hs
  early _ := ⟨rfl, rfl⟩

theorem Fits.mono (h : k.Fits n m) {m' : ℕ} (hm : m ≤ m') : k.Fits n m' where
  counted p hp := Nat.lt_of_lt_of_le (h.counted p hp) hm
  leader := h.leader
  follower hf := by
    obtain ⟨p, hp, hlt⟩ := h.follower hf
    exact ⟨p, hp, Nat.lt_of_lt_of_le hlt (Nat.div_le_div_right hm)⟩
  generation := h.generation
  early := h.early

theorem Fits.onPoll (h : k.Fits n m) {stage : Stage} (hk : k.stage.onPoll = some stage) :
    Fits n m { k with stage := stage } := by
  refine ⟨h.counted, h.leader, h.follower, ?_, ?_⟩
  · intro my hs
    cases hstage : k.stage with
    | waiting my' =>
      rw [hstage] at hk
      cases hk
      have hmy : my' = my := by simpa using hs
      exact h.generation my (.inr (by rw [hstage, hmy]))
    | start =>
      rw [hstage] at hk
      cases hk
      simp at hs
    | _ =>
      rw [hstage] at hk
      simp [Stage.onPoll] at hk
  · intro hs
    cases hstage : k.stage with
    | start => exact h.early (.inl hstage)
    | waiting my =>
      rw [hstage] at hk
      cases hk
      simp at hs
    | _ =>
      rw [hstage] at hk
      simp [Stage.onPoll] at hk

theorem Fits.dropped (h : k.Fits n m) : Fits n m { k with stage := .ended } where
  counted := h.counted
  leader := h.leader
  follower := h.follower
  generation my hs := by simp at hs
  early hs := by simp at hs

theorem fits_leads (hm : (m + 1) % n = 0) : Fits n (m + 1) ⟨.ended, some m, some true⟩ where
  counted p hp := by
    cases hp
    exact Nat.lt_succ_self m
  leader := ⟨fun _ => ⟨m, rfl, hm⟩, fun _ => rfl⟩
  follower hf := absurd hf (by simp)
  generation my hs := by simp at hs
  early hs := by simp at hs

theorem fits_arrives (hm : (m + 1) % n ≠ 0) :
    Fits n (m + 1) ⟨.recheck (m / n % 2 ^ 64), some m, none⟩ where
  counted p hp := by
    cases hp
    exact Nat.lt_succ_self m
  leader := by
    refine ⟨by simp, ?_⟩
    rintro ⟨p, hp, hmod⟩
    rw [← some.inj hp] at hmod
    exact absurd hmod hm
  follower hf := absurd hf (by simp)
  generation my hs := by
    obtain rfl : m / n % 2 ^ 64 = my := by simpa using hs
    exact ⟨rfl, m, rfl, rfl⟩
  early hs := by simp at hs

theorem Fits.returns (h : k.Fits n m) (hk : k.stage = .recheck my)
    (hg : m / n % 2 ^ 64 ≠ my) : Fits n m ⟨.ended, k.arrival, some false⟩ := by
  obtain ⟨hleader, p, hp, rfl⟩ := h.generation my (.inl hk)
  have hle : p / n ≤ m / n := Nat.div_le_div_right (Nat.le_of_lt (h.counted p hp))
  refine ⟨h.counted, ?_, fun _ => ⟨p, hp, Nat.lt_of_le_of_ne hle fun heq => hg (by rw [heq])⟩,
    fun my hs => by simp at hs, fun hs => by simp at hs⟩
  have hnot := h.leader
  rw [hleader] at hnot
  exact iff_of_false (by simp) fun hp => absurd (hnot.mpr hp) (by simp)

theorem Fits.parks (h : k.Fits n m) (hk : k.stage = .recheck my) :
    Fits n m ⟨.waiting my, k.arrival, none⟩ := by
  obtain ⟨hleader, hgeneration⟩ := h.generation my (.inl hk)
  refine ⟨h.counted, ?_, by simp, fun my' hs => ?_, fun hs => by simp at hs⟩
  · have hnot := h.leader
    rwa [hleader] at hnot
  · obtain rfl : my = my' := by simpa using hs
    exact ⟨rfl, hgeneration⟩

end Call

/-! ## The counters -/

namespace World

/-- The counters of the barrier are those of the arrivals, and each call has its number. -/
structure Counted (n : ℕ) (w : World) : Prop where
  arrived : w.state.arrived = w.arrivals.length % n
  generation : w.state.generation = w.arrivals.length / n % 2 ^ 64
  fits : ∀ f ∈ w.futures, f.kind.Fits n w.arrivals.length
  numbered : ∀ p i : ℕ, w.arrivals[p]? = some i ↔
    ∃ f, w.futures[i]? = some f ∧ f.kind.arrival = some p

section Counted

variable {n : ℕ} {w v : World} {l : Label} {i : ℕ} {f : Sleeper Call} {k : Call}

theorem Counted.goto (h : w.Counted n) (hi : w.futures[i]? = some f) (waker : ℕ)
    (phase : Phase) (hk : k.Fits n w.arrivals.length) (ha : k.arrival = f.kind.arrival)
    (wakers : List ℕ) :
    (goto { w with state := { w.state with wakers := wakers } } i k waker phase).Counted n := by
  have hlt := (lt_of_some hi)
  refine ⟨h.arrived, h.generation, ?_, ?_⟩
  · intro g hg
    rcases mem_or_eq_of_mem_set hg with hg | rfl
    · exact h.fits g hg
    · exact hk
  · intro p j
    refine (h.numbered p j).trans ?_
    change _ ↔ ∃ g, (w.futures.set i ⟨k, waker, phase⟩)[j]? = some g ∧ _
    obtain rfl | hij := eq_or_ne i j
    · rw [getElem?_set_self hlt, hi]
      simp only [some.injEq, exists_eq_left', ha]
    · rw [getElem?_set_ne hij]

theorem Counted.arrives (h : w.Counted n) (hi : w.futures[i]? = some f)
    (hk : f.kind.stage = .arrive) {s : State} {waker : ℕ} {phase : Phase}
    {hands : List (List ℕ)} (ha : k.arrival = some w.arrivals.length)
    (hfits : k.Fits n (w.arrivals.length + 1)) (harrived : s.arrived = (w.arrivals.length + 1) % n)
    (hgeneration : s.generation = (w.arrivals.length + 1) / n % 2 ^ 64) :
    (World.goto { w with state := s, hands := hands, arrivals := w.arrivals ++ [i] }
      i k waker phase).Counted n := by
  have hlt := (lt_of_some hi)
  have hnone := ((h.fits f (mem_of_getElem? hi)).early (.inr hk)).1
  have hlength : (w.arrivals ++ [i]).length = w.arrivals.length + 1 := length_append
  rw [← hlength] at harrived hgeneration hfits
  refine ⟨harrived, hgeneration, ?_, ?_⟩
  · intro g hg
    rcases mem_or_eq_of_mem_set hg with hg | rfl
    · exact (h.fits g hg).mono (Nat.le_of_lt (hlength ▸ Nat.lt_succ_self _))
    · exact hfits
  · intro p j
    change (w.arrivals ++ [i])[p]? = some j ↔
      ∃ g, (w.futures.set i ⟨k, waker, phase⟩)[j]? = some g ∧ g.kind.arrival = some p
    by_cases hij : i = j
    · -- its one number is the last
      subst hij
      rw [getElem?_set_self hlt]
      constructor
      · intro hp
        rcases of_snoc hp with hp | ⟨rfl, -⟩
        · obtain ⟨g, hg, hgp⟩ := (h.numbered p i).mp hp
          cases hi.symm.trans hg
          cases hnone.symm.trans hgp
        · exact ⟨_, rfl, ha⟩
      · rintro ⟨g, hg, hgp⟩
        cases hg
        cases ha.symm.trans hgp
        exact getElem?_concat_length
    · rw [getElem?_set_ne hij, ← h.numbered p j]
      constructor
      · intro hp
        rcases of_snoc hp with hp | ⟨-, rfl⟩
        · exact hp
        · exact absurd rfl hij
      · exact fun hp => append_of_some hp _

theorem counted_of_step (hn : 0 < n) (h : w.Counted n) (hs : Steps n w l v) : v.Counted n := by
  cases hs with
  | wait =>
    refine ⟨h.arrived, h.generation, ?_, ?_⟩
    · intro g hg
      rcases mem_append.mp hg with hg | hg
      · exact h.fits g hg
      · rw [mem_singleton.mp hg]
        exact Call.fits_start
    · intro p j
      refine (h.numbered p j).trans ⟨fun ⟨g, hg, hp⟩ => ⟨g, append_of_some hg _, hp⟩, ?_⟩
      rintro ⟨g, hg, hp⟩
      rcases of_snoc hg with hg | ⟨-, rfl⟩
      · exact ⟨g, hg, hp⟩
      · cases hp
  | @poll i f waker stage hi hk =>
    exact h.goto hi waker .fresh ((h.fits f (mem_of_getElem? hi)).onPoll hk) rfl _
  | @leads i f hi hk harr =>
    rw [h.arrived] at harr
    obtain ⟨hround, hmod⟩ := round_succ hn harr
    refine h.arrives hi hk rfl (Call.fits_leads hmod) hmod.symm ?_
    change (w.state.generation + 1) % 2 ^ 64 = _
    rw [h.generation, hround, Nat.mod_add_mod]
  | @arrives i f hi hk harr =>
    rw [h.arrived] at harr
    obtain ⟨hround, hmod⟩ := round_same hn harr
    rw [h.generation]
    refine h.arrives hi hk rfl (Call.fits_arrives (by rw [hmod]; exact Nat.succ_ne_zero _)) ?_ ?_
    · change w.state.arrived + 1 = _
      rw [h.arrived, hmod]
    · change w.state.generation = _
      rw [h.generation, hround]
  | @returns i f my hi hk hg =>
    rw [h.generation] at hg
    exact h.goto hi f.waker .finished ((h.fits f (mem_of_getElem? hi)).returns hk hg) rfl _
  | @parks i f my hi hk hg =>
    exact h.goto hi f.waker (.parked false) ((h.fits f (mem_of_getElem? hi)).parks hk) rfl _
  | @drop i f hi hk =>
    exact h.goto hi f.waker .dropped (h.fits f (mem_of_getElem? hi)).dropped rfl _
  | wakeNext hk =>
    obtain ⟨x, rest, -, rfl, -⟩ := wakeNext_eq_some hk
    refine ⟨h.arrived, h.generation, ?_, ?_⟩
    · intro g hg
      obtain ⟨g', hg', rfl⟩ := mem_map.mp hg
      rw [wake_kind]
      exact h.fits g' hg'
    · intro p j
      refine (h.numbered p j).trans ?_
      change _ ↔ ∃ g, (w.futures.map (Lot.wake x))[j]? = some g ∧ _
      rw [getElem?_map]
      constructor <;> rintro ⟨g, hg, hp⟩
      · exact ⟨Lot.wake x g, by rw [hg]; rfl, by rw [wake_kind]; exact hp⟩
      · obtain ⟨g', hg', rfl⟩ := map_eq_some_iff.mp hg
        rw [wake_kind] at hp
        exact ⟨g', hg', hp⟩

end Counted

/-! ## Who sleeps -/

/-- The round of the call is full. -/
def Completed (n : ℕ) (w : World) (k : Call) : Prop :=
  ∃ p, k.arrival = some p ∧ p / n < w.arrivals.length / n

section Awaited

variable {n : ℕ} {w v : World} {l : Label} {i : ℕ} {f : Sleeper Call}

theorem Counted.not_completed (h : w.Counted n) (hi : w.futures[i]? = some f) {my : ℕ}
    (hk : f.kind.stage = .recheck my) (hg : w.state.generation = my)
    (hb : w.arrivals.length / n < 2 ^ 64) : ¬ w.Completed n f.kind := by
  rintro ⟨p, hp, hlt⟩
  obtain ⟨-, p', hp', hmy⟩ :=
    (h.fits f (mem_of_getElem? hi)).generation my (.inl hk)
  cases hp.symm.trans hp'
  rw [h.generation, hmy, Nat.mod_eq_of_lt hb, Nat.mod_eq_of_lt (Nat.lt_trans hlt hb)] at hg
  exact absurd hg (Nat.ne_of_gt hlt)

theorem length_arrivals_of_step (hs : Steps n w l v) : w.arrivals.length ≤ v.arrivals.length := by
  cases hs with
  | leads hi hk hn | arrives hi hk hn => exact length_append ▸ Nat.le_add_right _ _
  | _ => exact Nat.le_refl _

theorem awaited_of_step (hn : 0 < n) (hk : w.Counted n) (hb : w.arrivals.length / n < 2 ^ 64)
    (h : Lot.Awaited (w.Completed n) w.futures w.state.wakers w.hands) (hs : Steps n w l v) :
    Lot.Awaited (v.Completed n) v.futures v.state.wakers v.hands := by
  cases hs with
  | wait => exact h.snoc_awake (by simp)
  | poll hi hk | returns hi hk hg | drop hi hk => exact h.set_awake _ (by simp)
  | leads hi hk hn => exact (h.takeAll _).set_awake _ (by simp)
  | @arrives i f hi hstage harr =>
    rw [hk.arrived] at harr
    refine (h.mono ?_).set_awake i (by simp)
    rintro k ⟨p, hp, hlt⟩
    refine ⟨p, hp, ?_⟩
    change p / n < (w.arrivals ++ [i]).length / n at hlt
    rwa [length_append, length_singleton, (round_same hn harr).1] at hlt
  | @parks i f my hi hstage hg => exact h.park i f.waker (hk.not_completed hi hstage hg hb)
  | wakeNext hk => exact h.wakeNext hk

end Awaited

structure Kept (n : ℕ) (w : World) : Prop where
  counted : w.Counted n
  awaited : w.arrivals.length / n < 2 ^ 64 →
    Lot.Awaited (w.Completed n) w.futures w.state.wakers w.hands

variable {s : State}

theorem kept_init {n : ℕ} (hs : State.new n = some s) : 0 < n ∧ (barrier n s).init.Kept n := by
  obtain ⟨hn, rfl⟩ := of_guard hs
  refine ⟨hn, ⟨?_, ?_, fun f hf => absurd hf not_mem_nil, fun p i => ?_⟩,
    fun _ f hf => absurd hf not_mem_nil⟩
  · exact (Nat.zero_mod n).symm
  · change 0 = 0 / n % 2 ^ 64
    rw [Nat.zero_div, Nat.zero_mod]
  · simp [barrier]

theorem kept_of_reachable {n : ℕ} (hs : State.new n = some s) {w : World}
    (h : (barrier n s).Reachable w) : w.Kept n := by
  obtain ⟨hn, h0⟩ := kept_init hs
  refine System.inv_of_reachable h0 (fun w l v h hs => ?_) h
  have hsteps := steps_of_step hs
  refine ⟨counted_of_step hn h.counted hsteps, fun hb => ?_⟩
  have hlt : w.arrivals.length / n < 2 ^ 64 :=
    Nat.lt_of_le_of_lt (Nat.div_le_div_right (length_arrivals_of_step hsteps)) hb
  exact awaited_of_step hn h.counted hlt (h.awaited hlt) hsteps

/-- **Rounds of `n`.**  In every run with fewer than `2 ^ 64` rounds: whoever has returned has
arrived, once; arrival `p` is in round `p / n`, and the counters say so; it is leader just when it
is the last of its block; the others return after their block is complete; and no future of a
complete block is parked without having been woken, or being about to be. -/
theorem rounds_of_n {n : ℕ} {s : State} (hs : State.new n = some s) {w : World}
    (h : (barrier n s).Reachable w) (hb : w.arrivals.length / n < 2 ^ 64) : (w.arrivals.Nodup ∧
      (∀ (i : ℕ) (f : Sleeper Call), w.futures[i]? = some f → f.kind.isLeader ≠ none →
        ∃ p : ℕ, w.arrivals[p]? = some i) ∧ w.state.generation = w.arrivals.length / n ∧
      w.state.arrived = w.arrivals.length % n) ∧
    ∀ p i : ℕ, w.arrivals[p]? = some i → ∃ f, w.futures[i]? = some f ∧
      (f.kind.isLeader = some true ↔ (p + 1) % n = 0) ∧
      (f.kind.isLeader = some false → (p / n + 1) * n ≤ w.arrivals.length) ∧
      (f.phase.isParked = true → (p / n + 1) * n ≤ w.arrivals.length →
        f.phase.isWoken = true ∨ Lot.InHand w.hands f.waker) := by
  obtain ⟨hn, -⟩ := kept_init hs
  obtain ⟨hc, ha⟩ := kept_of_reachable hs h
  -- a round is complete when its last arrival is there
  have hround : ∀ p, p / n < w.arrivals.length / n ↔ (p / n + 1) * n ≤ w.arrivals.length :=
    fun p => by rw [← Nat.le_div_iff_mul_le hn, Nat.succ_le_iff]
  refine ⟨⟨?_, ?_, ?_, hc.arrived⟩, ?_⟩
  · refine nodup_iff_getElem?_ne_getElem?.mpr fun p q hpq hq heq => ?_
    have hpi := getElem?_eq_getElem (Nat.lt_trans hpq hq)
    obtain ⟨f, hf, hfp⟩ := (hc.numbered p _).mp hpi
    obtain ⟨g, hg, hgq⟩ := (hc.numbered q _).mp (heq ▸ hpi)
    cases hf.symm.trans hg
    exact absurd (some.inj (hfp.symm.trans hgq)) (Nat.ne_of_lt hpq)
  · intro i f hi hleader
    have hfits := hc.fits f (mem_of_getElem? hi)
    match hl : f.kind.isLeader with
    | none => exact absurd hl hleader
    | some true =>
      obtain ⟨p, hp, -⟩ := hfits.leader.mp hl
      exact ⟨p, (hc.numbered p i).mpr ⟨f, hi, hp⟩⟩
    | some false =>
      obtain ⟨p, hp, -⟩ := hfits.follower hl
      exact ⟨p, (hc.numbered p i).mpr ⟨f, hi, hp⟩⟩
  · rw [hc.generation, Nat.mod_eq_of_lt hb]
  · intro p i hp
    obtain ⟨f, hi, hfp⟩ := (hc.numbered p i).mp hp
    have hmem := mem_of_getElem? hi
    have hfits := hc.fits f hmem
    refine ⟨f, hi, ?_, ?_, ?_⟩
    · rw [hfits.leader, hfp]
      simp only [some.injEq, exists_eq_left']
    · intro hl
      obtain ⟨p', hp', hlt⟩ := hfits.follower hl
      cases hfp.symm.trans hp'
      exact (hround p).mp hlt
    · intro hparked hcomplete
      obtain ⟨woken, hphase⟩ := Phase.isParked_iff.mp hparked
      cases woken with
      | true => exact .inl (Phase.isWoken_iff.mpr hphase)
      | false => exact .inr ((ha hb).inHand hmem hphase ⟨p, hfp, (hround p).mpr hcomplete⟩)

theorem rounds_of_two : ∃ w, (barrier 2 ⟨0, 0, []⟩).Reachable w ∧ w.arrivals = [0, 1, 2, 3] ∧
    w.futures.map (fun f => f.kind.isLeader) = [none, some true, none, some true] ∧
    w.state.generation = 2 ∧ Lot.InHand w.hands 7 := by
  have hw : (barrier 2 ⟨0, 0, []⟩).Reachable _ :=
    ⟨[.wait, .wait, .wait, .wait, .poll 0 5, .advance 0, .advance 0, .drop 0, .poll 1 6,
      .advance 1, .poll 2 7, .advance 2, .advance 2, .poll 2 7, .advance 2, .poll 3 8,
      .advance 3], rfl⟩
  obtain ⟨⟨-, -, hgeneration, -⟩, hround⟩ := rounds_of_n rfl hw (by decide)
  obtain ⟨f, hf, -, -, hparked⟩ := hround 2 2 rfl
  cases hf
  exact ⟨_, hw, rfl, rfl, hgeneration, (hparked rfl (by decide)).resolve_left Bool.false_ne_true⟩

end World

end RustyTokio.Barrier

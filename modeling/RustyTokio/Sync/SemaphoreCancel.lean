import Mathlib.Data.List.TakeWhile
import RustyTokio.Sync.SemaphoreQueue

/-!
# Futures of `acquire` that are dropped in the queue

A future that is dropped leaves its waiter in the queue, and the waiter is served in its turn like
any other.  If it needs one permit it is in front only while there is none, and nobody behind it
could have been served.
-/

namespace RustyTokio.Semaphore

open Transition List Option Bool

namespace World

def ahead (w : World) (i : ℕ) : List Waiter := w.state.waiters.takeWhile fun e => e.future != i

/-- The semaphore is open, a live future is parked and was not granted, the permits it needs
are there, and all waiters ahead of it are those of dropped futures. -/
def Blocked (w : World) : Prop :=
  w.state.closed = false ∧ ∃ (i : ℕ) (f : Acquire), w.futures[i]? = some f ∧
    f.phase.isParked = true ∧ f.outcome ≠ .granted ∧ f.needed.toNat ≤ w.state.permits ∧
    ∀ e ∈ w.ahead i, w.isDropped e.future = true

/-- While the semaphore is open, a future that is queued for two permits or more and was not
granted is dropped. -/
def deserts (w : World) : Label → Bool
  | .drop i => !w.state.closed && w.futures[i]?.any fun f =>
    f.registered && f.outcome == .pending && decide (2 ≤ f.needed.toNat)
  | _ => false

def Modest (w : World) : Prop :=
  w.state.closed = false → ∀ e ∈ w.state.waiters, w.isDropped e.future = true → e.needed ≤ 1

section Modest

variable {w v : World} {l : Label} {i : ℕ} {f : Acquire}

theorem Modest.of_sub (h : w.Modest) (hclosed : v.state.closed = w.state.closed)
    (hsub : ∀ e ∈ v.state.waiters, v.isDropped e.future →
      (e ∈ w.state.waiters ∧ w.isDropped e.future) ∨ e.needed ≤ 1) : v.Modest := by
  intro hc e he hd
  rcases hsub e he hd with ⟨he', hd'⟩ | hone
  · exact h (hclosed ▸ hc) e he' hd'
  · exact hone

theorem Modest.change (h : w.Modest) {g : Acquire → Acquire}
    (hg : ∀ f : Acquire, (g f).phase ≠ .dropped) : (w.change i g).Modest := by
  refine h.of_sub rfl fun e he hd => .inl ⟨he, ?_⟩
  obtain ⟨f', hf', hp⟩ := isDropped_iff.mp hd
  rcases of_change hf' with ⟨-, f, -, rfl⟩ | ⟨-, hf'⟩
  · exact absurd hp (hg f)
  · exact isDropped_iff.mpr ⟨f', hf', hp⟩

theorem Modest.drop (h : w.Modest) (hl : w.Linked) (hi : w.futures[i]? = some f)
    (hf : w.state.closed = false → f.IsQueued → f.needed.toNat ≤ 1) :
    (w.change i (Acquire.setPhase .dropped)).Modest := by
  intro hc e he hd
  obtain ⟨f', hf', hp⟩ := isDropped_iff.mp hd
  rcases of_change hf' with ⟨rfl, -⟩ | ⟨-, hf'⟩
  · obtain ⟨f₁, hf₁, hq, hn⟩ := hl.future_of_mem he
    cases hi.symm.trans hf₁
    rw [← hn]
    exact hf hc hq
  · exact h hc e he (isDropped_iff.mpr ⟨f', hf', hp⟩)

theorem Modest.hand (h : w.Modest) (n : ℕ) (owned : Bool) : (w.hand n owned).Modest := by
  cases owned <;> exact h

theorem Modest.release (h : w.Modest) (n : ℕ) : (w.release n).Modest := by
  refine h.of_sub rfl fun e he hd => .inl ⟨?_, ?_⟩
  · rw [← granted_append_waiters w.state n]
    exact mem_append_right _ he
  · obtain ⟨f', hf', hp⟩ := isDropped_iff.mp hd
    rw [getElem?_release] at hf'
    obtain ⟨f, hf, rfl⟩ := map_eq_some_iff.mp hf'
    refine isDropped_iff.mpr ⟨f, hf, ?_⟩
    split at hp
    · cases hph : f.phase <;> simp [Acquire.tell, hph, Phase.wake] at hp ⊢
    · exact hp

theorem Modest.start (h : w.Modest) (hl : w.Linked) (n : UInt32) (owned : Bool) :
    Modest { w with futures := w.futures ++ [Acquire.new n owned] } := by
  refine h.of_sub rfl fun e he hd => .inl ⟨he, ?_⟩
  obtain ⟨f', hf', hp⟩ := isDropped_iff.mp hd
  change (w.futures ++ [Acquire.new n owned])[e.future]? = some f' at hf'
  obtain ⟨f, hf, -⟩ := hl.future_of_mem he
  obtain ⟨hlt, -⟩ := List.getElem?_eq_some_iff.mp hf
  rw [getElem?_append_left hlt] at hf'
  exact isDropped_iff.mpr ⟨f', hf', hp⟩

theorem deserts_drop (hi : w.futures[i]? = some f) (hn : w.deserts (.drop i) = false)
    (hc : w.state.closed = false) (hq : f.IsQueued) : f.needed.toNat ≤ 1 := by
  by_contra hlt
  have htwo : 2 ≤ f.needed.toNat := by omega
  rw [deserts, hi, hc] at hn
  simp [hq.1, hq.2, htwo] at hn

theorem modest_of_step (h : w.Modest) (hl : w.Linked) (hn : w.deserts l = false)
    (hs : w.step l = some v) : v.Modest := by
  have hfinished : ∀ f : Acquire, (f.setPhase .finished).phase ≠ .dropped := fun f => by
    simp [Acquire.setPhase]
  have hpark : ∀ f : Acquire, f.park.phase ≠ .dropped := fun f => by simp [Acquire.park]
  cases steps_of_step hs with
  | start => exact h.start hl _ _
  | panic hi hp h0 =>
    refine h.drop hl hi fun _ hq => ?_
    rw [h0]
    exact Nat.zero_le 1
  | observe hi hp ho => exact (h.change hfinished).hand _ _
  | refuse hi hp ho => exact h.change hfinished
  | take hi hp ho hr hc hw hn =>
    refine Modest.hand (Modest.change ?_ hfinished) _ _
    exact h.of_sub rfl fun e he hd => .inl ⟨he, hd⟩
  | @queue i f hi hp h0 ho hr hc hw =>
    refine (h.change (i := i) hpark).of_sub rfl fun e he hd => ?_
    rcases mem_append.mp he with he | he
    · exact .inl ⟨he, hd⟩
    · -- the waiter that comes in is that of a live future
      obtain rfl := mem_singleton.mp he
      obtain ⟨f', hf', hp'⟩ := isDropped_iff.mp hd
      cases (change_self hi Acquire.park).symm.trans hf'
      exact absurd hp' (hpark f)
  | repoll hi hp ho hr => exact h.change hpark
  | drop hi hp => exact h.drop hl hi fun hc hq => deserts_drop hi hn hc hq
  | tryTake hc hw hn =>
    refine Modest.hand ?_ _ _
    exact h.of_sub rfl fun e he hd => .inl ⟨he, hd⟩
  | tryFails | closeAgain hc => exact h
  | addPermits | dropPermit hk | dropOwned hk => exact h.release _
  | forgetPermits | merge hj hk hjk => exact h.of_sub rfl fun e he hd => .inl ⟨he, hd⟩
  | close hc => exact fun hopen => absurd hopen (by simp)
  | @closeNext i rest hc =>
    intro hopen
    change w.state.closed = false at hopen
    cases hc.symm.trans (hl.untold hopen)

theorem Modest.not_blocked (h : w.Modest) (ho : w.Orderly) : ¬ w.Blocked := by
  rintro ⟨hc, i, f, hi, hp, hout, hn, hahead⟩
  obtain ⟨hl, hfair⟩ := ho
  have hv := hl.valid i f hi
  have hr := hv.parked hp
  have hpos := hv.needs hr
  -- the future is queued, for it was not granted and the semaphore is open
  have hq : f.IsQueued := by
    refine ⟨hr, ?_⟩
    cases ho : f.outcome with
    | pending => rfl
    | granted => exact absurd ho hout
    | closed => exact absurd ho (hl.unclosed hc i f hi)
  have hline := (hl.line i).mpr ⟨f, hi, hq⟩
  rw [line, hl.untold hc, append_nil] at hline
  cases hw : w.state.waiters with
  | nil =>
    rw [hw] at hline
    cases hline
  | cons e rest =>
    have hfront := hfair.front e rest hw
    have he : e ∈ w.state.waiters := by
      rw [hw]
      exact mem_cons_self
    by_cases hei : e.future = i
    · have hneeded := hl.needed e he f (hei ▸ hi)
      omega
    · have hmem : e ∈ w.ahead i := by
        rw [ahead, hw, takeWhile_cons_of_pos (by simpa using hei)]
        exact mem_cons_self
      have hone := h hc e he (hahead e hmem)
      omega

end Modest

/-! ## From a deserted queue to a blocked future -/

section Deserted

variable {permits : UInt64} {w v : World} {i : ℕ} {f : Acquire} {e : Waiter} {rest : List Waiter}

theorem isDropped_change_of_ne {j : ℕ} (hij : i ≠ j) (g : Acquire → Acquire) :
    (w.change i g).isDropped j = w.isDropped j := by
  rw [isDropped, change_of_ne hij, isDropped]

theorem isDropped_release (w : World) (n j : ℕ) : (w.release n).isDropped j = w.isDropped j := by
  rw [isDropped, getElem?_release, isDropped]
  cases w.futures[j]? with
  | none => rfl
  | some f =>
    rw [map_some, any_some, any_some]
    split
    · cases hp : f.phase <;> simp [Acquire.tell, hp, Phase.wake]
    · rfl

theorem poll_of_queue (ho : f.outcome = .pending) (hr : f.registered = false)
    (hc : w.state.closed = false) (hw : w.state.waiters ≠ []) : w.poll i f = change { w with
        state := { w.state with waiters := w.state.waiters ++ [⟨f.needed.toNat, i⟩] }
        queued := w.queued ++ [i] }
      i Acquire.park := by
  have hfast : ¬ (w.state.waiters.isEmpty && decide (f.needed.toNat ≤ w.state.permits)) :=
    fun hfast => hw (fast_iff.mp hfast).1
  have hopen : ¬ w.state.closed := by simp [hc]
  rw [poll, State.pollAcquire, ho, hr]
  simp only [false_eq_true, if_false, hfast, hopen]

theorem leadsTo_of_permit (hc : w.state.closed = false) (hw : w.state.waiters ≠ [])
    (hdropped : ∀ e ∈ w.state.waiters, w.isDropped e.future)
    (hp : 0 < w.state.permits) : (semaphore permits).LeadsTo (fun _ => True) Blocked w := by
  have hnew : (w.futures ++ [Acquire.new 1 false])[w.futures.length]? =
      some (Acquire.new 1 false) := by
    rw [getElem?_append_right (Nat.le_refl _), Nat.sub_self]
    rfl
  have hpoll : World.step { w with futures := w.futures ++ [Acquire.new 1 false] }
      (.poll w.futures.length) = some (World.poll
        { w with futures := w.futures ++ [Acquire.new 1 false] } w.futures.length
        (Acquire.new 1 false)) := by
    rw [step, hnew]
    rfl
  rw [poll_of_queue (w := { w with futures := w.futures ++ [Acquire.new 1 false] }) rfl rfl hc hw]
    at hpoll
  refine .of_step (e := .start 1 false) trivial rfl
    (.of_step (e := .poll w.futures.length) trivial hpoll (.now ?_))
  refine ⟨hc, w.futures.length, Acquire.park (Acquire.new 1 false), ?_, rfl,
    by simp [Acquire.park, Acquire.new], hp, fun e he => ?_⟩
  · rw [change_self (f := Acquire.new 1 false)]
    exact hnew
  · -- a waiter ahead is not the new one
    have hne : w.futures.length ≠ e.future := by
      have hmem := mem_takeWhile_imp he
      intro heq
      rw [heq] at hmem
      simp at hmem
    have hold : e ∈ w.state.waiters := by
      rcases mem_append.mp (takeWhile_subset _ he) with hold | hlast
      · exact hold
      · exact absurd (by rw [mem_singleton.mp hlast]) hne
    rw [isDropped_change_of_ne hne]
    obtain ⟨f, hf, hd⟩ := isDropped_iff.mp (hdropped e hold)
    obtain ⟨hlt, -⟩ := List.getElem?_eq_some_iff.mp hf
    refine isDropped_iff.mpr ⟨f, ?_, hd⟩
    change (w.futures ++ [Acquire.new 1 false])[e.future]? = some f
    rw [getElem?_append_left hlt]
    exact hf

theorem release_of_lt {n : ℕ}
    (hw : w.state.waiters = e :: rest) (hlt : uadd w.state.permits n < e.needed) :
    w.release n = { w with state := { w.state with permits := uadd w.state.permits n } } := by
  have hserve := serve_cons_of_lt Waiter.needed rest hlt
  simp only [World.release, State.release, hw, hserve, map_nil, foldl_nil, append_nil]

theorem leadsTo_of_all_dropped (hc : w.state.closed = false)
    (hw : w.state.waiters = e :: rest) (htwo : 2 ≤ e.needed)
    (hdropped : ∀ e ∈ w.state.waiters, w.isDropped e.future) :
    (semaphore permits).LeadsTo (fun _ => True) Blocked w := by
  have hne : w.state.waiters ≠ [] := by
    rw [hw]
    exact cons_ne_nil _ _
  rcases Nat.eq_zero_or_pos w.state.permits with h0 | hpos
  · have hone : uadd w.state.permits 1 = 1 := by
      rw [h0]
      rfl
    refine .of_step (e := .addPermits 1) trivial rfl ?_
    change (semaphore permits).LeadsTo (fun _ => True) Blocked
      { w.release 1 with added := w.added + 1 }
    rw [release_of_lt hw (by rw [hone]; exact htwo), hone]
    exact leadsTo_of_permit hc hne hdropped Nat.one_pos
  · exact leadsTo_of_permit hc hne hdropped hpos

theorem leadsTo_of_front (n : ℕ) : ∀ {w : World}, w.Orderly → w.state.closed = false →
    ∀ {e : Waiter} {rest : List Waiter}, w.state.waiters = e :: rest → 2 ≤ e.needed →
    w.isDropped e.future → w.futures.countP (fun f => f.phase.isLive) = n →
    (semaphore permits).LeadsTo (fun _ => True) Blocked w := by
  induction n with
  | zero =>
    intro w ho hc e rest hw htwo hd hcount
    refine leadsTo_of_all_dropped hc hw htwo fun e' he' => ?_
    obtain ⟨f, hf, hq, -⟩ := ho.1.future_of_mem he'
    have hlive := countP_eq_zero.mp hcount f (mem_of_getElem? hf)
    have hfin := (ho.1.valid _ f hf).waits hq
    refine isDropped_iff.mpr ⟨f, hf, ?_⟩
    cases hp : f.phase <;> simp_all [Phase.isLive]
  | succ n ih =>
    intro w ho hc e rest hw htwo hd hcount
    by_cases hall : ∀ e' ∈ w.state.waiters, w.isDropped e'.future
    · exact leadsTo_of_all_dropped hc hw htwo hall
    · push Not at hall
      obtain ⟨e', he', hd'⟩ := hall
      obtain ⟨f, hf, hq, -⟩ := ho.1.future_of_mem he'
      have hlive : f.phase.isLive := by
        have hfin := (ho.1.valid _ f hf).waits hq
        have hnot : f.phase ≠ .dropped := fun hp => hd' (isDropped_iff.mpr ⟨f, hf, hp⟩)
        cases hp : f.phase <;> simp_all [Phase.isLive]
      have hstep : w.step (.drop e'.future) =
          some (w.change e'.future (Acquire.setPhase .dropped)) :=
        bind_guard_eq_some.mpr ⟨f, hf, hlive, rfl⟩
      refine .of_step (e := .drop e'.future) trivial hstep
        (ih (orderly_of_step ho hstep) hc hw htwo ?_ ?_)
      · have hne : e'.future ≠ e.future := by
          intro heq
          rw [heq] at hd'
          exact hd' hd
        rw [isDropped_change_of_ne hne]
        exact hd
      · have hc := Table.countP_modify (fun f : Acquire => f.phase.isLive)
          (Acquire.setPhase .dropped) hf
        rw [hlive, hcount] at hc
        simp only [Acquire.setPhase, Phase.isLive, toNat_true, toNat_false, add_zero] at hc
        exact Nat.add_right_cancel hc

theorem release_to_front (hl : w.Linked)
    (hw : w.state.waiters = e :: rest) (hfront : w.state.permits < e.needed) :
    (w.release (e.needed - w.state.permits)).state =
      { w.state with permits := 0, waiters := rest } := by
  obtain ⟨f, -, -, hn⟩ := hl.future_of_mem (by rw [hw]; exact mem_cons_self)
  have hlt := f.needed.toNat_lt
  have hsum : uadd w.state.permits (e.needed - w.state.permits) = e.needed := by
    rw [uadd_eq (by omega)]
    omega
  have hrest : serve Waiter.needed 0 rest = (0, [], rest) := by
    cases hr : rest with
    | nil => rfl
    | cons e' rest' =>
      refine serve_cons_of_lt Waiter.needed rest' (hl.needed_pos ?_)
      rw [hw, hr]
      exact mem_cons_of_mem _ mem_cons_self
  simp only [World.release, State.release, hsum, hw,
    serve_cons_of_le Waiter.needed rest (Nat.le_refl e.needed), Nat.sub_self, hrest]

theorem leadsTo_of_deserted : ∀ (ahead : List Waiter) {w : World}, w.Orderly →
    w.state.closed = false → ∀ {e : Waiter} {rest : List Waiter},
    w.state.waiters = ahead ++ e :: rest → 2 ≤ e.needed → w.isDropped e.future →
    (semaphore permits).LeadsTo (fun _ => True) Blocked w
  | [], _, ho, hc, _, _, hw, htwo, hd => leadsTo_of_front _ ho hc hw htwo hd rfl
  | e₀ :: ahead, w, ho, hc, e, rest, hw, htwo, hd => by
    have hfront := ho.2.front e₀ _ hw
    have hstate := release_to_front ho.1 hw hfront
    obtain ⟨f, -, -, hn⟩ := ho.1.future_of_mem (e := e₀) (by rw [hw]; exact mem_cons_self)
    have hnat : (UInt64.ofNat (e₀.needed - w.state.permits)).toNat =
        e₀.needed - w.state.permits := by
      have hlt := f.needed.toNat_lt
      have hsize : UInt64.size = 2 ^ 64 := rfl
      exact UInt64.toNat_ofNat_of_lt (by omega)
    have hstep : w.step (.addPermits (UInt64.ofNat (e₀.needed - w.state.permits))) =
        some { w.release (e₀.needed - w.state.permits) with
          added := w.added + (e₀.needed - w.state.permits) } := by
      rw [step, hnat]
    have hwaiters : (w.release (e₀.needed - w.state.permits)).state.waiters =
        ahead ++ e :: rest := by
      rw [hstate]
      rfl
    refine .of_step (e := .addPermits (UInt64.ofNat (e₀.needed - w.state.permits)))
      trivial hstep (leadsTo_of_deserted ahead (orderly_of_step ho hstep) ?_ hwaiters htwo ?_)
    · rw [hstate]
      exact hc
    · change (w.release (e₀.needed - w.state.permits)).isDropped e.future
      rw [isDropped_release]
      exact hd

theorem deserts_cases {l : Label} (h : w.deserts l) : ∃ (i : ℕ) (f : Acquire),
    l = .drop i ∧ w.state.closed = false ∧ w.futures[i]? = some f ∧ f.IsQueued ∧
      2 ≤ f.needed.toNat := by
  cases l with
  | drop i =>
    rw [deserts, Bool.and_eq_true, Bool.not_eq_true', Option.any_eq_true] at h
    obtain ⟨hc, f, hf, h⟩ := h
    rw [and_eq_true, and_eq_true, beq_iff_eq, decide_eq_true_iff] at h
    exact ⟨i, f, rfl, hc, hf, h.1, h.2⟩
  | _ => cases h

end Deserted

/-- **A dropped future blocks nobody, unless it was queued for two permits or more.**  As long as
none is dropped while the semaphore is open, nobody is blocked; and after such a drop further calls
lead to a state in which somebody is. -/
theorem not_blocked_unless_deserts (permits : UInt64) :
    (∀ w, (semaphore permits).ReachableUnder (fun w l => w.deserts l = false) w → ¬ w.Blocked) ∧
    ∀ w l v, (semaphore permits).Reachable w → w.deserts l = true → w.step l = some v →
      (semaphore permits).LeadsTo (fun _ => True) Blocked v := by
  constructor
  · intro w hw
    have hmodest : w.Modest := by
      refine hw.inv (fun _ e he => absurd he not_mem_nil) fun s l t hr hI hn hs => ?_
      exact modest_of_step hI (orderly_of_reachable hr).1 hn hs
    exact hmodest.not_blocked (orderly_of_reachable hw.reachable)
  · intro w l v hw hd hs
    have ho := orderly_of_reachable hw
    obtain ⟨i, f, rfl, hc, hi, hq, htwo⟩ := deserts_cases hd
    cases steps_of_step hs with
    | drop hi' hp =>
      -- the waiter of the dropped future stays where it is
      have hline := (ho.1.line i).mpr ⟨f, hi, hq⟩
      rw [line, ho.1.untold hc, append_nil, List.mem_map] at hline
      obtain ⟨e, he, hei⟩ := hline
      have hn := ho.1.needed e he f (hei ▸ hi)
      obtain ⟨ahead, rest, hw⟩ := append_of_mem he
      refine leadsTo_of_deserted ahead (orderly_of_step ho hs) hc hw (hn ▸ htwo)
        (isDropped_iff.mpr ⟨f.setPhase .dropped, ?_, rfl⟩)
      rw [hei]
      exact change_self hi _

theorem blocked_after_drop : ∃ w v : World, (semaphore 1).Reachable w ∧ ¬ w.Blocked ∧
    w.step (.drop 0) = some v ∧ (semaphore 1).LeadsTo (fun _ => True) Blocked v := by
  obtain ⟨hsafe, hbad⟩ := not_blocked_unless_deserts 1
  have hw : (semaphore 1).ReachableUnder (fun w l => w.deserts l = false) _ :=
    ⟨[.start 2 false, .poll 0, .start 1 false, .poll 1], rfl, by decide⟩
  exact ⟨_, _, hw.reachable, hsafe _ hw, rfl, hbad _ (.drop 0) _ hw.reachable (by decide) rfl⟩

/-- **A dropped future can block another.**  Of two parked futures the first, which needs two
permits, is dropped: a permit is there, the second needs one, and only that waiter is ahead. -/
theorem exists_blocked : ∃ w : World, (semaphore 1).Reachable w ∧ w.Blocked := by
  refine ⟨⟨⟨1, false, [⟨2, 0⟩, ⟨1, 1⟩]⟩,
      [⟨2, false, .pending, true, .dropped⟩, ⟨1, false, .pending, true, .parked false⟩],
      [], [], [], 0, 0, [0, 1], []⟩,
    ⟨[.start 2 false, .poll 0, .start 1 false, .poll 1, .drop 0], rfl⟩, rfl, 1,
    ⟨1, false, .pending, true, .parked false⟩, rfl, rfl, by decide, by decide, by decide⟩

end World
end RustyTokio.Semaphore

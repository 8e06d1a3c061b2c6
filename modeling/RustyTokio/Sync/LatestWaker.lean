import RustyTokio.Sync.SemaphoreQueue
import RustyTokio.Sync.WatchUpdates

/-!
# The waker of the last poll

The contract of `Future::poll` is that the waker of the *last* poll is the one that counts.  The
futures of `Semaphore::acquire_many` and of `watch::Receiver::changed` hand a waker over behind a
flag, `registered`: a later poll leaves the waker of the first one in place.
-/

namespace RustyTokio

open Transition Option Table Bool

/-! ## The semaphore -/

namespace Semaphore

/-- The last poll returned pending, and nothing has been decided since. -/
def Acquire.Undecided (f : Acquire) : Prop := f.phase.isParked = true ∧ f.outcome = .pending

namespace World

variable {w v : World} {l : Label} {n j : ℕ} {f' : Acquire} {k i : ℕ}

def tells (w : World) : Label → List ℕ
  | .addPermits n => (w.state.release n.toNat).2.map Waiter.future
  | .dropPermit k => (w.permits[k]?.elim [] fun n => (w.state.release n).2).map Waiter.future
  | .dropOwned k => (w.ownedPermits[k]?.elim [] fun n => (w.state.release n).2).map Waiter.future
  | .closeNext => w.closing.take 1
  | _ => []

theorem tells_dropPermit (hk : w.permits[k]? = some n) :
    w.tells (.dropPermit k) = (w.state.release n).2.map Waiter.future := by
  show (w.permits[k]?.elim [] fun n => (w.state.release n).2).map Waiter.future = _
  rw [hk, elim_some]

theorem tells_dropOwned (hk : w.ownedPermits[k]? = some n) :
    w.tells (.dropOwned k) = (w.state.release n).2.map Waiter.future := by
  show (w.ownedPermits[k]?.elim [] fun n => (w.state.release n).2).map Waiter.future = _
  rw [hk, elim_some]

theorem tells_closeNext {rest : List ℕ} (hc : w.closing = i :: rest) :
    w.tells .closeNext = [i] := by
  show w.closing.take 1 = [i]
  rw [hc]
  rfl

def Turns (w : World) (l : Label) (j : ℕ) (f f' : Acquire) : Prop :=
  f' = f ∨ (j ∈ w.tells l ∧ ∃ o, o ≠ .pending ∧ f' = f.tell o) ∨
    (f'.outcome = f.outcome ∧ (l = .poll j ∨ f'.phase.isParked = false))

theorem turns_of_change {u : World} {g : Acquire → Acquire}
    (hu : u.futures = w.futures) (hj : (u.change i g).futures[j]? = some f')
    (hg : ∀ f, w.futures[i]? = some f → w.Turns l i f (g f)) :
    ∃ f, w.futures[j]? = some f ∧ w.Turns l j f f' := by
  rcases of_change hj with ⟨rfl, f, hf, rfl⟩ | ⟨-, hj⟩
  · exact ⟨f, hu ▸ hf, hg f (hu ▸ hf)⟩
  · exact ⟨f', hu ▸ hj, .inl rfl⟩

theorem turns_of_release (hj : (w.release n).futures[j]? = some f')
    (hl : w.tells l = (w.state.release n).2.map Waiter.future) :
    ∃ f, w.futures[j]? = some f ∧ w.Turns l j f f' := by
  rw [getElem?_release] at hj
  obtain ⟨f, hf, rfl⟩ := Option.map_eq_some_iff.mp hj
  refine ⟨f, hf, ?_⟩
  by_cases hmem : j ∈ (w.state.release n).2.map Waiter.future
  · rw [if_pos hmem]
    exact .inr (.inl ⟨hl ▸ hmem, .granted, by simp, rfl⟩)
  · rw [if_neg hmem]
    exact .inl rfl

theorem turns_of_step (hs : w.step l = some v) (hj : v.futures[j]? = some f') :
    (∃ n owned, f' = Acquire.new n owned) ∨ ∃ f, w.futures[j]? = some f ∧ w.Turns l j f f' := by
  cases steps_of_step hs with
  | start =>
    rcases of_snoc hj with hj | ⟨-, rfl⟩
    · exact .inr ⟨f', hj, .inl rfl⟩
    · exact .inl ⟨_, _, rfl⟩
  | panic hi hp h0 | refuse hi hp ho | queue hi hp h0 ho hr hc hw | repoll hi hp ho hr =>
    exact .inr (turns_of_change rfl hj fun f _ => .inr (.inr ⟨rfl, .inl rfl⟩))
  | observe hi hp ho | take hi hp ho hr hc hw hn =>
    rw [hand_futures] at hj
    exact .inr (turns_of_change rfl hj fun f _ => .inr (.inr ⟨rfl, .inl rfl⟩))
  | drop hi hp =>
    exact .inr (turns_of_change rfl hj fun f _ => .inr (.inr ⟨rfl, .inr rfl⟩))
  | tryTake hc hw hn =>
    rw [hand_futures] at hj
    exact .inr ⟨f', hj, .inl rfl⟩
  | addPermits => exact .inr (turns_of_release hj rfl)
  | dropPermit hk => exact .inr (turns_of_release hj (tells_dropPermit hk))
  | dropOwned hk => exact .inr (turns_of_release hj (tells_dropOwned hk))
  | closeNext hc =>
    refine .inr (turns_of_change (u := { w with closing := _ }) rfl hj fun f _ =>
      .inr (.inl ⟨?_, .closed, by simp, rfl⟩))
    rw [tells_closeNext hc]
    exact List.mem_cons_self
  | _ => exact .inr ⟨f', hj, .inl rfl⟩

theorem mem_tells_of_step {f : Acquire} (hs : w.step l = some v)
    (hj : w.futures[j]? = some f) (ho : f.outcome = .pending)
    (hj' : v.futures[j]? = some f') (ho' : f'.outcome ≠ .pending) : j ∈ w.tells l := by
  rcases turns_of_step hs hj' with ⟨n, owned, rfl⟩ | ⟨f₀, hf₀, hturn⟩
  · exact absurd rfl ho'
  · cases hj.symm.trans hf₀
    rcases hturn with rfl | ⟨hmem, -⟩ | ⟨hsame, -⟩
    · exact absurd ho ho'
    · exact hmem
    · exact absurd (hsame.trans ho) ho'

theorem undecided_of_step (hs : w.step l = some v)
    (hj : v.futures[j]? = some f') (hu : f'.Undecided) :
    ∃ f, w.futures[j]? = some f ∧ f.outcome = .pending ∧ (l ≠ .poll j → f.Undecided) := by
  rcases turns_of_step hs hj with ⟨n, owned, rfl⟩ | ⟨f, hf, hturn⟩
  · exact absurd hu.1 Bool.false_ne_true
  · refine ⟨f, hf, ?_⟩
    rcases hturn with rfl | ⟨-, o, ho, rfl⟩ | ⟨hsame, hl⟩
    · exact ⟨hu.2, fun _ => hu⟩
    · exact absurd hu.2 ho
    · refine ⟨hsame ▸ hu.2, fun hne => ?_⟩
      cases ((hl.resolve_left hne).symm).trans hu.1

end World

/-- The wakers of a future: of its last poll, and in its waiter, once it has one. -/
structure Wakers where
  last : ℕ
  entry : ℕ
  deriving DecidableEq

structure Tasks where
  world : World
  wakers : List Wakers
  deriving DecidableEq

namespace Tasks

/-- The wakers after a call, which is made with a waker if it is a poll.  The waiter of a
future takes the waker of the poll that pushes it. -/
def note (t : Tasks) (l : Label) (waker : ℕ) : List Wakers :=
  match l with
  | .start _ _ => t.wakers ++ [⟨0, 0⟩]
  | .poll i =>
    t.wakers.modify i fun k =>
      ⟨waker, if t.world.futures[i]?.any Acquire.registered then k.entry else waker⟩
  | _ => t.wakers

def step (t : Tasks) (l : Label × ℕ) : Option Tasks :=
  (t.world.step l.1).map fun w => ⟨w, t.note l.1 l.2⟩

def alerts (t : Tasks) (l : Label) : List ℕ :=
  (t.world.tells l).filterMap fun i => t.wakers[i]?.map Wakers.entry

/-- The future has a waiter that was told nothing, and is polled with a waker that is not the
one in the waiter. -/
def stale (t : Tasks) (l : Label × ℕ) : Bool :=
  match l with
  | (.poll i, waker) =>
    match t.world.futures[i]?, t.wakers[i]? with
    | some f, some k => f.registered && f.outcome == .pending && k.entry != waker
    | _, _ => false
  | _ => false

/-- A call can decide a parked future without waking the waker of its last poll. -/
def Missed (t : Tasks) : Prop :=
  ∃ (l : Label × ℕ) (u : Tasks) (j : ℕ) (f f' : Acquire) (k : Wakers), t.step l = some u ∧
    t.world.futures[j]? = some f ∧ f.Undecided ∧ u.world.futures[j]? = some f' ∧
    f'.outcome ≠ .pending ∧ t.wakers[j]? = some k ∧ k.last ∉ t.alerts l.1

end Tasks

def tasks (permits : UInt64) : System Tasks (Label × ℕ) where
  init := ⟨(semaphore permits).init, []⟩
  step := Tasks.step

namespace Tasks

variable {t u : Tasks} {l : Label × ℕ} {permits : UInt64} {j : ℕ} {k : Wakers} {f : Acquire}

theorem step_eq_some (hs : t.step l = some u) :
    t.world.step l.1 = some u.world ∧ u.wakers = t.note l.1 l.2 := by
  obtain ⟨w, hw, rfl⟩ := Option.map_eq_some_iff.mp hs
  exact ⟨hw, rfl⟩

theorem linked_of_reachable (h : (tasks permits).Reachable t) : t.world.Linked :=
  System.inv_of_reachable (I := fun t : Tasks => t.world.Linked) (World.linked_init permits)
    (fun _ _ _ h hs => World.linked_of_step h (step_eq_some hs).1) h

/-- The waker of an undecided waiter is that of its last poll. -/
structure Fresh (t : Tasks) : Prop where
  linked : t.world.Linked
  latest : ∀ (j : ℕ) (f : Acquire) (k : Wakers), t.world.futures[j]? = some f →
    t.wakers[j]? = some k → f.Undecided → k.last = k.entry

theorem note_of_ne (hj : (t.note l.1 l.2)[j]? = some k)
    (hl : l.1 ≠ .poll j) : t.wakers[j]? = some k ∨ k.last = k.entry := by
  obtain ⟨l, waker⟩ := l
  cases l with
  | start n owned =>
    rcases of_snoc hj with hj | ⟨-, rfl⟩
    · exact .inl hj
    · exact .inr rfl
  | poll i =>
    rcases of_modify hj with ⟨rfl, -⟩ | ⟨-, hj⟩
    · exact absurd rfl hl
    · exact .inl hj
  | _ => exact .inl hj

theorem fresh_of_step (h : t.Fresh) (hstale : t.stale l = false) (hs : t.step l = some u) :
    u.Fresh := by
  obtain ⟨hw, hn⟩ := step_eq_some hs
  refine ⟨World.linked_of_step h.linked hw, ?_⟩
  intro j f' k hj hk hu
  obtain ⟨f, hf, ho, hkeep⟩ := World.undecided_of_step hw hj hu
  rw [hn] at hk
  by_cases hl : l.1 = .poll j
  · obtain ⟨l, waker⟩ := l
    obtain rfl : l = .poll j := hl
    obtain ⟨-, k₀, hk₀, rfl⟩ := (of_modify hk).resolve_right fun hne => hne.1 rfl
    rw [hf, any_some]
    -- a waiter is there only if it holds this waker already
    by_cases hr : f.registered
    · simp only [stale, hf, hk₀, hr, ho, beq_self_eq_true, Bool.and_self, Bool.true_and,
        bne_eq_false_iff_eq] at hstale
      rw [if_pos hr, hstale]
    · rw [if_neg hr]
  · rcases note_of_ne hk hl with hk | hk
    · exact h.latest j f k hf hk (hkeep hl)
    · exact hk

theorem fresh_init (permits : UInt64) : (tasks permits).init.Fresh := by
  refine ⟨World.linked_init permits, ?_⟩
  intro j f k hj
  simp [tasks, semaphore] at hj

theorem fresh_of_reachableUnder
    (h : (tasks permits).ReachableUnder (fun t l => t.stale l = false) t) : t.Fresh :=
  System.inv_of_reachableUnder (fresh_init permits)
    (fun _ _ _ h hc hs => fresh_of_step h hc hs) h

theorem Fresh.not_missed (h : t.Fresh) : ¬ t.Missed := by
  rintro ⟨l, u, j, f, f', k, hs, hj, hu, hj', ho', hk, hnot⟩
  have hmem := World.mem_tells_of_step (step_eq_some hs).1 hj hu.2 hj' ho'
  refine hnot (List.mem_filterMap.mpr ⟨j, hmem, ?_⟩)
  rw [hk, h.latest j f k hj hk hu]
  rfl

theorem missed_of_closing : ∀ (todo : List ℕ) (t : Tasks), t.world.closing = todo → j ∈ todo →
      t.world.futures[j]? = some f → f.Undecided → t.wakers[j]? = some k → k.last ≠ k.entry →
      (tasks permits).LeadsTo (fun l => l.1 = .close ∨ l.1 = .closeNext) Missed t := by
  intro todo
  induction todo with
  | nil => exact fun _ _ hmem => absurd hmem List.not_mem_nil
  | cons i rest ih =>
    intro t hclosing hmem hj hu hk hne
    have hs : t.step (.closeNext, 0) = some
        ⟨World.change { t.world with closing := rest } i (Acquire.tell .closed), t.wakers⟩ := by
      simp only [step, World.step, hclosing, map_some, note]
    obtain rfl | hij := eq_or_ne i j
    · refine .now ⟨_, _, i, f, f.tell .closed, k, hs, hj, hu, ?_, by
        simp [Acquire.tell], hk, ?_⟩
      · exact World.change_self (w := { t.world with closing := rest }) hj _
      · simpa [alerts, World.tells_closeNext hclosing, hk] using hne
    · refine .of_step (.inr rfl) hs (ih _ rfl ?_ ?_ hu hk hne)
      · exact (List.mem_cons.mp hmem).resolve_left fun heq => hij heq.symm
      · exact (World.change_of_ne (w := { t.world with closing := rest }) hij _).trans hj

theorem mem_closing_of_close {w : World} (h : w.Linked)
    (hj : w.futures[j]? = some f) (hq : f.IsQueued) :
    j ∈ w.closing ++ w.state.close.2.map Waiter.future := by
  have hline := (h.line j).mpr ⟨f, hj, hq⟩
  rw [World.line, List.mem_append] at hline
  rw [State.close, List.mem_append]
  by_cases hc : w.state.closed
  · rw [h.emptied hc] at hline
    exact .inl (hline.resolve_left List.not_mem_nil)
  · rw [if_neg hc]
    exact hline.symm

theorem missed_of_stale (hw : (tasks permits).Reachable t)
    (hs : t.step l = some u) (hstale : t.stale l) :
    (tasks permits).LeadsTo (fun l => l.1 = .close ∨ l.1 = .closeNext) Missed u := by
  obtain ⟨l, waker⟩ := l
  cases l with
  | poll i =>
    rw [stale] at hstale
    split at hstale
    next f k hf hk =>
      simp only [and_eq_true, beq_iff_eq, bne_iff_ne] at hstale
      obtain ⟨⟨hr, ho⟩, hne⟩ := hstale
      obtain ⟨hstep, hn⟩ := step_eq_some hs
      have hpark : u.world.futures[i]? = some f.park := by
        rw [World.step, hf] at hstep
        obtain ⟨hp, hstep⟩ := Option.ite_none_right_eq_some.mp hstep
        have hneeds : f.needed ≠ 0 := by
          intro h0
          have hpos := ((linked_of_reachable hw).valid i f hf).needs hr
          rw [h0] at hpos
          cases hpos
        rw [if_neg hneeds] at hstep
        rw [← Option.some.inj hstep, World.poll, State.pollAcquire, ho, hr]
        exact World.change_self (w := { t.world with queued := t.world.queued }) hf _
      have hwakers : u.wakers[i]? = some ⟨waker, k.entry⟩ := by
        rw [hn, note, modify_self hk, hf, any_some, if_pos hr]
      have hlinked := linked_of_reachable (hw.step hs)
      have hmem := mem_closing_of_close hlinked hpark ⟨rfl, ho⟩
      refine .of_step (e := (.close, 0)) (.inl rfl) rfl
        (missed_of_closing _ _ rfl hmem hpark ⟨rfl, ho⟩ hwakers hne.symm)
    · cases hstale
  | _ => cases hstale

end Tasks

end Semaphore

/-! ## The channel -/

namespace Watch

variable {α : Type}

namespace World

variable {w v : World α} {l : Label α}

def alerts (w : World α) : Label α → List ℕ
  | .send value =>
    match w.inner.send value with
    | (_, .ok wakers) => wakers
    | (_, .error _) => []
  | .sendModify modify => (w.inner.sendModify modify).2
  | .dropSender => w.inner.dropSender.2
  | _ => []

/-- A call can make a parked future ready without waking the waker of its last poll. -/
def Missed (w : World α) : Prop :=
  ∃ l v f, w.step l = some v ∧ f ∈ w.futures ∧ f.phase.isParked = true ∧
    w.waits f.kind = true ∧ v.waits f.kind = false ∧ f.waker ∉ w.alerts l

theorem alerts_of_ready {f : Sleeper Changed} (h : w.Sound) (hs : w.step l = some v)
    (hf : f ∈ w.futures) (hp : f.phase.isParked) (hwaits : w.waits f.kind)
    (hready : v.waits f.kind = false) : w.alerts l = w.inner.wakers := by
  have hsame : v.waits f.kind ≠ w.waits f.kind := by
    rw [hwaits, hready]
    exact Bool.false_ne_true
  have hl := Phase.isLive_of_isParked hp
  cases steps_of_step hs with
  | update value ha hl =>
    rcases hl with ⟨rfl, hr⟩ | ⟨modify, rfl, -⟩
    · rw [alerts, Inner.send, if_neg hr]
    · rfl
  | dropSender ha => rfl
  | cloneReceiver hr ha hb =>
    exact (hsame (waits_eq (List.getElem?_append_left (h.owner f hf hl)) rfl rfl)).elim
  | dropReceiver hr ha hb | borrowAndUpdate hr ha hb =>
    exact (hsame (waits_eq (List.getElem?_set_ne (ne_of_free hb hf hp)) rfl rfl)).elim
  | @marks i waker g rcv hi hl' hr hv =>
    -- the receiver that is marked does not wait
    have hne : g.kind.receiver ≠ f.kind.receiver := by
      intro heq
      obtain ⟨rcv', hr', hv', -⟩ := waits_iff.mp hwaits
      rw [← heq] at hr'
      cases hr.symm.trans hr'
      exact hv hv'
    exact (hsame (waits_eq (List.getElem?_set_ne hne) rfl rfl)).elim
  | _ => exact (hsame (waits_eq rfl rfl rfl)).elim

theorem Heard.not_missed (h : w.Heard) (hk : w.Sound) : ¬ w.Missed := by
  rintro ⟨l, v, f, hs, hf, hp, hwaits, hready, hnot⟩
  rw [alerts_of_ready hk hs hf hp hwaits hready] at hnot
  exact hnot (h.waiting f hf hp hwaits)

theorem missed_of_stale (hs : w.step l = some v) (hstale : w.stale l) : v.Missed := by
  cases l with
  | poll i waker =>
    cases steps_poll hs with
    | @repolls _ _ f rcv hi hl hr hv ha hg =>
      simp only [stale, hi, and_eq_true, not_eq_true'] at hstale
      obtain ⟨⟨-, hwaits⟩, hnot⟩ := hstale
      have hlt := (lt_of_some hi)
      have hstep : World.step
          { w with futures := w.futures.set i ⟨f.kind, waker, .parked false⟩ } .dropSender =
          some
            { w with
              inner := { w.inner with senderAlive := false, wakers := [] }
              futures := w.futures.set i ⟨f.kind, waker, .parked false⟩
              hands := w.hands ++ [w.inner.wakers] } := by
        simp only [step, ha, if_true, Inner.dropSender]
      refine ⟨.dropSender, _, ⟨f.kind, waker, .parked false⟩, hstep, List.mem_set hlt _, rfl,
        hwaits, waits_of_dropped _ rfl, ?_⟩
      intro hmem
      cases hnot.symm.trans (List.contains_iff_mem.mpr hmem)
    | update value ha hl =>
      rcases hl with ⟨hl, -⟩ | ⟨modify, hl, -⟩ <;> cases hl
    | marks hi hl hr hv =>
      simp only [stale, hi, and_eq_true] at hstale
      obtain ⟨rcv', hr', hv', -⟩ := waits_iff.mp hstale.1.2
      cases hr.symm.trans hr'
      exact absurd hv' hv
    | refuses hi hl hr hv ha =>
      simp only [stale, hi, and_eq_true, waits_of_dropped _ ha] at hstale
      exact absurd hstale.1.2 Bool.false_ne_true
    | registers hi hl hr hv ha hg =>
      simp only [stale, hi, hg, Bool.false_and] at hstale
      cases hstale
  | _ => cases hstale

end World

end Watch

/-! ## Both -/

variable {α : Type}

/-- **The waker of the last poll is woken, but for stale polls.**  Without one, no call on
semaphore or channel makes a parked future ready without waking the waker of its last poll.  After
one, from any reachable state, some call can: for the semaphore once it is closed, for the channel
at once. -/
theorem latest_waker_unless_stale (permits : UInt64) (initial : α) :
    ((∀ t, (Semaphore.tasks permits).ReachableUnder (fun t l => t.stale l = false) t → ¬ t.Missed) ∧
      ∀ t l u, (Semaphore.tasks permits).Reachable t → t.step l = some u → t.stale l = true →
        (Semaphore.tasks permits).LeadsTo (fun l => l.1 = .close ∨ l.1 = .closeNext)
          Semaphore.Tasks.Missed u) ∧
    (∀ w, (Watch.watch initial).ReachableUnder (fun w l => w.stale l = false) w → ¬ w.Missed) ∧
      ∀ w l v, (Watch.watch initial).Reachable w → w.step l = some v → w.stale l = true →
        v.Missed := by
  refine ⟨⟨fun t ht => ?_, fun t l u ht hs hstale => ?_⟩, fun w hw => ?_, fun w l v _ hs hstale =>
    ?_⟩
  · exact (Semaphore.Tasks.fresh_of_reachableUnder ht).not_missed
  · exact Semaphore.Tasks.missed_of_stale ht hs hstale
  · have hk := Watch.World.sound_of_reachable hw.reachable
    have hh := Watch.World.heard_of_reachableUnder hw
    exact hh.not_missed hk
  · exact Watch.World.missed_of_stale hs hstale

theorem latest_waker_after_polls :
    (∃ t, (Semaphore.tasks 0).ReachableUnder (fun t l => t.stale l = false) t ∧
      t.wakers = [⟨5, 5⟩] ∧ ¬ t.Missed) ∧
    (∃ t u, (Semaphore.tasks 0).Reachable t ∧ t.step (.poll 0, 6) = some u ∧
      (Semaphore.tasks 0).LeadsTo (fun l => l.1 = .close ∨ l.1 = .closeNext)
        Semaphore.Tasks.Missed u) ∧
    (∃ w, (Watch.watch 0).ReachableUnder (fun w l => w.stale l = false) w ∧
      w.inner.wakers = [5] ∧ ¬ w.Missed) ∧
    ∃ w v, (Watch.watch 0).Reachable w ∧ w.step (.poll 0 6) = some v ∧ v.Missed := by
  refine ⟨?_, ?_, ?_, ?_⟩
  · have ht : (Semaphore.tasks 0).ReachableUnder (fun t l => t.stale l = false) _ :=
      ⟨[(.start 1 false, 0), (.poll 0, 5), (.poll 0, 5)], rfl, by decide⟩
    exact ⟨_, ht, rfl, (latest_waker_unless_stale 0 0).1.1 _ ht⟩
  · have ht : (Semaphore.tasks 0).Reachable _ := ⟨[(.start 1 false, 0), (.poll 0, 5)], rfl⟩
    exact ⟨_, _, ht, rfl, (latest_waker_unless_stale 0 0).1.2 _ (.poll 0, 6) _ ht rfl rfl⟩
  · have hw : (Watch.watch 0).ReachableUnder (fun w l => w.stale l = false) _ :=
      ⟨[.changed 0, .poll 0 5, .poll 0 5], rfl, by decide⟩
    exact ⟨_, hw, rfl, (latest_waker_unless_stale 0 0).2.1 _ hw⟩
  · have hw : (Watch.watch 0).Reachable _ := ⟨[.changed 0, .poll 0 5], rfl⟩
    exact ⟨_, _, hw, rfl, (latest_waker_unless_stale 0 0).2.2 _ (.poll 0 6) _ hw rfl rfl⟩

/-- A future is polled by two tasks, each time in vain; a permit is added, or the value sent,
and only the first task is woken. -/
theorem exists_latest_waker_missed : (∃ t, (Semaphore.tasks 0).Reachable t ∧ t.wakers = [⟨6, 5⟩] ∧
      t.alerts (.addPermits 1) = [5] ∧ t.Missed) ∧
    ∃ w, (Watch.watch 0).Reachable w ∧ w.futures.map Sleeper.waker = [6] ∧
      w.alerts (.send 1) = [5] ∧ w.Missed := by
  constructor
  · refine ⟨_, ⟨[(.start 1 false, 0), (.poll 0, 5), (.poll 0, 6)], rfl⟩, rfl, rfl,
      (.addPermits 1, 0), _, 0, _, _, _, rfl, rfl, ⟨rfl, rfl⟩, rfl, ?_, rfl, ?_⟩ <;> decide
  · refine ⟨_, ⟨[.changed 0, .poll 0 5, .poll 0 6], rfl⟩, rfl, rfl, .send 1, _, _, rfl,
      List.mem_singleton.mpr rfl, rfl, rfl, rfl, ?_⟩
    decide

end RustyTokio

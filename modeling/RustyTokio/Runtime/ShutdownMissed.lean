import RustyTokio.Runtime.ShutdownSignal

/-!
# Whether a shutdown is missed

A poll of `shutdown_notified` that has read the flag before it was set, and has not queued
its entry when `notify_waiters` takes the queue, is told by nobody.  Every other future is
woken by the first call before that call returns, or finds the flag set.
-/

namespace RustyTokio.Shutdown

open Transition Coop Notify List Table

/-! ## Who is stranded -/

/-- The poll under way has found the flag not set, and has yet to queue its entry. -/
def pastFlag (f : Waiter) (g : Notified) : Bool :=
  !g.registered &&
    ((match f.next with
      | some (_, budget) => (pollProceed budget).isSome
      | none => false) || match g.pc with
    | .locking _ => true
    | _ => false)

theorem pastFlag_of_alike {f f' : Waiter} {g g' : Notified} (hf : f'.next = f.next)
    (hg : Alike g g') : pastFlag f' g' = pastFlag f g := by
  rw [pastFlag, pastFlag, hf, hg.pc, hg.registered]

theorem pastFlag_eq_false {f : Waiter} {g : Notified} (hf : f.next = none)
    (hg : ∀ waker, g.pc ≠ .locking waker) : pastFlag f g = false := by
  rw [pastFlag, hf]
  cases hp : g.pc with
  | locking waker => exact absurd hp (hg waker)
  | _ => simp

namespace World

/-- The last poll of future `j` returned pending, and the waker it was given has not been
woken since. -/
def Asleep (w : World) (j : ℕ) : Prop :=
  ∃ f g, w.waiters[j]? = some f ∧ w.signal.futures[j]? = some g ∧ f.ended = false ∧
    f.next = none ∧ g.pc = .idle ∧ g.status = .pending ∧ j ∉ w.yielded ∧ g.told = false

/-- A `notify_waiters` has returned. -/
def Returned (w : World) : Prop := ∃ n ∈ w.signal.notifiers, n.todo = []

/-- A call has returned, and somebody has not been told. -/
def Stranded (w : World) : Prop := w.Returned ∧ ∃ j, w.Asleep j

/-- `notify_waiters` takes the queue while a poll is past the flag and not queued. -/
def misses (w : World) : Label → Bool
  | .notify => (w.waiters.zip w.signal.futures).any fun p => pastFlag p.1 p.2
  | _ => false

/-- After the signal nobody is queued or past the flag. -/
structure Sealed (w : World) : Prop where
  queue : w.signal.notifiers ≠ [] → w.signal.waiters = []
  past : w.signal.notifiers ≠ [] → ∀ (j : ℕ) (f : Waiter) (g : Notified),
    w.waiters[j]? = some f → w.signal.futures[j]? = some g → pastFlag f g = false
  rest : ∀ (k : ℕ) (n : Notifier), w.signal.notifiers[k]? = some n → 0 < k → n.taken = []

section Step

variable {w : World} {j : ℕ} {s : Notify.World}

theorem Sealed.of_own (h : w.Sealed) {l : Notify.Label} {ws : List Waiter} {y : List ℕ}
    (hs : Notify.World.Steps w.signal l s) (hl : own l = some j)
    (hq : w.signal.notifiers ≠ [] → s.waiters = []) (hws : ∀ i, j ≠ i → ws[i]? = w.waiters[i]?)
    (hp : w.signal.notifiers ≠ [] → ∀ f g, ws[j]? = some f → s.futures[j]? = some g →
      pastFlag f g = false) : Sealed { w with signal := s, waiters := ws, yielded := y } := by
  obtain ⟨hnot, c, hfutures⟩ := futures_of_own hs hl
  refine ⟨fun hne => hq (hnot ▸ hne), fun hne i f g hi hg => ?_, by rw [hnot]; exact h.rest⟩
  have hne' : w.signal.notifiers ≠ [] := hnot ▸ hne
  obtain rfl | hij := eq_or_ne j i
  · exact hp hne' f g hi hg
  · have hi' : w.waiters[i]? = some f := hws i hij ▸ hi
    have hg' : s.futures[i]? = some g := hg
    rw [hfutures, modify_of_ne hij] at hg'
    exact h.past hne' i f g hi' hg'

theorem Sealed.enter (h : w.Sealed) {waker : ℕ} {budget : Option ℕ} {made ended : Bool}
    (hj : w.waiters[j]? = some ⟨made, some (waker, budget), ended⟩)
    (hs : Notify.World.Steps w.signal (.poll j waker budget) s) : Sealed { w with
        signal := s
        waiters := w.waiters.set j ⟨true, none, ended⟩
        yielded := noteYield w.yielded j budget } := by
  have hq : s.waiters = w.signal.waiters := by
    cases hs <;> rfl
  refine h.of_own hs rfl (fun hne => hq.trans (h.queue hne)) (fun i hi => getElem?_set_ne hi)
    fun hne f g hf hg => ?_
  have hnext : f.next = none := by rw [eq_of_set hf]
  cases hs with
  | @pollYields _ b _ _ hi hl hp hb | @pollReady _ b _ _ _ hi hl hp hb hw =>
    refine pastFlag_eq_false hnext fun waker => ?_
    have hg' := Option.some.inj ((modify_self hi _).symm.trans hg)
    simp [← hg', Notified.leave]
  | @pollLocks _ b _ _ _ hi hl hp hb hw =>
    -- the budget is there, so the future was queued by an earlier poll
    have hold := h.past hne j _ b hj hi
    have hg' := Option.some.inj ((modify_self hi _).symm.trans hg)
    have hreg : b.registered := by simpa [pastFlag, hb] using hold
    simp [pastFlag, ← hg', Notified.setPc, hreg]

theorem Sealed.advance (h : w.Sealed) (hk : w.Kept)
    (hs : Notify.World.Steps w.signal (.advance j) s) : Sealed { w with signal := s } := by
  have hf : ∀ g, w.signal.futures[j]? = some g → ∃ f, w.waiters[j]? = some f := by
    intro g hg
    have hlt := (lt_of_some hg)
    rw [← hk.length] at hlt
    exact ⟨_, getElem?_eq_getElem hlt⟩
  have hpc : ∀ (c : Notified → Notified) (b g : Notified), w.signal.futures[j]? = some b →
      (∀ waker, (c b).pc ≠ .locking waker) → (w.signal.futures.modify j c)[j]? = some g →
      ∀ f, w.waiters[j]? = some f → pastFlag f g = false := by
    intro c b g hb hc hg f hf
    refine pastFlag_eq_false ((hk.of_advance hs hf).1) ?_
    exact Option.some.inj ((modify_self hb c).symm.trans hg) ▸ hc
  refine h.of_own (y := w.yielded) hs rfl (fun hne => ?_) (fun _ _ => rfl)
    fun hne f g hf hg => ?_
  · cases hs with
    | registers hi hp hr hw =>
      obtain ⟨f, hf⟩ := hf _ hi
      have hold := h.past hne j f _ hf hi
      simp [pastFlag, hr, hp] at hold
    | enableRegisters hi hp hw => exact absurd hp (hk.quiet.tidy j _ hi).enabling
    | registeredAlready => exact h.queue hne
    | takesPermit => exact h.queue hne
    | stores => exact h.queue hne
    | rechecks => exact h.queue hne
    | enableTakesPermit => exact h.queue hne
  · cases hs with
    | registeredAlready hi hp hr =>
      exact hpc _ _ g hi (by simp [Notified.setPc]) hg f hf
    | takesPermit hi hp hr hw => exact hpc _ _ g hi (by simp [Notified.takePermit]) hg f hf
    | registers hi hp hr hw => exact hpc _ _ g hi (by simp [Notified.register]) hg f hf
    | stores hi hp => exact hpc _ _ g hi (by simp [Notified.store]) hg f hf
    | rechecks hi hp => exact hpc _ _ g hi (by simp [Notified.leave]) hg f hf
    | enableTakesPermit hi hp hw =>
      exact hpc _ _ g hi (by simp [Notified.enablePermit]) hg f hf
    | enableRegisters hi hp hw => exact hpc _ _ g hi (by simp [Notified.register]) hg f hf

theorem Sealed.drop (h : w.Sealed) {f : Waiter} (hf : f.next = none)
    (hs : Notify.World.Steps w.signal (.drop j) s) :
    Sealed { w with signal := s, waiters := w.waiters.set j { f with ended := true } } := by
  cases hs with
  | @drop _ b hi hl hp =>
    refine h.of_own (y := w.yielded) (.drop hi hl hp) rfl h.queue
      (fun i hi => getElem?_set_ne hi) fun hne f' g hf' hg => ?_
    refine pastFlag_eq_false (by rw [eq_of_set hf']; exact hf) fun waker => ?_
    have hg' := Option.some.inj ((modify_self hi _).symm.trans hg)
    simp [← hg', Notified.leave]

theorem Sealed.notify (h : w.Sealed) (hm : w.misses .notify = false)
    (hs : Notify.World.Steps w.signal .notifyWaiters s) :
    Sealed { w with signal := s, notifying := false } := by
  cases hs
  refine ⟨fun _ => rfl, fun _ j f g hj hg => ?_, fun k n hk hpos => ?_⟩
  · have hmem : (f, g) ∈ w.waiters.zip w.signal.futures :=
      mem_of_getElem? (getElem?_zip_eq_some.mpr ⟨hj, hg⟩)
    have hall := any_eq_false.mp hm (f, g) hmem
    simpa using hall
  · rcases of_snoc hk with hk | ⟨rfl, rfl⟩
    · exact h.rest k n hk hpos
    · exact h.queue (length_pos_iff.mp hpos)

theorem Sealed.fire (h : w.Sealed) {k : ℕ} (hs : Notify.World.Steps w.signal (.fire k) s) :
    Sealed { w with signal := s } := by
  obtain ⟨hq, -, hlen, hfutures, hnotifiers⟩ := alike_of_fire hs
  have hne : s.notifiers ≠ [] → w.signal.notifiers ≠ [] := by
    intro hne he
    rw [he] at hlen
    exact hne (length_eq_zero_iff.mp hlen)
  refine ⟨fun hn => hq.trans (h.queue (hne hn)), fun hn i f g hi hg => ?_, fun i n hi hpos => ?_⟩
  · obtain ⟨g', hg', ha⟩ := hfutures i g hg
    rw [pastFlag_of_alike rfl ha]
    exact h.past (hne hn) i f g' hi hg'
  · obtain ⟨m, hm, ht, -⟩ := hnotifiers i n hi
    rw [ht]
    exact h.rest i m hm hpos

end Step

theorem sealed_of_step {w v : World} {l : Label} (h : w.Sealed) (hk : w.Kept)
    (hm : w.misses l = false) (hs : Steps w l v) : v.Sealed := by
  cases hs with
  | start hs =>
    cases hs
    refine ⟨h.queue, fun hne j f g hj hg => ?_, h.rest⟩
    rcases of_snoc_snoc hk.length hj hg with ⟨hj, hg⟩ | ⟨rfl, rfl⟩
    · exact h.past hne j f g hj hg
    · exact pastFlag_eq_false rfl (by simp [Notified.new])
  | @pollReady j waker budget f hj hf hd =>
    refine ⟨h.queue, fun hne i b g hi hg => ?_, h.rest⟩
    rcases of_set hi with ⟨rfl, rfl⟩ | ⟨-, hi⟩
    · exact h.past hne j f g hj hg
    · exact h.past hne i b g hi hg
  | pollPasses hj hf hd =>
    have hnil : w.signal.notifiers = [] := by
      by_contra hne
      cases hd.symm.trans (hk.flag (.inr hne))
    exact ⟨fun hne => absurd hnil hne, fun hne => absurd hnil hne, h.rest⟩
  | enter hj hs => exact h.enter hj hs
  | advance hs => exact h.advance hk hs
  | drop hj hf hs =>
    obtain ⟨-, hn, -⟩ := idle_iff hf
    exact h.drop hn hs
  | begin hr => exact ⟨h.queue, h.past, h.rest⟩
  | notify hn hs => exact h.notify hm hs
  | fire hs => exact h.fire hs

theorem sealed_of_reachableUnder {w : World}
    (h : shutdownSystem.ReachableUnder (fun w l => w.misses l = false) w) : w.Sealed := by
  refine h.inv ?_ fun _ _ _ hr hI hm hs =>
    sealed_of_step hI (kept_of_reachable hr) hm (steps_of_step hs)
  exact ⟨fun hne => absurd rfl hne, fun hne => absurd rfl hne,
    by simp [shutdownSystem, notifySystem]⟩

theorem Sealed.not_stranded {w : World} (h : w.Sealed) (hk : w.Kept) : ¬ w.Stranded := by
  rintro ⟨⟨n, hn, htodo⟩, j, f, g, hj, hg, -, -, hpc, hstatus, hy, htold⟩
  obtain ⟨hreg, hstored⟩ := (hk.quiet.tidy j g hg).parked hpc hstatus hy
  have hne : w.signal.notifiers ≠ [] := ne_nil_of_mem hn
  obtain ⟨k, hkn⟩ := getElem?_of_mem hn
  -- the entry was taken, and only the first call can have taken it
  rcases hk.linked.placed j g hg hreg with hmem | ⟨m, hm, hjm⟩
  · rw [h.queue hne] at hmem
    cases hmem
  · obtain ⟨i, him⟩ := getElem?_of_mem hm
    have hi : i = 0 := by
      by_contra hpos
      rw [h.rest i m him (Nat.pos_of_ne_zero hpos)] at hjm
      cases hjm
    subst hi
    have hthrough : m.todo = [] := by
      obtain rfl | hk0 := eq_or_ne k 0
      · cases hkn.symm.trans him
        exact htodo
      · have hlt := (lt_of_some hkn)
        exact hk.through 0 m him (.inr (by omega))
    obtain ⟨g', hg', hfired⟩ := (hk.linked.notifiers m hm).all_fired hthrough j hjm
    cases hg.symm.trans hg'
    exact (hk.linked.sound j g hg).not_lost ⟨hpc, hstatus, hfired, hstored, htold⟩

/-! ## After a poll was missed -/

theorem run_fire {k : ℕ} : ∀ {es : List Notify.Label} {w : World} {s : Notify.World},
    (∀ e ∈ es, e = .fire k) → notifySystem.run w.signal es = some s →
    shutdownSystem.run w (es.map fun _ => .fire k) = some { w with signal := s }
  | [], w, s, _, h => by
    cases h
    rfl
  | e :: es, w, s, hes, h => by
    obtain ⟨u, hu, hr⟩ := System.run_cons_eq_some.mp h
    obtain rfl := hes e mem_cons_self
    have hstep : w.step (.fire k) = some { w with signal := u } := by
      rw [step, show w.signal.step (.fire k) = some u from hu]
      rfl
    have hnext := run_fire (w := { w with signal := u })
      (fun e he => hes e (mem_cons_of_mem _ he)) hr
    exact System.run_cons_eq_some.mpr ⟨_, hstep, hnext⟩

variable {g : Notified}

theorem step_advance {w : World} {j : ℕ} {t : Notify.World}
    (hg : w.signal.futures[j]? = some g) (ht : w.signal.advance j g = some t) :
    w.step (.advance j) = some { w with signal := t } := by
  simp [step, Notify.World.step, hg, ht]

theorem asleep_of_locking {w : World} (h : w.Kept) {j waker : ℕ} {f : Waiter}
    (hj : w.waiters[j]? = some f) (hg : w.signal.futures[j]? = some g)
    (hp : g.pc = .locking waker) (hr : g.registered = false) :
    ∃ v, shutdownSystem.run w [.advance j, .advance j, .advance j] = some v ∧
      v.signal.notifiers = w.signal.notifiers ∧ v.Asleep j := by
  have hover : f.ended = false := by
    by_contra hov
    have := (h.ended j f g hj hg (by simpa using hov)).2
    simp [hp] at this
  have hnext : f.next = none := by
    by_contra hne
    have := (h.next j f g hj hg hne).1
    simp [hp] at this
  have hw := (h.quiet.unseen j g hg hr).1
  have hy := (h.quiet.tidy j g hg).proceeds (by simp [hp])
  -- the entry is queued, the waker is stored, and the flag of the entry is found not set
  let s1 := Notify.World.change { w.signal with waiters := w.signal.waiters ++ [j] } j
    (.register (.storing waker))
  let s2 := s1.change j (.store waker)
  let s3 := s2.change j (.leave .pending)
  have hg1 := modify_self hg (Notified.register (.storing waker))
  have hg2 := modify_self hg1 (Notified.store waker)
  have hg3 := modify_self hg2 (Notified.leave .pending)
  have h1 : w.signal.advance j g = some s1 := by
    simp [Notify.World.advance, hp, Notify.World.lockPoll, hr, h.quiet.permits, s1]
  have h3 : s2.advance j ((g.register (.storing waker)).store waker) = some s3 := by
    simp [Notify.World.advance, Notified.store, Notified.register, hw, s3]
  have hrun : shutdownSystem.run w [.advance j, .advance j, .advance j] =
      some { w with signal := s3 } :=
    System.run_cons_eq_some.mpr ⟨{ w with signal := s1 }, step_advance hg h1,
      System.run_cons_eq_some.mpr ⟨{ w with signal := s2 }, step_advance hg1 rfl,
        System.run_cons_eq_some.mpr ⟨{ w with signal := s3 }, step_advance hg2 h3, rfl⟩⟩⟩
  exact ⟨_, hrun, rfl, f, _, hj, hg3, hover, hnext, rfl, rfl, hy, rfl⟩

theorem locking_of_past {w : World} (h : w.Kept) {j : ℕ} {f : Waiter}
    (hj : w.waiters[j]? = some f) (hg : w.signal.futures[j]? = some g) (hpast : pastFlag f g) :
    ∃ es v f' g' waker, (∀ e ∈ es, e = Label.enter j) ∧ shutdownSystem.run w es = some v ∧
      v.signal.notifiers = w.signal.notifiers ∧ v.waiters[j]? = some f' ∧
      v.signal.futures[j]? = some g' ∧ g'.pc = .locking waker ∧ g'.registered = false := by
  obtain ⟨made, next, ended⟩ := f
  rw [pastFlag, Bool.and_eq_true, Bool.not_eq_true', Bool.or_eq_true] at hpast
  obtain ⟨hr, hpast⟩ := hpast
  rcases hpast with hpast | hpast
  · cases next with
    | none => cases hpast
    | some p =>
      obtain ⟨waker, budget⟩ := p
      obtain ⟨rest, hb⟩ := Option.isSome_iff_exists.mp hpast
      obtain ⟨hp, hl⟩ := h.next j _ g hj hg (by simp)
      have hw := (h.quiet.unseen j g hg hr).1
      have hlt := (lt_of_some hj)
      have hstep : w.step (.enter j) = some
          { w with
            signal := w.signal.change j (.setPc (.locking waker))
            waiters := w.waiters.set j ⟨true, none, ended⟩
            yielded := noteYield w.yielded j budget } := by
        simp [step, hj, Notify.World.step, hg, hl, hp, Notify.World.beginPoll, hb, hw]
      exact ⟨[.enter j], _, _, _, waker, fun e he => mem_singleton.mp he,
        System.run_cons_eq_some.mpr ⟨_, hstep, rfl⟩, rfl, getElem?_set_self hlt,
        modify_self hg _, rfl, hr⟩
  · cases hp : g.pc with
    | locking waker =>
      exact ⟨[], w, _, g, waker, fun e he => absurd he not_mem_nil, rfl, rfl, hj, hg, hp, hr⟩
    | _ => simp [hp] at hpast

/-- **A missed poll.**  When `notify_waiters` has taken the queue while a poll was past the
flag, the call returns and the poll goes to sleep, if these two move on alone. -/
theorem stranded_of_misses {w v : World} (hw : shutdownSystem.Reachable w)
    (hv : w.step .notify = some v) (hm : w.misses .notify) :
    shutdownSystem.LeadsTo (fun l => l ≠ .begin) Stranded v := by
  have hk := kept_of_reachable (hw.step (e := .notify) hv)
  obtain ⟨⟨f, g⟩, hmem, hpast⟩ := List.any_eq_true.mp hm
  obtain ⟨j, hfg⟩ := getElem?_of_mem hmem
  obtain ⟨hj, hg⟩ := List.getElem?_zip_eq_some.mp hfg
  have hr : g.registered = false := by
    rw [pastFlag, Bool.and_eq_true, Bool.not_eq_true'] at hpast
    exact hpast.1
  cases steps_of_step hv with
  | @notify s hn hs =>
    cases hs
    -- the call first: its notifier has not seen the entry
    let n : Notifier := ⟨w.signal.waiters, w.signal.waiters, false⟩
    have hlast : (w.signal.notifiers ++ [n])[w.signal.notifiers.length]? = some n :=
      getElem?_concat_length
    have hjn : j ∉ n.todo :=
      (hk.quiet.unseen j g hg hr).2.2 n (mem_append_right _ (List.mem_singleton.mpr rfl))
    obtain ⟨es, s, hes, hrun, ⟨-, -, hfr⟩, m, hm, -, htodo⟩ :=
      Notify.World.leadsTo_through hk.linked hlast rfl
    have hfire := run_fire hes hrun
    have hk' := System.inv_of_any_run (S := shutdownSystem) (I := Kept)
      (fun _ _ _ h hs => kept_of_step h (steps_of_step hs)) hk hfire
    -- then the poll
    have hg' : s.futures[j]? = some g := (hfr j hjn).trans hg
    obtain ⟨fs, u, f', g', waker, hfs, hu, hun, hj', hg'', hp', hr'⟩ :=
      locking_of_past hk' hj hg' hpast
    have hku := System.inv_of_any_run (S := shutdownSystem) (I := Kept)
      (fun _ _ _ h hs => kept_of_step h (steps_of_step hs)) hk' hu
    obtain ⟨x, hx, hxn, hasleep⟩ := asleep_of_locking hku hj' hg'' hp' hr'
    have hreturned : x.Returned := by
      refine ⟨m, mem_of_getElem? (i := w.signal.notifiers.length) ?_, htodo⟩
      rw [hxn, hun]
      exact hm
    refine .of_run (fun e he => ?_) hfire (.of_run (fun e he => ?_) hu
      (.of_run (fun e he => ?_) hx (.now ⟨hreturned, j, hasleep⟩)))
    · obtain ⟨-, -, rfl⟩ := List.mem_map.mp he
      simp
    · simp [hfs e he]
    · simp only [mem_cons, not_mem_nil, or_false, or_self] at he
      simp [he]

/-- **No shutdown is missed, but for polls past the flag.**  In a run in which `notify_waiters`
never takes the queue while a poll has passed the flag and has yet to queue its entry, no state is
stranded.  After a step of the other kind one can be reached without a further call. -/
theorem not_stranded_unless_missed (w : World) :
    (shutdownSystem.ReachableUnder (fun w l => w.misses l = false) w → ¬ w.Stranded) ∧
    ∀ l v, shutdownSystem.Reachable w → w.step l = some v → w.misses l = true →
      shutdownSystem.LeadsTo (fun l => l ≠ .begin) Stranded v := by
  refine ⟨fun hw => ?_, fun l v hw hv hm => ?_⟩
  · exact (sealed_of_reachableUnder hw).not_stranded (kept_of_reachable hw.reachable)
  · cases l with
    | notify => exact stranded_of_misses hw hv hm
    | _ => cases hm

theorem not_stranded_after_parking :
    (∃ w, shutdownSystem.ReachableUnder (fun w l => w.misses l = false) w ∧ w.Returned ∧
      w.signal.futures.map Notified.status = [.pending] ∧ ¬ w.Stranded) ∧
    ∃ w v, shutdownSystem.Reachable w ∧ w.step .notify = some v ∧
      shutdownSystem.LeadsTo (fun l => l ≠ .begin) Stranded v := by
  constructor
  · have hw : shutdownSystem.ReachableUnder (fun w l => w.misses l = false) _ :=
      ⟨[.start, .poll 0 7 none, .enter 0, .advance 0, .advance 0, .advance 0, .begin, .notify,
        .fire 0, .fire 0], rfl, by decide⟩
    exact ⟨_, hw, ⟨_, mem_singleton.mpr rfl, rfl⟩, rfl, (not_stranded_unless_missed _).1 hw⟩
  · have hw : shutdownSystem.Reachable _ := ⟨[.start, .poll 0 7 none, .begin], rfl⟩
    exact ⟨_, _, hw, rfl, (not_stranded_unless_missed _).2 .notify _ hw rfl rfl⟩

/-- A poll reads the flag; the flag is set and `notify_waiters` finds the queue empty; the
poll goes on to queue its entry, stores its waker and returns pending. -/
theorem exists_missed_shutdown : ∃ w, shutdownSystem.Reachable w ∧ w.Stranded := by
  refine ⟨_, ⟨[.start, .poll 0 7 none, .begin, .notify, .enter 0, .advance 0, .advance 0,
    .advance 0], rfl⟩, ⟨⟨[], [], false⟩, mem_singleton.mpr rfl, rfl⟩, 0, _, _, rfl, rfl, ?_⟩
  decide

end World

end RustyTokio.Shutdown

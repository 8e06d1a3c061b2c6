import RustyTokio.Runtime.Shutdown
import RustyTokio.Sync.NotifyWakeups

/-!
# What holds while futures wait for a shutdown

`shutdown_signal` is used in one way only: its futures are polled and dropped, nobody calls
`enable`, and its only notifier is `notify_waiters`.  So no permit is ever banked, and a future that
has not been queued has been seen by no notifier.
-/

namespace RustyTokio.Shutdown

open Transition Coop Notify List Option Bool Table

/-! ## The signal, as it is used here -/

/-- Where a `Notified` of `wait_for_shutdown` can be. -/
structure Tidy (ys : List ℕ) (j : ℕ) (g : Notified) : Prop where
  enabling : g.pc ≠ .enabling
  storing : ∀ waker, g.pc = .storing waker → g.registered = true
  rechecking : g.pc = .rechecking → g.registered = true ∧ g.stored ≠ none
  parked : g.pc = .idle → g.status = .pending → j ∉ ys → g.registered = true ∧ g.stored ≠ none
  proceeds : g.pc ≠ .idle → j ∉ ys

/-- No permit is stored, and what is not registered nobody has taken. -/
structure Quiet (ys : List ℕ) (s : Notify.World) : Prop where
  permits : s.permits = 0
  unseen : ∀ (j : ℕ) (g : Notified), s.futures[j]? = some g → g.registered = false →
    g.woken = false ∧ j ∉ s.waiters ∧ ∀ n ∈ s.notifiers, j ∉ n.taken
  tidy : ∀ (j : ℕ) (g : Notified), s.futures[j]? = some g → Tidy ys j g

namespace Quiet

variable {ys zs : List ℕ} {s t : Notify.World} {i : ℕ} {f : Notified} {g : Notified → Notified}

section

variable (h : Quiet ys s)

include h

theorem registered (hi : s.futures[i]? = some f) {n : Notifier}
    (hn : n ∈ s.notifiers) (hin : i ∈ n.taken) : f.registered := by
  cases hr : f.registered with
  | true => rfl
  | false => exact absurd hin ((h.unseen i f hi hr).2.2 n hn)

theorem of_change (hi : s.futures[i]? = some f)
    (hfutures : t.futures = s.futures.modify i g) (hpermits : t.permits = s.permits)
    (hwaiters : t.waiters = s.waiters)
    (htaken : ∀ n ∈ t.notifiers, ∃ m ∈ s.notifiers, n.taken = m.taken)
    (hr : (g f).registered = f.registered)
    (hw : f.registered = false → (g f).woken = f.woken) (ht : Tidy zs i (g f))
    (hz : ∀ j, j ≠ i → (j ∉ zs ↔ j ∉ ys)) : Quiet zs t := by
  refine ⟨hpermits.trans h.permits, ?_, ?_⟩
  · rw [hfutures, hwaiters]
    intro j b hj hb
    have hold : ∀ a, s.futures[j]? = some a → a.registered = false →
        a.woken = false ∧ j ∉ s.waiters ∧ ∀ n ∈ t.notifiers, j ∉ n.taken := by
      intro a ha har
      obtain ⟨haw, haq, han⟩ := h.unseen j a ha har
      refine ⟨haw, haq, fun n hn => ?_⟩
      obtain ⟨m, hm, hnm⟩ := htaken n hn
      rw [hnm]
      exact han m hm
    rcases of_modify hj with ⟨rfl, a, ha, rfl⟩ | ⟨-, hj⟩
    · cases hi.symm.trans ha
      rw [hr] at hb
      rw [hw hb]
      exact hold f hi hb
    · exact hold b hj hb
  · rw [hfutures]
    intro j b hj
    rcases of_modify hj with ⟨rfl, a, ha, rfl⟩ | ⟨hij, hj⟩
    · cases hi.symm.trans ha
      exact ht
    · have hta := h.tidy j b hj
      have hji : j ≠ i := hij.symm
      exact ⟨hta.enabling, hta.storing, hta.rechecking,
        fun hp hs hj => hta.parked hp hs ((hz j hji).mp hj),
        fun hp => (hz j hji).mpr (hta.proceeds hp)⟩

theorem of_step (hi : s.futures[i]? = some f) (hr : (g f).registered = f.registered)
    (hw : f.registered = false → (g f).woken = f.woken) (ht : Tidy zs i (g f))
    (hz : ∀ j, j ≠ i → (j ∉ zs ↔ j ∉ ys)) : Quiet zs (s.change i g) :=
  h.of_change hi rfl rfl rfl (fun n hn => ⟨n, hn, rfl⟩) hr hw ht hz

theorem start (hl : s.Linked) : Quiet ys { s with futures := s.futures ++ [.new] } := by
  have hnew : ∀ {j : ℕ} {g : Notified}, s.futures[j]? = some g → j ≠ s.futures.length := by
    intro j g hj he
    rw [he, List.getElem?_eq_none_iff.mpr (Nat.le_refl _)] at hj
    cases hj
  refine ⟨h.permits, fun j g hj hr => ?_, fun j g hj => ?_⟩
  · rcases of_snoc hj with hj | ⟨rfl, rfl⟩
    · exact h.unseen j g hj hr
    · refine ⟨rfl, fun hq => ?_, fun n hn hq => ?_⟩
      · obtain ⟨g, hg⟩ := hl.valid _ hq
        exact hnew hg rfl
      · obtain ⟨done, htaken, hdone⟩ := (hl.notifiers n hn).split
        rw [htaken] at hq
        rcases mem_append.mp hq with hq | hq
        · obtain ⟨g, hg, -⟩ := hdone _ hq
          exact hnew hg rfl
        · obtain ⟨g, hg⟩ := (hl.notifiers n hn).valid _ hq
          exact hnew hg rfl
  · rcases of_snoc hj with hj | ⟨-, rfl⟩
    · exact h.tidy j g hj
    · exact ⟨by simp [Notified.new], by simp [Notified.new], by simp [Notified.new],
        by simp [Notified.new], by simp [Notified.new]⟩

theorem poll {waker : ℕ} {budget : Option ℕ}
    (hs : Notify.World.Steps s (.poll i waker budget) t) : Quiet (noteYield ys i budget) t := by
  have hys : ∀ j, j ≠ i → (j ∉ noteYield ys i budget ↔ j ∉ ys) := by
    intro j hj
    rw [noteYield]
    split <;> simp [hj]
  cases hs with
  | @pollYields _ f _ _ hi hl hp hb =>
    have hmem : i ∈ noteYield ys i budget := by
      rw [noteYield, hb]
      exact mem_cons_self
    have ht : Tidy (noteYield ys i budget) i (f.leave .pending) :=
      ⟨by simp [Notified.leave], by simp [Notified.leave], by simp [Notified.leave],
        fun _ _ hn => absurd hmem hn, fun hp => absurd rfl hp⟩
    exact h.of_step hi rfl (fun _ => rfl) ht hys
  | @pollReady _ f _ _ _ hi hl hp hb hw =>
    have ht : Tidy (noteYield ys i budget) i (f.leave .ready) :=
      ⟨by simp [Notified.leave], by simp [Notified.leave], by simp [Notified.leave],
        by simp [Notified.leave], fun hp => absurd rfl hp⟩
    exact h.of_step hi rfl (fun _ => rfl) ht hys
  | @pollLocks _ f _ _ _ hi hl hp hb hw =>
    have hnot : i ∉ noteYield ys i budget := by
      rw [noteYield, hb]
      simp
    have ht : Tidy (noteYield ys i budget) i (f.setPc (.locking waker)) :=
      ⟨by simp [Notified.setPc], by simp [Notified.setPc], by simp [Notified.setPc],
        by simp [Notified.setPc], fun _ => hnot⟩
    exact h.of_step hi rfl (fun _ => rfl) ht hys

theorem register (hi : s.futures[i]? = some f) (hf : f.pc ≠ .idle) (waker : ℕ) :
    Quiet ys (Notify.World.change { s with waiters := s.waiters ++ [i] } i
      (.register (.storing waker))) := by
  refine ⟨h.permits, fun j b hj hb => ?_, fun j b hj => ?_⟩
  · rcases of_modify hj with ⟨-, a, -, rfl⟩ | ⟨hij, hj⟩
    · simp [Notified.register] at hb
    · obtain ⟨hw, hq, hn⟩ := h.unseen j b hj hb
      refine ⟨hw, fun hmem => ?_, hn⟩
      rcases mem_append.mp hmem with hmem | hmem
      · exact hq hmem
      · exact hij (mem_singleton.mp hmem).symm
  · refine forall_modify (P := fun j g => Tidy ys j g) hi ?_ h.tidy j b hj
    exact ⟨by simp [Notified.register], fun _ _ => rfl, by simp [Notified.register],
      by simp [Notified.register], fun _ => (h.tidy i f hi).proceeds hf⟩

theorem advance (hs : Notify.World.Steps s (.advance i) t) : Quiet ys t := by
  cases hs with
  | @registeredAlready _ f waker hi hp hr =>
    have ht : Tidy ys i (f.setPc (.storing waker)) :=
      ⟨by simp [Notified.setPc], fun _ _ => hr, by simp [Notified.setPc],
        by simp [Notified.setPc],
        fun _ => (h.tidy i f hi).proceeds (by simp [hp])⟩
    exact h.of_step hi rfl (fun _ => rfl) ht fun _ _ => Iff.rfl
  | takesPermit hi hp hr hw =>
    rw [h.permits] at hw
    exact absurd hw (Nat.lt_irrefl 0)
  | registers hi hp hr hw => exact h.register hi (by simp [hp]) _
  | @stores _ f waker hi hp =>
    have ht : Tidy ys i (f.store waker) :=
      ⟨by simp [Notified.store], by simp [Notified.store],
        fun _ => ⟨(h.tidy i f hi).storing waker hp, by simp [Notified.store]⟩,
        by simp [Notified.store],
        fun _ => (h.tidy i f hi).proceeds (by simp [hp])⟩
    exact h.of_step hi rfl (fun _ => rfl) ht fun _ _ => Iff.rfl
  | @rechecks _ f hi hp =>
    have ht : Tidy ys i (f.leave (if f.woken then .ready else .pending)) :=
      ⟨by simp [Notified.leave], by simp [Notified.leave], by simp [Notified.leave],
        fun _ _ _ => (h.tidy i f hi).rechecking hp, fun hp => absurd rfl hp⟩
    exact h.of_step hi rfl (fun _ => rfl) ht fun _ _ => Iff.rfl
  | enableTakesPermit hi hp hw | enableRegisters hi hp hw =>
    exact absurd hp (h.tidy i _ hi).enabling

theorem drop (hs : Notify.World.Steps s (.drop i) t) : Quiet ys t := by
  cases hs with
  | @drop _ f hi hl hp =>
    have ht : Tidy ys i (f.leave .dropped) :=
      ⟨by simp [Notified.leave], by simp [Notified.leave], by simp [Notified.leave],
        by simp [Notified.leave], fun hp => absurd rfl hp⟩
    exact h.of_step hi rfl (fun _ => rfl) ht fun _ _ => Iff.rfl

theorem notifyWaiters (hs : Notify.World.Steps s .notifyWaiters t) : Quiet ys t := by
  cases hs
  refine ⟨h.permits, fun j g hj hr => ?_, h.tidy⟩
  obtain ⟨hw, hq, hn⟩ := h.unseen j g hj hr
  refine ⟨hw, not_mem_nil, fun n hmem => ?_⟩
  rcases mem_append.mp hmem with hmem | hmem
  · exact hn n hmem
  · obtain rfl := mem_singleton.mp hmem
    exact hq

theorem fire (hl : s.Linked) {k : ℕ} (hs : Notify.World.Steps s (.fire k) t) : Quiet ys t := by
  have htaken : ∀ {n : Notifier} {todo : List ℕ} {m : Bool}, s.notifiers[k]? = some n →
      ∀ x ∈ s.notifiers.set k ⟨n.taken, todo, m⟩, ∃ y ∈ s.notifiers, x.taken = y.taken := by
    intro n todo m hk x hx
    rcases mem_or_eq_of_mem_set hx with hx | rfl
    · exact ⟨x, hx, rfl⟩
    · exact ⟨n, mem_of_getElem? hk, rfl⟩
  have hentry : ∀ {n : Notifier} {e : ℕ} {rest : List ℕ}, s.notifiers[k]? = some n →
      n.todo = e :: rest → ∃ f, s.futures[e]? = some f ∧ f.registered := by
    intro n e rest hk ht
    have hn := mem_of_getElem? hk
    obtain ⟨f, hf⟩ := (hl.notifiers n hn).valid e (by simp [ht])
    obtain ⟨done, hdone, -⟩ := (hl.notifiers n hn).split
    exact ⟨f, hf, h.registered hf hn (by simp [hdone, ht])⟩
  cases hs with
  | @marks _ n e rest hk ht hm =>
    obtain ⟨f, hf, hr⟩ := hentry hk ht
    have hold := h.tidy e f hf
    exact h.of_change hf rfl rfl rfl (htaken hk) rfl
      (fun hn => absurd (hn.symm.trans hr) Bool.false_ne_true)
      ⟨hold.enabling, hold.storing, hold.rechecking, hold.parked, hold.proceeds⟩ fun _ _ => Iff.rfl
  | @takesWaker _ n e rest hk ht hm =>
    obtain ⟨f, hf, hr⟩ := hentry hk ht
    have hold := h.tidy e f hf
    exact h.of_change hf rfl rfl rfl (htaken hk) rfl (fun _ => rfl)
      ⟨hold.enabling, hold.storing, hold.rechecking, hold.parked, hold.proceeds⟩ fun _ _ => Iff.rfl

end

end Quiet

/-! ## What a step of the signal leaves alone -/

def own : Notify.Label → Option ℕ
  | .poll i _ _ => some i
  | .advance i => some i
  | .drop i => some i
  | _ => none

theorem futures_of_own {s t : Notify.World} {l : Notify.Label} {i : ℕ}
    (hs : Notify.World.Steps s l t) (hl : own l = some i) :
    t.notifiers = s.notifiers ∧ ∃ g, t.futures = s.futures.modify i g := by
  cases hs with
  | start | enableReturns | enableLocks | notifyOne | notifyLast | notifyWaiters | marks
  | takesWaker => simp [own] at hl
  | _ =>
    cases hl
    exact ⟨rfl, _, rfl⟩

structure Alike (g g' : Notified) : Prop where
  pc : g'.pc = g.pc
  status : g'.status = g.status
  registered : g'.registered = g.registered

theorem alike_of_fire {s t : Notify.World} {k : ℕ} (hs : Notify.World.Steps s (.fire k) t) :
    t.waiters = s.waiters ∧ t.futures.length = s.futures.length ∧
      t.notifiers.length = s.notifiers.length ∧
      (∀ (j : ℕ) (g' : Notified), t.futures[j]? = some g' →
        ∃ g, s.futures[j]? = some g ∧ Alike g g') ∧
      ∀ (j : ℕ) (n : Notifier), t.notifiers[j]? = some n →
        ∃ m, s.notifiers[j]? = some m ∧ n.taken = m.taken ∧ (m.todo = [] → n.todo = []) := by
  have hfutures : ∀ {e : ℕ} {c : Notified → Notified}, (∀ g, Alike g (c g)) →
      ∀ (j : ℕ) (g' : Notified), (s.futures.modify e c)[j]? = some g' →
        ∃ g, s.futures[j]? = some g ∧ Alike g g' := by
    intro e c hc j g' hj
    rcases of_modify hj with ⟨-, a, ha, rfl⟩ | ⟨-, hj⟩
    · exact ⟨a, ha, hc a⟩
    · exact ⟨g', hj, rfl, rfl, rfl⟩
  have hnotifiers : ∀ {n n' : Notifier}, s.notifiers[k]? = some n → n.todo ≠ [] →
      n'.taken = n.taken → ∀ (j : ℕ) (x : Notifier), (s.notifiers.set k n')[j]? = some x →
        ∃ m, s.notifiers[j]? = some m ∧ x.taken = m.taken ∧ (m.todo = [] → x.todo = []) := by
    intro n n' hk hn ht j x hj
    rw [getElem?_set] at hj
    obtain rfl | hkj := eq_or_ne k j
    · rw [if_pos rfl, if_pos (lt_of_some hk)] at hj
      cases hj
      exact ⟨n, hk, ht, fun h => absurd h hn⟩
    · rw [if_neg hkj] at hj
      exact ⟨x, hj, rfl, id⟩
  cases hs with
  | marks hk ht hm | takesWaker hk ht hm =>
    exact ⟨rfl, length_modify .., length_set, hfutures fun _ => ⟨rfl, rfl, rfl⟩,
      hnotifiers hk (by simp [ht]) rfl⟩

/-! ## The futures and the calls -/

namespace World

/-- The waiters and their `Notified` go together, and the flag is set before the signal. -/
structure Kept (w : World) : Prop where
  linked : w.signal.Linked
  quiet : Quiet w.yielded w.signal
  length : w.waiters.length = w.signal.futures.length
  next : ∀ (j : ℕ) (f : Waiter) (g : Notified), w.waiters[j]? = some f →
    w.signal.futures[j]? = some g → f.next ≠ none → g.pc = .idle ∧ g.status.isLive = true
  ended : ∀ (j : ℕ) (f : Waiter) (g : Notified), w.waiters[j]? = some f →
    w.signal.futures[j]? = some g → f.ended = true → f.next = none ∧ g.pc = .idle
  flag : w.notifying = true ∨ w.signal.notifiers ≠ [] → w.shuttingDown = true
  through : ∀ (k : ℕ) (n : Notifier), w.signal.notifiers[k]? = some n →
    w.notifying = true ∨ k + 1 < w.signal.notifiers.length → n.todo = []

theorem idle_iff {w : World} {j : ℕ} {f : Waiter} (h : w.idle j f) :
    f.ended = false ∧ f.next = none ∧
      ∃ g, w.signal.futures[j]? = some g ∧ g.status.isLive ∧ g.pc = .idle := by
  rw [idle, and_eq_true, and_eq_true, not_eq_true', isNone_iff_eq_none] at h
  obtain ⟨⟨ho, hn⟩, hg⟩ := h
  refine ⟨ho, hn, ?_⟩
  cases hj : w.signal.futures[j]? with
  | none => simp [hj] at hg
  | some g =>
    simp only [hj, and_eq_true, decide_eq_true_eq] at hg
    exact ⟨g, rfl, hg.1, hg.2⟩

section Step

variable {w : World} {j : ℕ} {s : Notify.World} {f : Waiter}

theorem Kept.of_own (h : w.Kept) {l : Notify.Label} {ws : List Waiter} {ys : List ℕ}
    (hs : Notify.World.Steps w.signal l s) (hl : own l = some j) (hq : Quiet ys s)
    (hlen : ws.length = w.waiters.length) (hws : ∀ i, j ≠ i → ws[i]? = w.waiters[i]?)
    (hn : ∀ f, ws[j]? = some f → f.next = none)
    (ho : ∀ f g, ws[j]? = some f → s.futures[j]? = some g → f.ended → g.pc = .idle) :
    Kept { w with signal := s, waiters := ws, yielded := ys } := by
  obtain ⟨hnot, c, hfutures⟩ := futures_of_own hs hl
  have hrest : ∀ {i : ℕ} {g : Notified}, j ≠ i → s.futures[i]? = some g →
      w.signal.futures[i]? = some g := by
    intro i g hij hg
    rwa [hfutures, modify_of_ne hij] at hg
  refine ⟨Notify.World.linked_of_step h.linked hs, hq, ?_, fun i f g hi hg hne => ?_,
    fun i f g hi hg hov => ?_, ?_, ?_⟩
  · change ws.length = s.futures.length
    rw [hfutures, length_modify, hlen]
    exact h.length
  · obtain rfl | hij := eq_or_ne j i
    · exact absurd (hn f hi) hne
    · exact h.next i f g (hws i hij ▸ hi) (hrest hij hg) hne
  · obtain rfl | hij := eq_or_ne j i
    · exact ⟨hn f hi, ho f g hi hg hov⟩
    · exact h.ended i f g (hws i hij ▸ hi) (hrest hij hg) hov
  · rw [hnot]
    exact h.flag
  · rw [hnot]
    exact h.through

theorem eq_of_set {f' : Waiter} (hi : (w.waiters.set j f)[j]? = some f') : f' = f := by
  rcases of_set hi with ⟨-, heq⟩ | ⟨hne, -⟩
  · exact heq
  · exact absurd rfl hne

theorem Kept.of_advance (h : w.Kept) (hs : Notify.World.Steps w.signal (.advance j) s)
    (hj : w.waiters[j]? = some f) : f.next = none ∧ f.ended = false := by
  have hpc : ∃ g, w.signal.futures[j]? = some g ∧ g.pc ≠ .idle := by
    cases hs with
    | registeredAlready hi hp hr | takesPermit hi hp hr hw | registers hi hp hr hw
    | stores hi hp | rechecks hi hp | enableTakesPermit hi hp hw | enableRegisters hi hp hw =>
      exact ⟨_, hi, by simp [hp]⟩
  obtain ⟨g, hg, hp⟩ := hpc
  constructor
  · by_contra hne
    exact hp (h.next j f g hj hg hne).1
  · by_contra hov
    exact hp (h.ended j f g hj hg (by simpa using hov)).2

theorem Kept.of_polled (h : w.Kept) {g' : Notified} (hg' : w.signal.futures[j]? = some g')
    (hn : f.next ≠ none → g'.pc = .idle ∧ g'.status.isLive)
    (ho : f.ended → f.next = none ∧ g'.pc = .idle) :
    Kept { w with waiters := w.waiters.set j f } := by
  refine ⟨h.linked, h.quiet, by rw [length_set]; exact h.length,
    fun i b g hi hg hne => ?_, fun i b g hi hg hov => ?_, h.flag, h.through⟩
  · rcases of_set hi with ⟨rfl, rfl⟩ | ⟨-, hi⟩
    · exact some.inj (hg'.symm.trans hg) ▸ hn hne
    · exact h.next i b g hi hg hne
  · rcases of_set hi with ⟨rfl, rfl⟩ | ⟨-, hi⟩
    · exact some.inj (hg'.symm.trans hg) ▸ ho hov
    · exact h.ended i b g hi hg hov

theorem Kept.notify (h : w.Kept) (hn : w.notifying)
    (hs : Notify.World.Steps w.signal .notifyWaiters s) :
    Kept { w with signal := s, notifying := false } := by
  have hlinked := Notify.World.linked_of_step h.linked hs
  have hquiet := h.quiet.notifyWaiters hs
  cases hs
  refine ⟨hlinked, hquiet, h.length, h.next, h.ended, fun _ => h.flag (.inl hn),
    fun k n hk hlt => ?_⟩
  rcases of_snoc hk with hk | ⟨rfl, rfl⟩
  · exact h.through k n hk (.inl hn)
  · rcases hlt with hlt | hlt
    · cases hlt
    · change _ < (w.signal.notifiers ++ [_]).length at hlt
      rw [length_append, length_singleton] at hlt
      exact absurd hlt (Nat.lt_irrefl _)

theorem Kept.fire (h : w.Kept) {k : ℕ} (hs : Notify.World.Steps w.signal (.fire k) s) :
    Kept { w with signal := s } := by
  obtain ⟨-, hlen, hnlen, hfutures, hnotifiers⟩ := alike_of_fire hs
  refine ⟨Notify.World.linked_of_step h.linked hs, h.quiet.fire h.linked hs,
    h.length.trans hlen.symm, fun j f g hj hg hne => ?_, fun j f g hj hg hov => ?_,
    fun hf => ?_, fun i n hi hlt => ?_⟩
  · obtain ⟨g', hg', ha⟩ := hfutures j g hg
    rw [ha.pc, ha.status]
    exact h.next j f g' hj hg' hne
  · obtain ⟨g', hg', ha⟩ := hfutures j g hg
    rw [ha.pc]
    exact h.ended j f g' hj hg' hov
  · refine h.flag (hf.imp_right fun hne he => hne ?_)
    rw [he] at hnlen
    exact length_eq_zero_iff.mp hnlen
  · obtain ⟨m, hm, -, htodo⟩ := hnotifiers i n hi
    have hlt' : w.notifying ∨ i + 1 < s.notifiers.length := hlt
    rw [hnlen] at hlt'
    exact htodo (h.through i m hm hlt')

end Step

theorem kept_of_step {w v : World} {l : Label} (h : w.Kept) (hs : Steps w l v) : v.Kept := by
  cases hs with
  | start hs =>
    have hlinked := Notify.World.linked_of_step h.linked hs
    cases hs
    refine ⟨hlinked, h.quiet.start h.linked, ?_, fun j f g hj hg hne => ?_,
      fun j f g hj hg hov => ?_, h.flag, h.through⟩
    · change (w.waiters ++ [_]).length = (w.signal.futures ++ [_]).length
      rw [length_append, length_append, h.length]
      rfl
    · rcases of_snoc_snoc h.length hj hg with ⟨hj, hg⟩ | ⟨rfl, -⟩
      · exact h.next j f g hj hg hne
      · exact absurd rfl hne
    · rcases of_snoc_snoc h.length hj hg with ⟨hj, hg⟩ | ⟨rfl, -⟩
      · exact h.ended j f g hj hg hov
      · cases hov
  | @pollReady j waker budget f hj hf hd =>
    obtain ⟨-, hn, g', hg', -, hp⟩ := idle_iff hf
    exact h.of_polled hg' (fun hne => absurd hn hne) fun _ => ⟨hn, hp⟩
  | @pollPasses j waker budget f hj hf hd =>
    obtain ⟨ho, -, g', hg', hl, hp⟩ := idle_iff hf
    exact h.of_polled hg' (fun _ => ⟨hp, hl⟩) fun hov =>
      absurd (ho.symm.trans hov) Bool.false_ne_true
  | @enter j waker budget s made ended hj hs =>
    refine h.of_own hs rfl (h.quiet.poll hs) length_set
      (fun i hi => getElem?_set_ne hi) (fun f hf => by rw [eq_of_set hf])
      fun f g hf hg hov => ?_
    rw [eq_of_set hf] at hov
    -- the poll has not been over when it read the flag
    obtain ⟨c, hc⟩ : ∃ c, w.signal.futures[j]? = some c := by
      cases hs with
      | pollYields hi | pollReady hi | pollLocks hi => exact ⟨_, hi⟩
    exact absurd (h.ended j _ c hj hc hov).1 (by simp)
  | advance hs =>
    refine h.of_own hs rfl (h.quiet.advance hs) rfl (fun _ _ => rfl)
      (fun f hf => (h.of_advance hs hf).1) fun f g hf hg hov => ?_
    cases (h.of_advance hs hf).2.symm.trans hov
  | @drop j f s hj hf hs =>
    obtain ⟨-, hn, -⟩ := idle_iff hf
    refine h.of_own hs rfl (h.quiet.drop hs) length_set
      (fun i hi => getElem?_set_ne hi) (fun f' hf' => by rw [eq_of_set hf']; exact hn)
      fun f' g hf' hg hov => ?_
    cases hs with
    | drop hi hl hp =>
      have hg' := some.inj ((modify_self hi _).symm.trans hg)
      simp [← hg', Notified.leave]
  | begin hr =>
    rw [allReturned, Bool.and_eq_true, List.all_eq_true] at hr
    refine ⟨h.linked, h.quiet, h.length, h.next, h.ended, fun _ => rfl, fun k n hk _ => ?_⟩
    exact List.isEmpty_iff.mp (hr.2 n (mem_of_getElem? hk))
  | notify hn hs => exact h.notify hn hs
  | fire hs => exact h.fire hs

theorem kept_of_reachable {w : World} (h : shutdownSystem.Reachable w) : w.Kept := by
  refine System.inv_of_reachable (I := Kept) ?_
    (fun _ _ _ h hs => kept_of_step h (steps_of_step hs)) h
  refine ⟨Notify.World.linked_of_reachable System.reachable_init, ⟨rfl, ?_, ?_⟩, rfl, ?_, ?_,
    ?_, ?_⟩
  · exact fun j g hj => absurd hj (by simp [shutdownSystem, notifySystem])
  · exact fun j g hj => absurd hj (by simp [shutdownSystem, notifySystem])
  · exact fun j f g hj => absurd hj (by simp [shutdownSystem])
  · exact fun j f g hj => absurd hj (by simp [shutdownSystem])
  · exact fun h => h.elim (fun h => absurd h Bool.false_ne_true) fun h => absurd rfl h
  · exact fun k n hk => absurd hk (by simp [shutdownSystem, notifySystem])

end World

end RustyTokio.Shutdown

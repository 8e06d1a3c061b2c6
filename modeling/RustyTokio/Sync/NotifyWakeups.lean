import RustyTokio.Sync.Notify

/-!
# No wakeup of a `Notify` is lost

A notifier sets the flag of an entry and then takes the waker out of its slot; a poll stores its
waker in the slot and then reads the flag again.
-/

namespace RustyTokio.Notify

open Transition List Table

namespace Notified

/-- The last poll returned pending, the entry has been completely fired, and the waker
stored last has not been woken. -/
structure Lost (f : Notified) : Prop where
  returned : f.pc = .idle
  pending : f.status = .pending
  fired : f.fired
  stored : f.stored ≠ none
  untold : f.told = false

/-- A `Notified` that was fired at was woken, and its waker told. -/
structure Sound (f : Notified) : Prop where
  woken : f.fired = true → f.woken = true
  slot : f.fired = true → f.waker = none ∨ f.pc = .rechecking ∨ f.status = .ready
  told : f.waker = none → f.stored = none ∨ f.told = true
  kept : f.pc ≠ .idle → f.status.isDropped = false

variable {f g : Notified}

theorem Sound.not_lost (h : f.Sound) : ¬ f.Lost := by
  rintro ⟨hpc, hpending, hfired, hstored, htold⟩
  rcases h.slot hfired with hslot | hslot | hslot
  · rcases h.told hslot with hnone | ht
    · exact hstored hnone
    · cases htold.symm.trans ht
  · cases hpc.symm.trans hslot
  · cases hpending.symm.trans hslot

theorem sound_new : Notified.new.Sound :=
  ⟨fun h => absurd h Bool.false_ne_true, fun h => absurd h Bool.false_ne_true,
    fun _ => .inl rfl, fun _ => rfl⟩

theorem Sound.of_same (h : f.Sound) (hpc : f.pc ≠ .rechecking) (hwaker : g.waker = f.waker)
    (hstored : g.stored = f.stored) (htold : g.told = f.told) (hfired : g.fired = f.fired)
    (hwoken : f.woken → g.woken) (hstatus : f.status = .ready → g.status = .ready)
    (hkept : g.pc ≠ .idle → g.status.isDropped = false) : g.Sound := by
  refine ⟨fun hg => hwoken (h.woken (hfired ▸ hg)), fun hg => ?_, fun hg => ?_, hkept⟩
  · rcases h.slot (hfired ▸ hg) with hs | hs | hs
    · exact .inl (hwaker ▸ hs)
    · exact absurd hs hpc
    · exact .inr (.inr (hstatus hs))
  · rw [hstored, htold]
    exact h.told (hwaker ▸ hg)

theorem Sound.not_fired (h : f.Sound) (hw : f.woken = false) : f.fired = false := by
  cases hf : f.fired with
  | false => rfl
  | true => cases hw.symm.trans (h.woken hf)

theorem Sound.store (h : f.Sound) {waker : ℕ} (hpc : f.pc = .storing waker) :
    (f.store waker).Sound :=
  ⟨h.woken, fun _ => .inr (.inl rfl), by simp [Notified.store],
    fun _ => h.kept (by simp [hpc])⟩

theorem Sound.recheck (h : f.Sound) : (f.leave (if f.woken then .ready else .pending)).Sound := by
  cases hw : f.woken with
  | true => exact ⟨fun _ => hw, fun _ => .inr (.inr rfl), h.told, fun hp => absurd rfl hp⟩
  | false =>
    -- a fired entry has its flag set, so nothing was fired before this look
    have hf : (f.leave .pending).fired = false := h.not_fired hw
    exact ⟨fun hg => absurd (hf.symm.trans hg) Bool.false_ne_true,
      fun hg => absurd (hf.symm.trans hg) Bool.false_ne_true, h.told, fun hp => absurd rfl hp⟩

theorem Sound.mark (h : f.Sound) : f.mark.Sound :=
  ⟨fun _ => rfl, h.slot, h.told, h.kept⟩

theorem Sound.takeWaker (h : f.Sound) (hw : f.woken) : f.takeWaker.Sound := by
  refine ⟨fun _ => hw, fun _ => .inl rfl, fun _ => ?_, h.kept⟩
  change f.stored = none ∨ (f.told || f.waker.isSome)
  cases hs : f.waker with
  | some waker => exact .inr (by simp)
  | none =>
    rcases h.told hs with hnone | ht
    · exact .inl hnone
    · exact .inr (by rw [ht]; rfl)

end Notified

/-! ## Notifiers -/

def Grows (t u : List Notified) : Prop :=
  ∀ (i : ℕ) (f : Notified), t[i]? = some f →
    ∃ g, u[i]? = some g ∧ (f.woken = true → g.woken = true) ∧ (f.fired = true → g.fired = true)

theorem grows_append (t u : List Notified) : Grows t (t ++ u) := by
  intro i f hi
  exact ⟨f, append_of_some hi u, id, id⟩

theorem grows_modify {t : List Notified} {i : ℕ} {f : Notified} {g : Notified → Notified}
    (hi : t[i]? = some f) (hw : f.woken → (g f).woken)
    (hf : f.fired → (g f).fired) : Grows t (t.modify i g) := by
  intro j e hj
  obtain rfl | hij := eq_or_ne i j
  · cases hi.symm.trans hj
    exact ⟨g f, modify_self hi g, hw, hf⟩
  · exact ⟨e, by rw [modify_of_ne hij, hj], id, id⟩

/-- What a notifier has done with the futures it took. -/
structure Notifier.Sound (futures : List Notified) (n : Notifier) : Prop where
  split : ∃ done, n.taken = done ++ n.todo ∧
    ∀ e ∈ done, ∃ f, futures[e]? = some f ∧ f.fired = true
  valid : ∀ e ∈ n.todo, ∃ f, futures[e]? = some f
  marked : n.marked = true → ∀ e rest, n.todo = e :: rest →
    ∃ f, futures[e]? = some f ∧ f.woken = true

namespace Notifier

variable {t u : List Notified} {n : Notifier}

theorem Sound.mono (h : n.Sound t) (hg : Grows t u) : n.Sound u := by
  obtain ⟨done, htaken, hdone⟩ := h.split
  refine ⟨⟨done, htaken, fun e he => ?_⟩, fun e he => ?_, fun hm e rest hr => ?_⟩
  · obtain ⟨f, hf, hfired⟩ := hdone e he
    obtain ⟨g, hg, -, hgf⟩ := hg e f hf
    exact ⟨g, hg, hgf hfired⟩
  · obtain ⟨f, hf⟩ := h.valid e he
    obtain ⟨g, hg, -⟩ := hg e f hf
    exact ⟨g, hg⟩
  · obtain ⟨f, hf, hw⟩ := h.marked hm e rest hr
    obtain ⟨g, hg, hgw, -⟩ := hg e f hf
    exact ⟨g, hg, hgw hw⟩

theorem sound_new {es : List ℕ} (h : ∀ e ∈ es, ∃ f, t[e]? = some f) :
    (Notifier.mk es es false).Sound t :=
  ⟨⟨[], rfl, fun _ he => absurd he not_mem_nil⟩, h, fun hm => absurd hm Bool.false_ne_true⟩

theorem Sound.all_fired (h : n.Sound t) (hn : n.todo = []) :
    ∀ e ∈ n.taken, ∃ f, t[e]? = some f ∧ f.fired := by
  obtain ⟨done, htaken, hdone⟩ := h.split
  rw [hn, append_nil] at htaken
  rw [htaken]
  exact hdone

end Notifier

/-! ## Everybody -/

namespace World

/-- A registered future is in the queue or was taken by a notifier. -/
structure Linked (w : World) : Prop where
  sound : ∀ (i : ℕ) (f : Notified), w.futures[i]? = some f → f.Sound
  valid : ∀ e ∈ w.waiters, ∃ f, w.futures[e]? = some f
  placed : ∀ (i : ℕ) (f : Notified), w.futures[i]? = some f → f.registered = true →
    i ∈ w.waiters ∨ ∃ n ∈ w.notifiers, i ∈ n.taken
  notifiers : ∀ n ∈ w.notifiers, n.Sound w.futures

namespace Linked

variable {w v : World} {i : ℕ} {f : Notified} {g : Notified → Notified}

theorem start (h : w.Linked) : Linked { w with futures := w.futures ++ [.new] } := by
  have hgrows := grows_append w.futures [.new]
  refine ⟨fun i f hi => ?_, fun e he => ?_, fun i f hi hr => ?_,
    fun n hn => (h.notifiers n hn).mono hgrows⟩
  · rcases of_snoc hi with hi | ⟨-, rfl⟩
    · exact h.sound i f hi
    · exact Notified.sound_new
  · obtain ⟨f, hf⟩ := h.valid e he
    exact ⟨f, append_of_some hf _⟩
  · rcases of_snoc hi with hi | ⟨-, rfl⟩
    · exact h.placed i f hi hr
    · cases hr

theorem of_change (h : w.Linked) (hi : w.futures[i]? = some f)
    (hfutures : v.futures = w.futures.modify i g) (hwaiters : v.waiters = w.waiters)
    (hnotifiers : v.notifiers = w.notifiers) (hs : (g f).Sound)
    (hw : f.woken → (g f).woken) (hf : f.fired → (g f).fired)
    (hr : (g f).registered = f.registered) : v.Linked := by
  have hgrows := grows_modify (t := w.futures) hi hw hf
  refine ⟨?_, fun e he => ?_, ?_, fun n hn => ?_⟩
  · rw [hfutures]
    exact forall_modify (P := fun _ f => f.Sound) hi hs h.sound
  · rw [hwaiters] at he
    rw [hfutures]
    obtain ⟨f', hf'⟩ := h.valid e he
    obtain ⟨g', hg', -⟩ := hgrows e f' hf'
    exact ⟨g', hg'⟩
  · rw [hfutures, hwaiters, hnotifiers]
    exact forall_modify (P := fun j f => f.registered →
      j ∈ w.waiters ∨ ∃ n ∈ w.notifiers, j ∈ n.taken) hi
      (fun hreg => h.placed i f hi (hr ▸ hreg)) h.placed
  · rw [hnotifiers] at hn
    rw [hfutures]
    exact (h.notifiers n hn).mono hgrows

theorem register (h : w.Linked) (hi : w.futures[i]? = some f) (p : Pc)
    (hpc : f.pc ≠ .rechecking) (hidle : f.pc ≠ .idle) :
    (World.change { w with waiters := w.waiters ++ [i] } i (.register p)).Linked := by
  have hs := h.sound i f hi
  have hsound : (f.register p).Sound :=
    hs.of_same hpc rfl rfl rfl rfl id id fun _ => hs.kept hidle
  have hgrows : Grows w.futures (w.futures.modify i (.register p)) :=
    grows_modify hi id id
  refine ⟨?_, fun e he => ?_, ?_, fun n hn => (h.notifiers n hn).mono hgrows⟩
  · exact forall_modify (P := fun _ f => f.Sound) hi hsound h.sound
  · rcases mem_append.mp he with he | he
    · obtain ⟨f', hf'⟩ := h.valid e he
      obtain ⟨g', hg', -⟩ := hgrows e f' hf'
      exact ⟨g', hg'⟩
    · obtain rfl := mem_singleton.mp he
      exact ⟨_, modify_self hi _⟩
  · refine forall_modify (P := fun j f => f.registered →
      j ∈ w.waiters ++ [i] ∨ ∃ n ∈ w.notifiers, j ∈ n.taken) hi (fun _ => ?_) ?_
    · exact .inl (mem_append_right _ (mem_singleton.mpr rfl))
    · intro j f' hj hreg
      exact (h.placed j f' hj hreg).imp_left (mem_append_left _)

theorem take (h : w.Linked) {es rest : List ℕ} (hq : ∀ e, e ∈ w.waiters ↔ e ∈ es ∨ e ∈ rest) :
    Linked { w with waiters := rest, notifiers := w.notifiers ++ [⟨es, es, false⟩] } := by
  refine ⟨h.sound, fun e he => h.valid e ((hq e).mpr (.inr he)), fun i f hi hr => ?_,
    fun n hn => ?_⟩
  · rcases h.placed i f hi hr with hmem | ⟨n, hn, hin⟩
    · rcases (hq i).mp hmem with hes | hrest
      · exact .inr ⟨⟨es, es, false⟩, by simp, hes⟩
      · exact .inl hrest
    · exact .inr ⟨n, mem_append_left _ hn, hin⟩
  · rcases mem_append.mp hn with hn | hn
    · exact h.notifiers n hn
    · obtain rfl := mem_singleton.mp hn
      exact Notifier.sound_new fun e he => h.valid e ((hq e).mpr (.inl he))

theorem notify (h : w.Linked) {popped : Option (ℕ × List ℕ)}
    (hq : ∀ e rest, popped = some (e, rest) → ∀ x, x ∈ w.waiters ↔ x ∈ [e] ∨ x ∈ rest) :
    (w.notify popped).Linked := by
  cases popped with
  | none => exact ⟨h.sound, h.valid, h.placed, h.notifiers⟩
  | some p =>
    obtain ⟨e, rest⟩ := p
    have htake := h.take (hq e rest rfl)
    obtain ⟨f, hf⟩ := h.valid e ((hq e rest rfl e).mpr (.inl (mem_singleton.mpr rfl)))
    have hs := h.sound e f hf
    have hgrant : f.grant.Sound := ⟨hs.woken, hs.slot, hs.told, hs.kept⟩
    exact htake.of_change hf rfl rfl rfl hgrant id id rfl

end Linked

theorem popFront_eq_some {q rest : List ℕ} {e : ℕ} (h : popFront q = some (e, rest)) (x : ℕ) :
    x ∈ q ↔ x ∈ [e] ∨ x ∈ rest := by
  cases q with
  | nil => simp [popFront] at h
  | cons a q =>
    cases h
    simp

theorem popBack_eq_some {q rest : List ℕ} {e : ℕ} (h : popBack q = some (e, rest)) (x : ℕ) :
    x ∈ q ↔ x ∈ [e] ∨ x ∈ rest := by
  obtain ⟨a, ha, hpair⟩ := Option.map_eq_some_iff.mp h
  cases hpair
  obtain ⟨q', rfl⟩ := getLast?_eq_some_iff.mp ha
  simp [or_comm]

section Fire

variable {w : World} {k e : ℕ} {n : Notifier} {rest : List ℕ}

section

variable (h : w.Linked) (hk : w.notifiers[k]? = some n)

include h hk

theorem Linked.fire {g : Notified → Notified}
    {f : Notified} (he : w.futures[e]? = some f) {n' : Notifier} (htaken : n'.taken = n.taken)
    (hn' : n'.Sound (w.futures.modify e g)) (hs : (g f).Sound)
    (hw : f.woken → (g f).woken) (hf : f.fired → (g f).fired)
    (hr : (g f).registered = f.registered) :
    (change { w with notifiers := w.notifiers.set k n' } e g).Linked := by
  have hchange : (w.change e g).Linked := h.of_change he rfl rfl rfl hs hw hf hr
  have hlt : k < w.notifiers.length := (lt_of_some hk)
  refine ⟨hchange.sound, hchange.valid, fun i f' hi hreg => ?_, fun m hm => ?_⟩
  · rcases hchange.placed i f' hi hreg with hmem | ⟨m, hm, him⟩
    · exact .inl hmem
    · -- the notifier that took the entry may be the one that moved
      obtain ⟨j, hj⟩ := getElem?_of_mem hm
      obtain rfl | hkj := eq_or_ne k j
      · cases hk.symm.trans hj
        exact .inr ⟨n', mem_set hlt n', htaken ▸ him⟩
      · refine .inr ⟨m, mem_of_getElem? (i := j) ?_, him⟩
        change (w.notifiers.set k n')[j]? = some m
        rw [getElem?_set_ne hkj]
        exact hj
  · rcases mem_or_eq_of_mem_set hm with hm | rfl
    · exact hchange.notifiers m hm
    · exact hn'

theorem Linked.marks (ht : n.todo = e :: rest) :
    (change { w with notifiers := w.notifiers.set k ⟨n.taken, e :: rest, true⟩ }
      e .mark).Linked := by
  have hn := h.notifiers n (mem_of_getElem? hk)
  obtain ⟨f, he⟩ := hn.valid e (by simp [ht])
  have hgrows : Grows w.futures (w.futures.modify e .mark) :=
    grows_modify he (fun _ => rfl) id
  have hold := hn.mono hgrows
  refine h.fire hk he rfl ⟨ht ▸ hold.split, ht ▸ hold.valid, fun _ e' rest' hr => ?_⟩
    (h.sound e f he).mark (fun _ => rfl) id rfl
  cases hr
  exact ⟨_, modify_self he _, rfl⟩

theorem Linked.takesWaker (ht : n.todo = e :: rest) (hm : n.marked) :
    (change { w with notifiers := w.notifiers.set k ⟨n.taken, rest, false⟩ }
      e .takeWaker).Linked := by
  have hn := h.notifiers n (mem_of_getElem? hk)
  obtain ⟨f, he, hw⟩ := hn.marked hm e rest ht
  have hgrows : Grows w.futures (w.futures.modify e .takeWaker) :=
    grows_modify he id (fun _ => rfl)
  have hold := hn.mono hgrows
  refine h.fire hk he rfl ⟨?_, fun x hx => hold.valid x (by simp [ht, hx]),
    fun hm => absurd hm Bool.false_ne_true⟩ ((h.sound e f he).takeWaker hw) id (fun _ => rfl) rfl
  obtain ⟨done, htaken, hdone⟩ := hold.split
  refine ⟨done ++ [e], ?_, fun x hx => ?_⟩
  · change n.taken = _
    rw [htaken, ht, append_assoc]
    rfl
  · rcases mem_append.mp hx with hx | hx
    · exact hdone x hx
    · obtain rfl := mem_singleton.mp hx
      exact ⟨_, modify_self he _, rfl⟩

end

end Fire

theorem linked_of_step {w v : World} {l : Label} (h : w.Linked) (hs : Steps w l v) : v.Linked := by
  cases hs with
  | start => exact h.start
  | @pollYields i f waker budget hi hl hp hb =>
    have hs := (h.sound i f hi).of_same (g := f.leave .pending) (by simp [hp]) rfl rfl rfl rfl id
      (fun hr => absurd hl (by simp [hr, Status.isLive])) (fun hp => absurd rfl hp)
    exact h.of_change hi rfl rfl rfl hs id id rfl
  | @pollReady i f waker budget rest hi hl hp hb hw =>
    have hs := (h.sound i f hi).of_same (g := f.leave .ready) (by simp [hp]) rfl rfl rfl rfl id
      (fun _ => rfl) (fun hp => absurd rfl hp)
    exact h.of_change hi rfl rfl rfl hs id id rfl
  | @pollLocks i f waker budget rest hi hl hp hb hw =>
    have hs := (h.sound i f hi).of_same (g := f.setPc (.locking waker)) (by simp [hp])
      rfl rfl rfl rfl id id (fun _ => Status.isDropped_of_isLive hl)
    exact h.of_change hi rfl rfl rfl hs id id rfl
  | enableReturns hi hd hp hw => exact h
  | @enableLocks i f hi hd hp hw hr =>
    have hs := (h.sound i f hi).of_same (g := f.setPc .enabling) (by simp [hp])
      rfl rfl rfl rfl id id (fun _ => hd)
    exact h.of_change hi rfl rfl rfl hs id id rfl
  | @registeredAlready i f waker hi hp hr =>
    have hf := h.sound i f hi
    have hs := hf.of_same (g := f.setPc (.storing waker)) (by simp [hp])
      rfl rfl rfl rfl id id (fun _ => hf.kept (by simp [hp]))
    exact h.of_change hi rfl rfl rfl hs id id rfl
  | @takesPermit i f waker hi hp hr hw =>
    have hs := (h.sound i f hi).of_same (g := f.takePermit) (by simp [hp]) rfl rfl rfl rfl id
      (fun _ => rfl) (fun hp => absurd rfl hp)
    exact h.of_change hi rfl rfl rfl hs id id rfl
  | registers hi hp hr hw | enableRegisters hi hp hw =>
    exact h.register hi _ (by simp [hp]) (by simp [hp])
  | @stores i f waker hi hp =>
    exact h.of_change hi rfl rfl rfl ((h.sound i f hi).store hp) id id rfl
  | @rechecks i f hi hp => exact h.of_change hi rfl rfl rfl (h.sound i f hi).recheck id id rfl
  | @enableTakesPermit i f hi hp hw =>
    have hs := (h.sound i f hi).of_same (g := f.enablePermit) (by simp [hp]) rfl rfl rfl rfl
      (fun _ => rfl) id (fun hp => absurd rfl hp)
    exact h.of_change hi rfl rfl rfl hs (fun _ => rfl) id rfl
  | @drop i f hi hl hp =>
    have hs := (h.sound i f hi).of_same (g := f.leave .dropped) (by simp [hp]) rfl rfl rfl rfl id
      (fun hr => absurd hl (by simp [hr, Status.isLive])) (fun hp => absurd rfl hp)
    exact h.of_change hi rfl rfl rfl hs id id rfl
  | notifyOne => exact h.notify fun e rest hq => popFront_eq_some hq
  | notifyLast => exact h.notify fun e rest hq => popBack_eq_some hq
  | notifyWaiters => exact h.take fun e => by simp
  | marks hk ht hm => exact h.marks hk ht
  | takesWaker hk ht hm => exact h.takesWaker hk ht hm

theorem linked_of_reachable {w : World} (h : notifySystem.Reachable w) : w.Linked := by
  refine System.inv_of_reachable (I := Linked) ⟨?_, ?_, ?_, ?_⟩
    (fun _ _ _ h hs => linked_of_step h (steps_of_step hs)) h
  · exact fun i f hi => absurd hi (by simp [notifySystem])
  · exact fun e he => absurd he not_mem_nil
  · exact fun i f hi => absurd hi (by simp [notifySystem])
  · exact fun n hn => absurd hn not_mem_nil

theorem step_marks {w : World} {k e : ℕ} {n : Notifier} {rest : List ℕ}
    (hk : w.notifiers[k]? = some n) (ht : n.todo = e :: rest) (hm : n.marked = false) :
    w.step (.fire k) = some
      (change { w with notifiers := w.notifiers.set k ⟨n.taken, e :: rest, true⟩ } e .mark) := by
  simp [step, hk, World.fire, ht, hm]

theorem step_takesWaker {w : World} {k e : ℕ} {n : Notifier} {rest : List ℕ}
    (hk : w.notifiers[k]? = some n) (ht : n.todo = e :: rest) (hm : n.marked) :
    w.step (.fire k) = some
      (change { w with notifiers := w.notifiers.set k ⟨n.taken, rest, false⟩ } e .takeWaker) := by
  simp [step, hk, World.fire, ht, hm]

theorem leadsTo_through {k : ℕ} : ∀ {todo : List ℕ} {w : World} {n : Notifier}, w.Linked →
    w.notifiers[k]? = some n → n.todo = todo → notifySystem.LeadsTo (fun l => l = .fire k)
      (fun v => (v.Linked ∧ v.permits = w.permits ∧ ∀ i, i ∉ todo → v.futures[i]? = w.futures[i]?) ∧
        ∃ m, v.notifiers[k]? = some m ∧ m.taken = n.taken ∧ m.todo = []) w
  | [], w, n, h, hk, ht => .now ⟨⟨h, rfl, fun _ _ => rfl⟩, n, hk, rfl, ht⟩
  | e :: rest, w, n, h, hk, ht => by
    have hlt : k < w.notifiers.length := (lt_of_some hk)
    -- from a notifier that has set the flag, one step is enough for this entry
    have second : ∀ {u : World} {m : Notifier}, u.Linked → u.permits = w.permits →
        (∀ i, i ∉ e :: rest → u.futures[i]? = w.futures[i]?) →
        u.notifiers[k]? = some m → m.taken = n.taken → m.todo = e :: rest → m.marked →
        notifySystem.LeadsTo (fun l => l = .fire k)
          (fun v => (v.Linked ∧ v.permits = w.permits ∧
              ∀ i, i ∉ e :: rest → v.futures[i]? = w.futures[i]?) ∧
            ∃ m, v.notifiers[k]? = some m ∧ m.taken = n.taken ∧ m.todo = []) u := by
      intro u m hu hp hfr hm htaken htodo hmarked
      have hltu : k < u.notifiers.length := (lt_of_some hm)
      have hnext := leadsTo_through (hu.takesWaker hm htodo hmarked)
        (getElem?_set_self hltu) rfl
      refine .of_step rfl (step_takesWaker hm htodo hmarked) (hnext.mono ?_)
      rintro v ⟨⟨hv, hvp, hvf⟩, m', hm', ht', htd⟩
      refine ⟨⟨hv, hvp.trans hp, fun i hi => ?_⟩, m', hm', ht'.trans htaken, htd⟩
      obtain ⟨hie, hir⟩ := not_or.mp (mem_cons.not.mp hi)
      rw [hvf i hir, change, modify_of_ne (Ne.symm hie)]
      exact hfr i hi
    cases hmarked : n.marked with
    | true => exact second h rfl (fun _ _ => rfl) hk rfl ht hmarked
    | false =>
      refine .of_step rfl (step_marks hk ht hmarked)
        (second (h.marks hk ht) rfl (fun i hi => ?_) (getElem?_set_self hlt) rfl rfl rfl)
      exact modify_of_ne (fun he => hi (mem_cons.mpr (.inl he.symm))) _

/-- **No wakeup is lost.**  In every reachable state: a pending future that was completely fired
has had its last waker woken; `notify_waiters` takes the whole queue and leaves the permits alone;
and a notifier that is through has fired all it took, as every notifier can by its own steps alone.
-/
theorem no_lost_wakeup {w : World} (hw : notifySystem.Reachable w) : (∀ f ∈ w.futures, ¬ f.Lost) ∧
    ((∀ (i : ℕ) (f : Notified), w.futures[i]? = some f → f.registered = true →
        i ∈ w.waiters ∨ ∃ n ∈ w.notifiers, i ∈ n.taken) ∧
      ∀ v, w.step .notifyWaiters = some v → v.permits = w.permits ∧ v.waiters = [] ∧
        v.notifiers = w.notifiers ++ [⟨w.waiters, w.waiters, false⟩]) ∧
    (∀ k v, w.step (.fire k) = some v → v.permits = w.permits) ∧
    ∀ (k : ℕ) (n : Notifier), w.notifiers[k]? = some n →
      (n.todo = [] → ∀ e ∈ n.taken, ∃ f, w.futures[e]? = some f ∧ f.fired = true) ∧
      notifySystem.LeadsTo (fun l => l = .fire k) (fun v => v.permits = w.permits ∧
          ∀ e ∈ n.taken, ∃ f, v.futures[e]? = some f ∧ f.fired = true) w := by
  have h := linked_of_reachable hw
  refine ⟨fun f hf => ?_, ⟨h.placed, fun v hv => ?_⟩, fun k v hv => ?_, fun k n hk => ⟨?_, ?_⟩⟩
  · obtain ⟨i, hi⟩ := getElem?_of_mem hf
    exact (h.sound i f hi).not_lost
  · cases hv
    exact ⟨rfl, rfl, rfl⟩
  · cases steps_fire hv with
    | marks hk ht hm => rfl
    | takesWaker hk ht hm => rfl
  · exact (h.notifiers n (mem_of_getElem? hk)).all_fired
  · refine (leadsTo_through h hk rfl).mono ?_
    rintro v ⟨⟨hv, hp, -⟩, m, hm, htaken, htodo⟩
    refine ⟨hp, ?_⟩
    rw [← htaken]
    exact (hv.notifiers m (mem_of_getElem? hm)).all_fired htodo

theorem no_lost_wakeup_amid_firing : ∃ w : World, notifySystem.Reachable w ∧
      w.notifiers = [⟨[0, 1], [0, 1], true⟩] ∧ w.futures.map Notified.pc = [.idle, .storing 7] ∧
      (∀ f ∈ w.futures, ¬ f.Lost) ∧ notifySystem.LeadsTo (fun l => l = .fire 0)
        (fun v => v.permits = w.permits ∧
          ∀ e ∈ [0, 1], ∃ f, v.futures[e]? = some f ∧ f.fired = true) w := by
  have hw : notifySystem.Reachable _ :=
    ⟨[.start, .poll 0 3 none, .advance 0, .advance 0, .advance 0,
      .start, .poll 1 4 none, .advance 1, .advance 1, .advance 1,
      .poll 1 7 none, .notifyWaiters, .fire 0, .advance 1], rfl⟩
  obtain ⟨hlost, -, -, hthrough⟩ := no_lost_wakeup hw
  exact ⟨_, hw, rfl, rfl, hlost, (hthrough 0 _ rfl).2⟩

end World

end RustyTokio.Notify

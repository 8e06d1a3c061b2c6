import RustyTokio.Sync.Watch

/-!
# No update of a `watch` channel is lost

A future of `changed` pushes its waker once.  That is enough because the list is taken only by a
call after which the future is ready: an update, or the drop of the sender.  A future that is polled
by one task all along therefore has its waker in the list for as long as it has to wait.
-/

namespace RustyTokio.Watch

open Transition List Option Bool Lot Table Phase

variable {α : Type}

namespace World

def waits (w : World α) (k : Changed) : Bool :=
  match w.receivers[k.receiver]? with
  | none => false
  | some rcv => decide (w.inner.version = rcv.seenVersion) && w.inner.senderAlive

variable {w : World α} {k : Changed} {l : Label α} {initial : α} {waker : ℕ} {rcv : Receiver}

theorem waits_iff : w.waits k ↔ ∃ rcv, w.receivers[k.receiver]? = some rcv ∧
      w.inner.version = rcv.seenVersion ∧ w.inner.senderAlive := by
  rw [waits]
  cases w.receivers[k.receiver]? with
  | none | some rcv => simp

theorem waits_of_congr {v : World α} {k' : Changed} (h : v.waits k')
    (hk : k'.receiver = k.receiver) (hr : v.receivers[k.receiver]? = w.receivers[k.receiver]?)
    (hv : v.inner.version = w.inner.version) (ha : v.inner.senderAlive = w.inner.senderAlive) :
    w.waits k := by
  rwa [waits, hk, hr, hv, ha] at h

/-- The version counts the updates, no receiver is ahead, and who waits is in the list. -/
structure Sound (w : World α) : Prop where
  counted : w.inner.version = w.updates
  seen : ∀ rcv ∈ w.receivers, rcv.seenVersion = rcv.marked ∧ rcv.seenVersion ≤ w.inner.version
  owner : ∀ f ∈ w.futures, f.phase.isLive = true → f.kind.receiver < w.receivers.length
  single : ∀ (i j : ℕ) (f g : Sleeper Changed), w.futures[i]? = some f → w.futures[j]? = some g →
    f.phase.isLive = true → g.phase.isLive = true → f.kind.receiver = g.kind.receiver → i = j
  parked : ∀ f ∈ w.futures, f.phase.isParked = true → f.kind.registered = true
  listed : ∀ f ∈ w.futures, f.phase.isLive = true → f.kind.registered = true →
    w.waits f.kind = true → f.kind.entry ∈ w.inner.wakers

theorem busy_iff {r : ℕ} : w.busy r ↔ ∃ f ∈ w.futures, f.phase.isLive ∧ f.kind.receiver = r := by
  simp [busy]

theorem Sound.waits_update {v : World α} (h : w.Sound) (k : Changed)
    (hr : v.receivers = w.receivers) (hv : v.inner.version = w.inner.version + 1) :
    v.waits k = false := by
  rw [← not_eq_true, waits_iff]
  rintro ⟨rcv, hrcv, hver, -⟩
  rw [hr] at hrcv
  have hle := (h.seen rcv (mem_of_getElem? hrcv)).2
  omega

theorem waits_of_dropped (k : Changed) (ha : w.inner.senderAlive = false) : w.waits k = false := by
  rw [← not_eq_true, waits_iff]
  rintro ⟨rcv, -, -, hrcv⟩
  cases ha.symm.trans hrcv

section Tables

variable {t : List (Sleeper Changed)} {i : ℕ} {f f' : Sleeper Changed}

theorem single_set (h : ∀ (i j : ℕ) (f g : Sleeper Changed), t[i]? = some f → t[j]? = some g →
      f.phase.isLive → g.phase.isLive → f.kind.receiver = g.kind.receiver → i = j)
    (hi : t[i]? = some f) (hl : f.phase.isLive) (hk : f'.kind.receiver = f.kind.receiver) :
    ∀ (j k : ℕ) (a b : Sleeper Changed), (t.set i f')[j]? = some a → (t.set i f')[k]? = some b →
      a.phase.isLive → b.phase.isLive → a.kind.receiver = b.kind.receiver →
      j = k := by
  -- every live entry stands for a live one with the same receiver
  have hold : ∀ (j : ℕ) (a : Sleeper Changed), (t.set i f')[j]? = some a →
      a.phase.isLive → ∃ b, t[j]? = some b ∧ b.phase.isLive ∧
        b.kind.receiver = a.kind.receiver := by
    intro j a hj ha
    rcases of_set hj with ⟨rfl, rfl⟩ | ⟨-, hj⟩
    · exact ⟨f, hi, hl, hk.symm⟩
    · exact ⟨a, hj, ha, rfl⟩
  intro j k a b hj hk ha hb hab
  obtain ⟨a', hj', ha', hra⟩ := hold j a hj ha
  obtain ⟨b', hk', hb', hrb⟩ := hold k b hk hb
  exact h j k a' b' hj' hk' ha' hb' (by rw [hra, hrb, hab])

end Tables

section Step

variable {w : World α} {i : ℕ} {f : Sleeper Changed} {r n : ℕ} {rcv : Receiver}

theorem Sound.of_set (h : w.Sound) (hi : w.futures[i]? = some f) (hl : f.phase.isLive)
    (f' : Sleeper Changed) (hk : f'.kind.receiver = f.kind.receiver) (wakers : List ℕ)
    (hw : w.inner.wakers ⊆ wakers) (hp : f'.phase.isParked → f'.kind.registered)
    (he : f'.phase.isLive → f'.kind.registered → w.waits f.kind →
      f'.kind.entry ∈ wakers) : Sound { w with
        inner := { w.inner with wakers := wakers }
        futures := w.futures.set i f' } := by
  refine ⟨h.counted, h.seen, ?_, single_set h.single hi hl hk, ?_, ?_⟩
  · intro g hg hgl
    rcases mem_or_eq_of_mem_set hg with hg | rfl
    · exact h.owner g hg hgl
    · rw [hk]
      exact h.owner f (mem_of_getElem? hi) hl
  · intro g hg hgp
    rcases mem_or_eq_of_mem_set hg with hg | rfl
    · exact h.parked g hg hgp
    · exact hp hgp
  · intro g hg hgl hgr hgw
    rcases mem_or_eq_of_mem_set hg with hg | rfl
    · exact hw (h.listed g hg hgl hgr hgw)
    · exact he hgl hgr (waits_of_congr hgw hk rfl rfl rfl)

theorem Sound.of_receiver (h : w.Sound) {rcv' : Receiver} (hb : w.busy r = false)
    (hs : rcv'.seenVersion = rcv'.marked ∧ rcv'.seenVersion ≤ w.inner.version) : Sound { w with
        inner := { w.inner with receiversAlive := n }
        receivers := w.receivers.set r rcv' } := by
  refine ⟨h.counted, ?_, ?_, h.single, h.parked, ?_⟩
  · intro rcv hrcv
    rcases mem_or_eq_of_mem_set hrcv with hrcv | rfl
    · exact h.seen rcv hrcv
    · exact hs
  · intro f hf hl
    change f.kind.receiver < (w.receivers.set r rcv').length
    rw [length_set]
    exact h.owner f hf hl
  · intro f hf hl hg hwaits
    have hne : r ≠ f.kind.receiver := by
      rintro rfl
      rw [← not_eq_true, busy_iff] at hb
      exact hb ⟨f, hf, hl, rfl⟩
    exact h.listed f hf hl hg
      (waits_of_congr hwaits rfl (getElem?_set_ne hne) rfl rfl)

theorem Sound.clone (h : w.Sound) (hr : w.receivers[r]? = some rcv) : Sound { w with
        inner := { w.inner with receiversAlive := n }
        receivers := w.receivers ++ [rcv] } := by
  refine ⟨h.counted, ?_, ?_, h.single, h.parked, ?_⟩
  · intro rcv' hrcv
    rcases mem_append.mp hrcv with hrcv | hrcv
    · exact h.seen rcv' hrcv
    · rw [mem_singleton.mp hrcv]
      exact h.seen rcv (mem_of_getElem? hr)
  · intro f hf hl
    change f.kind.receiver < (w.receivers ++ [rcv]).length
    rw [length_append]
    exact Nat.lt_add_right _ (h.owner f hf hl)
  · intro f hf hl hg hwaits
    exact h.listed f hf hl hg
      (waits_of_congr hwaits rfl (getElem?_append_left (h.owner f hf hl)) rfl rfl)

theorem Sound.changed (h : w.Sound) (hr : w.receivers[r]? = some rcv) (hb : w.busy r = false) :
    Sound { w with futures := w.futures ++ [⟨⟨r, false, 0⟩, 0, .fresh⟩] } := by
  rw [← not_eq_true, busy_iff] at hb
  refine ⟨h.counted, h.seen, ?_, ?_, ?_, ?_⟩
  · intro f hf hl
    rcases mem_append.mp hf with hf | hf
    · exact h.owner f hf hl
    · rw [mem_singleton.mp hf]
      exact (lt_of_some hr)
  · intro i j f g hi hj hf hg hfg
    rcases of_snoc hi with hi | ⟨rfl, rfl⟩
    · rcases of_snoc hj with hj | ⟨rfl, rfl⟩
      · exact h.single i j f g hi hj hf hg hfg
      · exact absurd ⟨f, mem_of_getElem? hi, hf, hfg⟩ hb
    · rcases of_snoc hj with hj | ⟨rfl, rfl⟩
      · exact absurd ⟨g, mem_of_getElem? hj, hg, hfg.symm⟩ hb
      · rfl
  · intro f hf hp
    rcases mem_append.mp hf with hf | hf
    · exact h.parked f hf hp
    · rw [mem_singleton.mp hf] at hp
      cases hp
  · intro f hf hl hg hwaits
    rcases mem_append.mp hf with hf | hf
    · exact h.listed f hf hl hg hwaits
    · rw [mem_singleton.mp hf] at hg
      cases hg

theorem Sound.wakeNext (h : w.Sound) {k : ℕ} {t : List (Sleeper Changed)} {hs : List (List ℕ)}
    (hk : Lot.wakeNext w.futures w.hands k = some (t, hs)) :
    Sound { w with futures := t, hands := hs } := by
  obtain ⟨x, rest, -, rfl, -⟩ := wakeNext_eq_some hk
  refine ⟨h.counted, h.seen, ?_, ?_, ?_, ?_⟩
  · intro f hf hl
    obtain ⟨g, hg, rfl⟩ := mem_map.mp hf
    rw [wake_isLive] at hl
    rw [wake_kind]
    exact h.owner g hg hl
  · intro i j f g hi hj hf hg hfg
    change (w.futures.map (Lot.wake x))[i]? = some f at hi
    change (w.futures.map (Lot.wake x))[j]? = some g at hj
    rw [getElem?_map] at hi hj
    obtain ⟨a, ha, rfl⟩ := map_eq_some_iff.mp hi
    obtain ⟨b, hb, rfl⟩ := map_eq_some_iff.mp hj
    rw [wake_isLive] at hf hg
    rw [wake_kind, wake_kind] at hfg
    exact h.single i j a b ha hb hf hg hfg
  · intro f hf hp
    obtain ⟨g, hg, rfl⟩ := mem_map.mp hf
    rw [wake_isParked] at hp
    rw [wake_kind]
    exact h.parked g hg hp
  · intro f hf hl hr hwaits
    obtain ⟨g, hg, rfl⟩ := mem_map.mp hf
    rw [wake_isLive] at hl
    rw [wake_kind] at hr hwaits ⊢
    exact h.listed g hg hl hr hwaits

theorem Sound.marks (h : w.Sound) {waker : ℕ} (hi : w.futures[i]? = some f)
    (hl : f.phase.isLive) : Sound { w with
        receivers := w.receivers.set f.kind.receiver
          { rcv with seenVersion := w.inner.version, marked := w.updates }
        futures := w.futures.set i ⟨f.kind, waker, .finished⟩ } := by
  -- first the future, which leaves the receiver free, then the receiver
  have hfin := h.of_set hi hl ⟨f.kind, waker, .finished⟩ rfl _ (Subset.refl _)
    (fun hp => absurd hp Bool.false_ne_true) (fun hl => absurd hl Bool.false_ne_true)
  refine hfin.of_receiver (n := w.inner.receiversAlive) ?_ ⟨h.counted, Nat.le_refl _⟩
  rw [← not_eq_true, busy_iff]
  rintro ⟨g, hg, hgl, hgr⟩
  obtain ⟨j, hj⟩ := getElem?_of_mem hg
  rcases Table.of_set hj with ⟨-, rfl⟩ | ⟨hij, hj⟩
  · cases hgl
  · exact hij (h.single i j f g hi hj hl hgl hgr.symm)

end Step

theorem sound_of_step {v : World α} (h : w.Sound) (hs : Steps w l v) : v.Sound := by
  cases hs with
  | update value ha hl =>
    refine ⟨congrArg (· + 1) h.counted, ?_, h.owner, h.single, h.parked, ?_⟩
    · intro rcv hrcv
      obtain ⟨hm, hle⟩ := h.seen rcv hrcv
      exact ⟨hm, Nat.le_succ_of_le hle⟩
    · intro f hf hlive hr hwaits
      cases hwaits.symm.trans (h.waits_update f.kind rfl rfl)
  | sendFails ha hr => exact h
  | dropSender ha =>
    refine ⟨h.counted, h.seen, h.owner, h.single, h.parked, ?_⟩
    intro f hf hlive hr hwaits
    cases hwaits.symm.trans (waits_of_dropped f.kind rfl)
  | wakeNext hk => exact h.wakeNext hk
  | cloneReceiver hr ha hb => exact h.clone hr
  | @dropReceiver r rcv hr ha hb => exact h.of_receiver hb (h.seen rcv (mem_of_getElem? hr))
  | borrowAndUpdate hr ha hb =>
    exact h.of_receiver (n := w.inner.receiversAlive) hb ⟨h.counted, Nat.le_refl _⟩
  | changed hr ha hb => exact h.changed hr hb
  | marks hi hl hr hv => exact h.marks hi hl
  | refuses hi hl hr hv ha =>
    exact h.of_set hi hl ⟨_, _, .finished⟩ rfl w.inner.wakers (Subset.refl _)
      (fun hp => absurd hp Bool.false_ne_true) (fun hl => absurd hl Bool.false_ne_true)
  | registers hi hl hr hv ha hg =>
    exact h.of_set hi hl ⟨⟨_, true, _⟩, _, _⟩ rfl _ (subset_append_left _ _) (fun _ => rfl)
      (fun _ _ _ => mem_append_right _ (mem_singleton.mpr rfl))
  | @repolls i waker f rcv hi hl hr hv ha hg =>
    exact h.of_set hi hl ⟨f.kind, waker, .parked false⟩ rfl w.inner.wakers (Subset.refl _)
      (fun _ => hg)
      (fun _ hg hwaits => h.listed f (mem_of_getElem? hi) hl hg hwaits)
  | drop hi hl =>
    exact h.of_set hi hl ⟨_, _, .dropped⟩ rfl w.inner.wakers (Subset.refl _)
      (fun hp => absurd hp Bool.false_ne_true) (fun hl => absurd hl Bool.false_ne_true)

theorem sound_init (initial : α) : (watch initial).init.Sound := by
  refine ⟨rfl, ?_, ?_, ?_, ?_, ?_⟩
  · intro rcv hrcv
    rw [mem_singleton.mp hrcv]
    exact ⟨rfl, Nat.le_refl _⟩
  · exact fun f hf => absurd hf not_mem_nil
  · exact fun i j f g hi => absurd hi (by simp [watch])
  · exact fun f hf => absurd hf not_mem_nil
  · exact fun f hf => absurd hf not_mem_nil

theorem sound_of_reachable (h : (watch initial).Reachable w) : w.Sound :=
  System.inv_of_reachable (sound_init initial)
    (fun _ _ _ h hs => sound_of_step h (steps_of_step hs)) h

/-! ## Who is heard -/

/-- A poll has to wait, its future has pushed a waker before, and the waker of this poll is
not in the list. -/
def stale (w : World α) : Label α → Bool
  | .poll i waker =>
    match w.futures[i]? with
    | none => false
    | some f => f.kind.registered && w.waits f.kind && !w.inner.wakers.contains waker
  | _ => false

/-- Whoever sleeps has its waker in the list, or about to be woken. -/
structure Heard (w : World α) : Prop where
  waiting : ∀ f ∈ w.futures, f.phase.isParked = true → w.waits f.kind = true →
    f.waker ∈ w.inner.wakers
  awaited : Lot.Awaited (fun k => w.waits k = false) w.futures w.inner.wakers w.hands

section Heard

variable {w v : World α} {i : ℕ} {f : Sleeper Changed}

theorem Heard.update (h : w.Heard) (hw : w.inner.wakers ⊆ v.inner.wakers)
    (hhands : v.hands = w.hands) (hf : ∀ g ∈ v.futures, g.phase.isParked →
      (g ∈ w.futures ∧ v.waits g.kind = w.waits g.kind) ∨
        (g.waker ∈ v.inner.wakers ∧ v.waits g.kind)) : v.Heard := by
  constructor
  · intro g hg hp hwaits
    rcases hf g hg hp with ⟨hold, heq⟩ | hnew
    · exact hw (h.waiting g hold hp (heq ▸ hwaits))
    · exact hnew.1
  · rw [hhands]
    refine h.awaited.update hw ?_
    intro g hg hasleep
    rcases hf g hg (by rw [hasleep]; rfl) with ⟨hold, heq⟩ | ⟨hmem, hwaits⟩
    · exact .inl ⟨hold, fun hn => heq ▸ hn⟩
    · exact .inr ⟨hmem, by simp [hwaits]⟩

theorem ne_of_free {r : ℕ} (hb : w.busy r = false) (hf : f ∈ w.futures)
    (hp : f.phase.isParked) : r ≠ f.kind.receiver := by
  rintro rfl
  rw [← not_eq_true, busy_iff] at hb
  exact hb ⟨f, hf, isLive_of_isParked hp, rfl⟩

theorem waits_eq {k : Changed} (hr : v.receivers[k.receiver]? = w.receivers[k.receiver]?)
    (hv : v.inner.version = w.inner.version) (ha : v.inner.senderAlive = w.inner.senderAlive) :
    v.waits k = w.waits k := by
  rw [waits, waits, hr, hv, ha]

theorem Heard.takeAll (h : w.Heard) (hf : v.futures = w.futures) (hw : v.inner.wakers = [])
    (hhands : v.hands = w.hands ++ [w.inner.wakers]) (hn : ∀ k, v.waits k = false) : v.Heard := by
  constructor
  · intro g hg hp hwaits
    cases (hn g.kind).symm.trans hwaits
  · rw [hf, hw, hhands]
    exact h.awaited.takeAll _

theorem Heard.wakeNext (h : w.Heard) {k : ℕ} {t : List (Sleeper Changed)} {hs : List (List ℕ)}
    (hk : Lot.wakeNext w.futures w.hands k = some (t, hs)) :
    Heard { w with futures := t, hands := hs } := by
  constructor
  · obtain ⟨x, rest, -, rfl, -⟩ := wakeNext_eq_some hk
    intro f hf hp hwaits
    obtain ⟨g, hg, rfl⟩ := mem_map.mp hf
    rw [wake_isParked] at hp
    rw [wake_kind] at hwaits
    rw [wake_waker]
    exact h.waiting g hg hp hwaits
  · exact h.awaited.wakeNext hk

theorem Heard.of_end (h : w.Heard) (f' : Sleeper Changed) (hp : f'.phase.isParked = false)
    (hv : v.futures = w.futures.set i f') (hw : v.inner.wakers = w.inner.wakers)
    (hhands : v.hands = w.hands) (heq : ∀ j g, i ≠ j → w.futures[j]? = some g → g.phase.isParked →
      v.waits g.kind = w.waits g.kind) : v.Heard := by
  refine h.update (by rw [hw]; exact Subset.refl _) hhands ?_
  intro g hg hgp
  obtain ⟨j, hj⟩ := getElem?_of_mem hg
  rw [hv] at hj
  rcases of_set hj with ⟨-, rfl⟩ | ⟨hij, hj⟩
  · rw [hp] at hgp
    cases hgp
  · exact .inl ⟨mem_of_getElem? hj, heq j g hij hj hgp⟩

end Heard

theorem heard_of_step {v : World α} (h : w.Heard) (hk : w.Sound)
    (hstale : w.stale l = false) (hs : Steps w l v) : v.Heard := by
  cases hs with
  | update value ha hl => exact h.takeAll rfl rfl rfl fun k => hk.waits_update k rfl rfl
  | sendFails ha hr => exact h
  | dropSender ha => exact h.takeAll rfl rfl rfl fun k => waits_of_dropped k rfl
  | wakeNext hk => exact h.wakeNext hk
  | cloneReceiver hr ha hb =>
    refine h.update (Subset.refl _) rfl ?_
    intro g hg hp
    have hlt := hk.owner g hg (isLive_of_isParked hp)
    exact .inl ⟨hg, waits_eq (getElem?_append_left hlt) rfl rfl⟩
  | dropReceiver hr ha hb | borrowAndUpdate hr ha hb =>
    refine h.update (Subset.refl _) rfl ?_
    intro g hg hp
    exact .inl ⟨hg, waits_eq (getElem?_set_ne (ne_of_free hb hg hp)) rfl rfl⟩
  | changed hr ha hb =>
    refine h.update (Subset.refl _) rfl ?_
    intro g hg hp
    rcases mem_append.mp hg with hg | hg
    · exact .inl ⟨hg, rfl⟩
    · rw [mem_singleton.mp hg] at hp
      cases hp
  | @marks i waker f rcv hi hl hr hv =>
    refine h.of_end ⟨f.kind, waker, .finished⟩ rfl rfl rfl rfl ?_
    intro j g hij hj hp
    -- the receiver that is marked is borrowed by future `i` alone
    have hne : f.kind.receiver ≠ g.kind.receiver := fun heq =>
      hij (hk.single i j f g hi hj hl (isLive_of_isParked hp) heq)
    exact waits_eq (getElem?_set_ne hne) rfl rfl
  | refuses hi hl hr hv ha =>
    exact h.of_end ⟨_, _, .finished⟩ rfl rfl rfl rfl fun _ _ _ _ _ => rfl
  | @registers i waker f rcv hi hl hr hv ha hg =>
    refine h.update (subset_append_left _ _) rfl ?_
    intro g hg hp
    rcases mem_or_eq_of_mem_set hg with hold | rfl
    · exact .inl ⟨hold, rfl⟩
    · exact .inr ⟨mem_append_right _ (mem_singleton.mpr rfl), waits_iff.mpr ⟨rcv, hr, hv, ha⟩⟩
  | @repolls i waker f rcv hi hl hr hv ha hg =>
    have hwaits : w.waits f.kind := waits_iff.mpr ⟨rcv, hr, hv, ha⟩
    have hmem : waker ∈ w.inner.wakers := by
      simpa [stale, hi, hg, hwaits] using hstale
    refine h.update (Subset.refl _) rfl ?_
    intro g hg hp
    rcases mem_or_eq_of_mem_set hg with hold | rfl
    · exact .inl ⟨hold, rfl⟩
    · exact .inr ⟨hmem, hwaits⟩
  | drop hi hl => exact h.of_end ⟨_, _, .dropped⟩ rfl rfl rfl rfl fun _ _ _ _ _ => rfl

theorem heard_init (initial : α) : (watch initial).init.Heard :=
  ⟨fun _ hf => absurd hf not_mem_nil, fun _ hf => absurd hf not_mem_nil⟩

theorem heard_of_reachableUnder
    (h : (watch initial).ReachableUnder (fun w l => w.stale l = false) w) : w.Heard :=
  h.inv (heard_init initial) fun _ _ _ hr hI hc hs =>
    heard_of_step hI (sound_of_reachable hr) hc (steps_of_step hs)

/-! ## One task all along -/

/-- A poll is made with the waker that the future has pushed, if it has pushed one. -/
def sameWaker (w : World α) : Label α → Bool
  | .poll i waker =>
    match w.futures[i]? with
    | none => true
    | some f => !f.kind.registered || f.kind.entry == waker
  | _ => true

theorem Sound.not_stale {v : World α} (h : w.Sound) (hl : w.sameWaker l)
    (hs : w.step l = some v) : w.stale l = false := by
  cases l with
  | poll i waker =>
    obtain ⟨f, hi, hs⟩ := bind_eq_some_iff.mp hs
    obtain ⟨hlive, -⟩ := ite_none_right_eq_some.mp hs
    simp only [sameWaker, hi, or_eq_true, not_eq_true', beq_iff_eq] at hl
    rw [← not_eq_true]
    intro hstale
    simp only [stale, hi, and_eq_true, not_eq_true'] at hstale
    obtain ⟨⟨hreg, hwaits⟩, hnot⟩ := hstale
    rcases hl with hl | hl
    · cases hl.symm.trans hreg
    · have hmem := h.listed f (mem_of_getElem? hi) hlive hreg hwaits
      rw [hl] at hmem
      simp [hmem] at hnot
  | _ => rfl

theorem heard_of_sameWaker
    (h : (watch initial).ReachableUnder (fun w l => w.sameWaker l) w) : w.Heard :=
  h.inv (heard_init initial) fun _ _ _ hr hI hc hs =>
    heard_of_step hI (sound_of_reachable hr) ((sound_of_reachable hr).not_stale hc hs)
      (steps_of_step hs)

theorem Sound.of_ok {v : World α} (h : w.Sound) {i : ℕ} {f : Sleeper Changed}
    (hs : w.step (.poll i waker) = some v) (hi : w.futures[i]? = some f)
    (hr : w.receivers[f.kind.receiver]? = some rcv)
    (hok : w.reply i waker = some (.ready (.ok ()))) :
    rcv.marked < w.updates ∧ v.updates = w.updates ∧
      ∃ rcv', v.receivers[f.kind.receiver]? = some rcv' ∧ rcv'.marked = v.updates ∧
        rcv'.seenVersion = v.inner.version := by
  obtain ⟨hm, hle⟩ := h.seen rcv (mem_of_getElem? hr)
  simp only [reply, hi, hr, bind_some, map_some, Inner.pollChanged] at hok
  have hv : w.inner.version ≠ rcv.seenVersion := by
    intro hv
    rw [if_neg (not_not.mpr hv)] at hok
    split at hok
    · simp at hok
    · split at hok <;> simp at hok
  have hcounted := h.counted
  cases steps_poll hs with
  | update value ha hl =>
    rcases hl with ⟨hl, -⟩ | ⟨modify, hl, -⟩ <;> cases hl
  | marks hi' hl hr' hv' =>
    cases hi'.symm.trans hi
    cases hr'.symm.trans hr
    exact ⟨by omega, rfl, _, set_self hr _, rfl, rfl⟩
  | refuses hi' hl hr' hv' ha | registers hi' hl hr' hv' ha hg | repolls hi' hl hr' hv' ha hg =>
    cases hi'.symm.trans hi
    cases hr'.symm.trans hr
    exact absurd hv' hv

theorem Sound.of_err (h : w.Sound) {i : ℕ} {f : Sleeper Changed}
    {e : RecvError} (hi : w.futures[i]? = some f) (hr : w.receivers[f.kind.receiver]? = some rcv)
    (herr : w.reply i waker = some (.ready (.error e))) :
    w.inner.senderAlive = false ∧ rcv.marked = w.updates := by
  obtain ⟨hm, -⟩ := h.seen rcv (mem_of_getElem? hr)
  simp only [reply, hi, hr, bind_some, map_some, Inner.pollChanged] at herr
  by_cases hv : w.inner.version = rcv.seenVersion
  · rw [if_neg (not_not.mpr hv)] at herr
    cases ha : w.inner.senderAlive with
    | true =>
      rw [ha] at herr
      simp only [Bool.not_true, false_eq_true, if_false] at herr
      split at herr <;> simp at herr
    | false => exact ⟨rfl, by rw [← hm, ← hv, h.counted]⟩
  · rw [if_pos hv] at herr
    simp at herr

theorem Sound.not_waits (h : w.Sound) (hr : w.receivers[k.receiver]? = some rcv)
    (hn : rcv.marked < w.updates ∨ w.inner.senderAlive = false) : w.waits k = false := by
  rw [← not_eq_true, waits_iff]
  rintro ⟨rcv', hr', hv, ha⟩
  cases hr.symm.trans hr'
  obtain ⟨hm, -⟩ := h.seen rcv (mem_of_getElem? hr)
  have hcounted := h.counted
  rcases hn with hn | hn
  · omega
  · cases hn.symm.trans ha

/-- **The last update is not lost.**  With one waker for each future of `changed`: `Ok` means an
update after the one last marked, and marks the current one; `Err` means that the sender is gone
and no update is unmarked; and no future is parked with either of them there, unless it has been
woken or is about to be. -/
theorem last_update_kept (initial : α) {w : World α}
    (h : (watch initial).ReachableUnder (fun w l => w.sameWaker l = true) w) :
    (∀ (i waker : ℕ) (f : Sleeper Changed) (rcv : Receiver), w.futures[i]? = some f →
      w.receivers[f.kind.receiver]? = some rcv →
      (∀ v, w.step (.poll i waker) = some v → w.reply i waker = some (.ready (.ok ())) →
        rcv.marked < w.updates ∧ v.updates = w.updates ∧
          ∃ rcv', v.receivers[f.kind.receiver]? = some rcv' ∧ rcv'.marked = v.updates ∧
            rcv'.seenVersion = v.inner.version) ∧ (∀ e, w.reply i waker = some (.ready (.error e)) →
        w.inner.senderAlive = false ∧ rcv.marked = w.updates)) ∧
    ∀ (f : Sleeper Changed) (rcv : Receiver), f ∈ w.futures → f.phase.isParked = true →
      w.receivers[f.kind.receiver]? = some rcv →
      rcv.marked < w.updates ∨ w.inner.senderAlive = false →
      f.phase.isWoken = true ∨ Lot.InHand w.hands f.waker := by
  have hk := sound_of_reachable h.reachable
  have hh := heard_of_sameWaker h
  constructor
  · intro i waker f rcv hi hr
    exact ⟨fun v hs hok => hk.of_ok hs hi hr hok, fun e herr => hk.of_err hi hr herr⟩
  · intro f rcv hf hp hr hn
    obtain ⟨woken, hwoken⟩ := Phase.isParked_iff.mp hp
    cases woken with
    | true => exact .inl (Phase.isWoken_iff.mpr hwoken)
    | false => exact .inr (hh.awaited.inHand hf hwoken (hk.not_waits hr hn))

theorem last_update_kept_amid_wakes :
    ∃ w : World ℕ, (watch 0).ReachableUnder (fun w l => w.sameWaker l = true) w ∧
      w.futures.map Sleeper.phase = [.parked true, .parked false] ∧
      w.inner.senderAlive = false ∧ w.reply 1 6 = some (.ready (.ok ())) ∧
      (∃ rcv, w.receivers[1]? = some rcv ∧ rcv.marked < w.updates) ∧ Lot.InHand w.hands 6 := by
  have hw : (watch 0).ReachableUnder (fun w l => w.sameWaker l) _ :=
    ⟨[.cloneReceiver 0, .changed 0, .changed 1, .poll 0 5, .poll 1 6, .poll 0 5, .send 9,
      .wakeNext 0, .dropSender], rfl, by decide⟩
  obtain ⟨hpoll, hparked⟩ := last_update_kept 0 hw
  obtain ⟨hmarked, -⟩ := (hpoll 1 6 _ _ rfl rfl).1 _ rfl rfl
  refine ⟨_, hw, rfl, rfl, rfl, ⟨_, rfl, hmarked⟩, ?_⟩
  have hheard := hparked ⟨⟨1, true, 6⟩, 6, .parked false⟩ _
    (mem_cons_of_mem _ (mem_singleton.mpr rfl)) rfl rfl (.inl hmarked)
  exact hheard.resolve_left Bool.false_ne_true

end World

end RustyTokio.Watch

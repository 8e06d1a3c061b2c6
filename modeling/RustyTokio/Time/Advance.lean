import RustyTokio.Time.Timers
import RustyTokio.Transition.Pool

/-!
# What `advance` has done when it returns

A call of `advance` that is alone with the clock moves it from deadline to deadline and stops at its
target, while tasks register and cancel timers and the timer thread fires what is due.
-/

namespace RustyTokio.Time
namespace World

open Transition List Option Bool Table

/-! ## How often a timer is woken -/

def woken (w : World) (id : ℕ) : ℕ := w.wakes.countP (·.id = id)

/-- An id belongs to one `Sleep`, and is not withdrawn while it has it. -/
structure Owned (w : World) : Prop where
  single : ∀ (i j : ℕ) (s s' : Sleep), w.sleeps[i]? = some s → w.sleeps[j]? = some s' →
    ∀ id, s.id = some id → s'.id = some id → i = j
  live : ∀ (i : ℕ) (s : Sleep), w.sleeps[i]? = some s → ∀ id, s.id = some id →
    ∀ t, w.timers[id]? = some t → t.withdrawn = false

/-- A timer is woken once, when it leaves the heap, unless it was withdrawn. -/
structure Ledger (w : World) : Prop where
  queued : ∀ (id : ℕ) (t : Timer), w.timers[id]? = some t → w.Queued id →
    w.woken id = 0 ∧ t.waker.isSome = !t.withdrawn
  fired : ∀ (id : ℕ) (t : Timer), w.timers[id]? = some t → ¬ w.Queued id →
    w.woken id = (!t.withdrawn).toNat
  registered : ∀ x ∈ w.wakes, x.id < w.timers.length

section Owned

variable {w : World} {i : ℕ} {s s' : Sleep}

theorem Owned.of_eq {v : World} (h : w.Owned) (hs : v.sleeps = w.sleeps)
    (ht : ∀ (id : ℕ) (t : Timer), v.timers[id]? = some t →
      ∃ u : Timer, w.timers[id]? = some u ∧ t.withdrawn = u.withdrawn) : v.Owned where
  single := hs ▸ h.single
  live i s hi id hid t htid := by
    rw [hs] at hi
    obtain ⟨u, hu, heq⟩ := ht id t htid
    exact heq.trans (h.live i s hi id hid u hu)

theorem Owned.setSleep (h : w.Owned) (hi : w.sleeps[i]? = some s)
    (hs : ∀ id, s'.id = some id → s.id = some id) : (w.setSleep i s').Owned := by
  -- whoever has an id now had it before
  have hold : ∀ (j : ℕ) (r : Sleep), (w.sleeps.set i s')[j]? = some r → ∀ id, r.id = some id →
      ∃ r', w.sleeps[j]? = some r' ∧ r'.id = some id := by
    intro j r hj id hid
    rcases of_set hj with ⟨rfl, rfl⟩ | ⟨-, hj⟩
    · exact ⟨s, hi, hs id hid⟩
    · exact ⟨r, hj, hid⟩
  constructor
  · intro j j' r r' hj hj' id hr hr'
    obtain ⟨q, hq, hqid⟩ := hold j r hj id hr
    obtain ⟨q', hq', hqid'⟩ := hold j' r' hj' id hr'
    exact h.single j j' q q' hq hq' id hqid hqid'
  · intro j r hj id hr t ht
    obtain ⟨q, hq, hqid⟩ := hold j r hj id hr
    exact h.live j q hq id hqid t ht

theorem Owned.modify (h : w.Owned) (id : ℕ) {f : Timer → Timer}
    (hf : ∀ t, (f t).withdrawn = t.withdrawn) :
    Owned { w with timers := w.timers.modify id f } := by
  refine h.of_eq rfl fun id' t ht => ?_
  rcases of_modify ht with ⟨-, u, hu, rfl⟩ | ⟨-, ht⟩
  · exact ⟨u, hu, hf u⟩
  · exact ⟨t, ht, rfl⟩

theorem Owned.fireDue (h : w.Owned) (now : ℕ) : (w.fireDue now).Owned := by
  refine fireDue_induct (I := Owned) (fun {v deadline id rest} _ _ hv => ?_) h
  have hm := hv.modify id (f := Timer.remove) fun _ => rfl
  exact ⟨hm.single, hm.live⟩

theorem Owned.register (h : w.Owned) (hw : w.Sound) (i waker : ℕ) (s : Sleep) :
    ((w.register s.deadline waker).setSleep i
      { s with id := some w.timers.length, use := .idle }).Owned := by
  constructor
  · intro j j' r r' hj hj' id hr hr'
    rcases of_set hj with ⟨rfl, rfl⟩ | ⟨-, hj⟩ <;>
      rcases of_set hj' with ⟨rfl, rfl⟩ | ⟨-, hj'⟩
    · rfl
    · have := hw.sleeping j' r' hj' id hr'
      have := some.inj hr
      omega
    · have := hw.sleeping j r hj id hr
      have := some.inj hr'
      omega
    · exact h.single j j' r r' hj hj' id hr hr'
  · intro j r hj id hr t ht
    rcases of_snoc ht with ht | ⟨-, rfl⟩
    · rcases of_set hj with ⟨rfl, rfl⟩ | ⟨-, hj⟩
      · have := (lt_of_some ht)
        have := some.inj hr
        omega
      · exact h.live j r hj id hr t ht
    · rfl

theorem Owned.cancelId (h : w.Owned) (hi : w.sleeps[i]? = some s)
    (hs' : s'.id = none) : ((w.cancelId s.id).setSleep i s').Owned := by
  have hset : (w.setSleep i s').Owned := h.setSleep hi fun id hid => absurd hid (by simp [hs'])
  refine ⟨hset.single, fun j r hj id hr t ht => ?_⟩
  rcases of_set hj with ⟨rfl, rfl⟩ | ⟨hne, hj'⟩
  · rw [hs'] at hr
    cases hr
  · cases hid : s.id with
    | none =>
      simp only [World.setSleep, World.cancelId, cancelled, hid] at ht
      exact h.live j r hj' id hr t ht
    | some id' =>
      -- the id that is cancelled is not that of another
      have hij : id' ≠ id := fun heq => hne (h.single i j s r hi hj' id (heq ▸ hid) hr)
      simp only [World.setSleep, World.cancelId, cancelled, hid] at ht
      rw [modify_of_ne hij] at ht
      exact h.live j r hj' id hr t ht

end Owned

variable {v : World} {l : Label} {id instant : ℕ} {base : List Wake}

theorem owned_of_steps {w : World} (h : w.Owned) (hw : w.Sound) (hs : w.Steps l v) : v.Owned := by
  cases hs with
  | sleep deadline =>
    constructor
    · intro j j' r r' hj hj' id hr hr'
      rcases of_snoc hj with hj | ⟨-, rfl⟩
      · rcases of_snoc hj' with hj' | ⟨-, rfl⟩
        · exact h.single j j' r r' hj hj' id hr hr'
        · cases hr'
      · cases hr
    · intro j r hj id hr t ht
      rcases of_snoc hj with hj | ⟨-, rfl⟩
      · exact h.live j r hj id hr t ht
      · cases hr
  | polled hi _ _ => exact h.setSleep hi fun _ hid => hid
  | register hi hu hid hh => exact h.register hw _ _ _
  | update hi hu hid hh =>
    exact Owned.setSleep (h.modify _ (f := Timer.insert _) fun _ => rfl) hi fun _ hid => hid
  | reset hi _ | drop hi _ => exact h.cancelId hi rfl
  | @fire now hh =>
    have hf := h.fireDue now
    exact ⟨hf.single, hf.live⟩
  | @fired k target deadline checked hk hh =>
    have hf := h.fireDue deadline
    exact ⟨hf.single, hf.live⟩
  | _ => exact ⟨h.single, h.live⟩

theorem owned_of_reachable {w : World} (h : driver.Reachable w) : w.Owned :=
  h.inv (I := Owned) (by constructor <;> simp [driver])
    fun _ _ _ hr hI hs => owned_of_steps hI (sound_of_reachable hr) (steps_of_step hs)

section Ledger

variable {w : World}

theorem Ledger.of_eq {v : World} (h : w.Ledger) (hheap : v.heap = w.heap)
    (ht : v.timers = w.timers) (hwakes : v.wakes = w.wakes) : v.Ledger := by
  have hq : ∀ id, v.Queued id ↔ w.Queued id := fun id => by rw [Queued, hheap, Queued]
  have hn : ∀ id, v.woken id = w.woken id := fun id => by rw [woken, hwakes, woken]
  constructor
  · intro id t hid hQ
    rw [hn]
    exact h.queued id t (ht ▸ hid) ((hq id).mp hQ)
  · intro id t hid hQ
    rw [hn]
    exact h.fired id t (ht ▸ hid) fun hQ' => hQ ((hq id).mpr hQ')
  · rw [hwakes, ht]
    exact h.registered

theorem Ledger.modify (h : w.Ledger) (id : ℕ) {f : Timer → Timer}
    (hq : ∀ t, w.timers[id]? = some t → w.Queued id → (f t).waker.isSome = !(f t).withdrawn)
    (hf : ∀ t, ¬ w.Queued id → (f t).withdrawn = t.withdrawn) :
    Ledger { w with timers := w.timers.modify id f } := by
  constructor
  · intro id' t ht hQ
    rcases of_modify ht with ⟨rfl, u, hu, rfl⟩ | ⟨-, ht⟩
    · exact ⟨(h.queued id u hu hQ).1, hq u hu hQ⟩
    · exact h.queued id' t ht hQ
  · intro id' t ht hQ
    rcases of_modify ht with ⟨rfl, u, hu, rfl⟩ | ⟨-, ht⟩
    · rw [hf u hQ]
      exact h.fired id u hu hQ
    · exact h.fired id' t ht hQ
  · intro x hx
    rw [length_modify]
    exact h.registered x hx

theorem Ledger.register (h : w.Ledger) (deadline waker : ℕ) :
    (w.register deadline waker).Ledger := by
  have hp := (perm_orderedInsert Before (deadline, w.timers.length) w.heap).map Prod.snd
  have hq : ∀ id, (w.register deadline waker).Queued id ↔ id = w.timers.length ∨ w.Queued id :=
    fun id => hp.mem_iff.trans mem_cons
  constructor
  · intro id t ht hQ
    rcases of_snoc ht with ht | ⟨rfl, rfl⟩
    · have hlt := (lt_of_some ht)
      exact h.queued id t ht (((hq id).mp hQ).resolve_left (ne_of_lt hlt))
    · -- an id that was not given out has no wakes
      refine ⟨countP_eq_zero.mpr fun x hx => ?_, rfl⟩
      have := h.registered x hx
      simp only [decide_eq_true_eq]
      omega
  · intro id t ht hQ
    rcases of_snoc ht with ht | ⟨rfl, -⟩
    · exact h.fired id t ht fun hQ' => hQ ((hq id).mpr (.inr hQ'))
    · exact absurd ((hq _).mpr (.inl rfl)) hQ
  · intro x hx
    have := h.registered x hx
    simp only [World.register, length_append, length_singleton]
    omega

theorem woken_pop (w : World) (deadline id : ℕ) (rest : List (ℕ × ℕ)) (id' : ℕ) :
    (w.pop deadline id rest).woken id' =
      w.woken id' + if id = id' then (w.timers[id]?.bind Timer.waker).isSome.toNat else 0 := by
  rw [woken, World.pop, countP_append, woken, wakeOf]
  congr 1
  cases w.timers[id]?.bind Timer.waker with
  | none => simp
  | some waker =>
    by_cases h : id = id' <;> simp [h]

theorem Ledger.pop {deadline id : ℕ} {rest : List (ℕ × ℕ)} (h : w.Ledger) (hw : w.Sound)
    (hheap : w.heap = (deadline, id) :: rest) : (w.pop deadline id rest).Ledger := by
  have hq : ∀ id', w.Queued id' ↔ id' = id ∨ (w.pop deadline id rest).Queued id' := fun id' => by
    rw [Queued, hheap, map_cons, mem_cons]
    rfl
  have hgone : ¬ (w.pop deadline id rest).Queued id := by
    have hn := hw.nodup
    rw [hheap, map_cons] at hn
    exact (nodup_cons.mp hn).1
  constructor
  · intro id' t ht hQ
    rcases of_modify ht with ⟨rfl, -⟩ | ⟨hid, ht⟩
    · exact absurd hQ hgone
    · rw [woken_pop, if_neg hid]
      exact h.queued id' t ht ((hq id').mpr (.inr hQ))
  · intro id' t ht hQ
    rw [woken_pop]
    rcases of_modify ht with ⟨rfl, u, hu, rfl⟩ | ⟨hid, ht⟩
    · obtain ⟨hzero, hwaker⟩ := h.queued id u hu ((hq id).mpr (.inl rfl))
      rw [if_pos rfl, hzero, hu, bind_some, hwaker, zero_add]
      rfl
    · rw [if_neg hid]
      refine h.fired id' t ht fun hQ' => ?_
      rcases (hq id').mp hQ' with heq' | hQ'
      · exact hid heq'.symm
      · exact hQ hQ'
  · intro x hx
    rw [World.pop, length_modify]
    rcases mem_append.mp hx with hx | hx
    · exact h.registered x hx
    · rw [wakeOf, mem_toList, map_eq_some_iff] at hx
      obtain ⟨waker, -, rfl⟩ := hx
      exact hw.queued_lt ((hq id).mpr (.inl rfl))

theorem Ledger.fireDue (h : w.Ledger) (hw : w.Sound) (now : ℕ) : (w.fireDue now).Ledger := by
  have hboth : (w.fireDue now).Sound ∧ (w.fireDue now).Ledger :=
    fireDue_induct (I := fun v => v.Sound ∧ v.Ledger)
      (fun hheap _ hv => ⟨hv.1.pop hheap, hv.2.pop hv.1 hheap⟩) ⟨hw, h⟩
  exact hboth.2

theorem Ledger.cancelId (h : w.Ledger) (id : Option ℕ) : (w.cancelId id).Ledger := by
  cases id with
  | none => exact h
  | some id =>
    refine h.modify id (fun t _ hQ => ?_) fun t hQ => ?_ <;> simp [Timer.cancel, hQ]

end Ledger

theorem ledger_of_steps {w : World} (h : w.Ledger) (hw : w.Sound) (ho : w.Owned)
    (hs : w.Steps l v) : v.Ledger := by
  cases hs with
  | register hi hu hid hh => exact (h.register _ _).of_eq rfl rfl rfl
  | @update i waker id s hi hu hid hh =>
    refine (h.modify id (f := Timer.insert waker) (fun t ht _ => ?_) fun _ _ => rfl).of_eq
      rfl rfl rfl
    rw [Timer.insert, ho.live i s hi id hid t ht]
    rfl
  | reset hi _ | drop hi _ => exact (h.cancelId _).of_eq rfl rfl rfl
  | @fire now hh => exact (h.fireDue hw now).of_eq rfl rfl rfl
  | @fired k target deadline checked hk hh => exact (h.fireDue hw deadline).of_eq rfl rfl rfl
  | _ => exact h.of_eq rfl rfl rfl

theorem ledger_of_reachable {w : World} (h : driver.Reachable w) : w.Ledger :=
  h.inv (I := Ledger) (by constructor <;> simp [driver])
    fun _ _ _ hr hI hs => ledger_of_steps hI (sound_of_reachable hr) (owned_of_reachable hr)
      (steps_of_step hs)

/-! ## A call that is alone with the clock -/

/-- No poll of a `Sleep` is half done. -/
def settled (w : World) : Bool :=
  w.sleeps.all fun s => match s.use with
    | .polling _ => false
    | _ => true

/-- Nothing is half done, and nothing in the heap is due. -/
def quiet (w : World) : Bool :=
  w.settled && w.holding.isNone && w.heap.all fun e => decide (w.now < e.1)

/-- The step goes with a call of `advance`: it is not one of another call, nor a `pause` or a
`resume`, and a poll that has begun is gone on with. -/
def alone (k : ℕ) (w : World) : Label → Bool
  | .enroll _ => true
  | .pause => false
  | .resume => false
  | .advance _ => false
  | .go j => w.settled && j == k
  | _ => w.settled

def Clear (w : World) : Prop := ∀ e ∈ w.heap, w.now < e.1

/-- The timers below `checked` that were due have fired. -/
def Swept (w : World) (instant checked : ℕ) : Prop :=
  checked ≤ w.timers.length ∧ ∀ e ∈ w.heap, e.1 ≤ instant → checked ≤ e.2

/-- Where a call of `advance` is, the clock and the heap are. -/
def OnCourse (w : World) (c duration : ℕ) : Advance → Prop
  | ⟨.start d, _⟩ => d = duration ∧ w.now = c ∧ w.Clear
  | ⟨.peek target, _⟩ => target = c + duration ∧ w.now ≤ target ∧ w.Clear
  | ⟨.set target deadline, _⟩ =>
    target = c + duration ∧ deadline ≤ target ∧ w.now ≤ deadline
  | ⟨.fire target deadline, _⟩ => target = c + duration ∧ deadline ≤ target ∧ w.now = deadline
  | ⟨.yielding target, _⟩ => target = c + duration ∧ w.now ≤ target ∧ w.Clear
  | ⟨.finish target, checked⟩ =>
    target = c + duration ∧ w.now ≤ target ∧ w.Swept target checked
  | ⟨.returned, checked⟩ => w.now = c + duration ∧ w.Swept (c + duration) checked
  | ⟨.gone, _⟩ => True

theorem OnCourse.mono {w : World} {c duration : ℕ} {a : Advance} (h : w.OnCourse c duration a)
    (hnow : v.now = w.now) (hlen : w.timers.length ≤ v.timers.length)
    (hheap : ∀ e ∈ v.heap, e ∈ w.heap ∨ w.now < e.1 ∧ w.timers.length ≤ e.2) :
    v.OnCourse c duration a := by
  have hclear : w.Clear → v.Clear := fun hc e he => by
    rw [hnow]
    exact (hheap e he).elim (hc e) And.left
  have hswept : ∀ {instant checked}, w.Swept instant checked → v.Swept instant checked := by
    intro instant checked hs
    refine ⟨hs.1.trans hlen, fun e he hle => ?_⟩
    rcases hheap e he with he | ⟨-, hid⟩
    · exact hs.2 e he hle
    · exact hs.1.trans hid
  obtain ⟨stage, checked⟩ := a
  cases stage with
  | start d => exact ⟨h.1, hnow.trans h.2.1, hclear h.2.2⟩
  | peek target | yielding target => exact ⟨h.1, hnow.trans_le h.2.1, hclear h.2.2⟩
  | set target deadline => exact ⟨h.1, h.2.1, hnow.trans_le h.2.2⟩
  | fire target deadline => exact ⟨h.1, h.2.1, hnow.trans h.2.2⟩
  | finish target => exact ⟨h.1, hnow.trans_le h.2.1, hswept h.2.2⟩
  | returned => exact ⟨hnow.trans h.1, hswept h.2⟩
  | gone => trivial

/-- The wakes since `base` are in the order of their deadlines, none early. -/
def Orderly (base : List Wake) (w : World) : Prop :=
  ∃ wakes, w.wakes = base ++ wakes ∧ wakes.Pairwise (fun x y => x.deadline ≤ y.deadline) ∧
    ∀ x ∈ wakes, x.deadline ≤ x.clock ∧ x.deadline ≤ w.now ∧ ∀ e ∈ w.heap, x.deadline ≤ e.1

theorem Orderly.mono {w : World} (h : w.Orderly base)
    (hwakes : v.wakes = w.wakes) (hnow : w.now ≤ v.now)
    (hheap : ∀ e ∈ v.heap, e ∈ w.heap ∨ w.now < e.1) : v.Orderly base := by
  obtain ⟨wakes, heq, hsorted, hall⟩ := h
  refine ⟨wakes, hwakes.trans heq, hsorted, fun x hx => ?_⟩
  obtain ⟨hclock, hle, hbefore⟩ := hall x hx
  refine ⟨hclock, hle.trans hnow, fun e he => ?_⟩
  rcases hheap e he with he | hlt
  · exact hbefore e he
  · exact hle.trans hlt.le

theorem Orderly.pop {w : World} (h : w.Orderly base) (hw : w.Sound)
    {deadline : ℕ} {rest : List (ℕ × ℕ)} (hheap : w.heap = (deadline, id) :: rest)
    (hle : deadline ≤ w.now) : (w.pop deadline id rest).Orderly base := by
  obtain ⟨wakes, heq, hsorted, hall⟩ := h
  have hfirst : (deadline, id) ∈ w.heap := hheap ▸ mem_cons_self
  have hnew : ∀ y ∈ w.wakeOf deadline id, y.deadline = deadline ∧ y.clock = w.now := by
    intro y hy
    rw [wakeOf, mem_toList, map_eq_some_iff] at hy
    obtain ⟨waker, -, rfl⟩ := hy
    exact ⟨rfl, rfl⟩
  refine ⟨wakes ++ w.wakeOf deadline id, ?_, ?_, fun x hx => ?_⟩
  · rw [World.pop, heq, append_assoc]
  · refine pairwise_append.mpr ⟨hsorted, ?_, fun x hx y hy => ?_⟩
    · -- at most one waker goes with an entry
      rw [wakeOf]
      cases w.timers[id]?.bind Timer.waker with
      | none => exact List.Pairwise.nil
      | some waker => exact pairwise_singleton _ _
    · rw [(hnew y hy).1]
      exact (hall x hx).2.2 _ hfirst
  · have hrest : ∀ e ∈ rest, deadline ≤ e.1 := fun e he =>
      ((pairwise_cons.mp (hheap ▸ hw.sorted)).1 e he).deadline_le
    rcases mem_append.mp hx with hx | hx
    · obtain ⟨hclock, hx', hbefore⟩ := hall x hx
      exact ⟨hclock, hx', fun e he => hbefore e (hheap ▸ mem_cons_of_mem _ he)⟩
    · obtain ⟨hd, hc⟩ := hnew x hx
      rw [hd, hc]
      exact ⟨hle, hle, hrest⟩

theorem Orderly.fireDue {w : World} (h : w.Orderly base) (hw : w.Sound) (hle : instant ≤ w.now) :
    (w.fireDue instant).Orderly base := by
  have hall : (w.fireDue instant).Sound ∧ (w.fireDue instant).now = w.now ∧
      (w.fireDue instant).Orderly base := by
    refine fireDue_induct (I := fun v => v.Sound ∧ v.now = w.now ∧ v.Orderly base)
      (fun hheap hd hv => ?_) ⟨hw, rfl, h⟩
    exact ⟨hv.1.pop hheap, hv.2.1, hv.2.2.pop hv.1 hheap (hd.trans (hle.trans_eq hv.2.1.symm))⟩
  exact hall.2.2

structure During (base : List Wake) (k c duration : ℕ) (w : World) : Prop where
  paused : w.paused ≠ none
  course : ∀ a, w.advances[k]? = some a → w.OnCourse c duration a
  orderly : w.Orderly base
  held : ∀ instant, w.holding = some instant → instant ≤ w.now
  polls : ∀ (i : ℕ) (s : Sleep), w.sleeps[i]? = some s → ∀ waker, s.use = .polling waker →
    w.now < s.deadline

namespace During

variable {base : List Wake} {k c duration : ℕ} {w : World} {a : Advance}

theorem frame {v : World} (h : w.During base k c duration) (hp : v.paused = w.paused)
    (hadv : v.advances = w.advances) (hwakes : v.wakes = w.wakes)
    (hlen : w.timers.length ≤ v.timers.length)
    (hheap : ∀ e ∈ v.heap, e ∈ w.heap ∨ w.now < e.1 ∧ w.timers.length ≤ e.2)
    (hheld : ∀ instant, v.holding = some instant → instant ≤ w.now)
    (hpolls : ∀ (i : ℕ) (s : Sleep), v.sleeps[i]? = some s → ∀ waker, s.use = .polling waker →
      w.now < s.deadline) : v.During base k c duration := by
  have hnow : v.now = w.now := by
    obtain ⟨instant, hi⟩ := ne_none_iff_exists'.mp h.paused
    rw [World.now, World.now, hp, hi, getD_some, getD_some]
  refine ⟨hp ▸ h.paused, fun a ha => ?_, ?_, hnow ▸ hheld, hnow ▸ hpolls⟩
  · exact (h.course a (hadv ▸ ha)).mono hnow hlen hheap
  · exact h.orderly.mono hwakes hnow.ge fun e he => (hheap e he).imp_right And.left

variable {instant : ℕ}

theorem setAdvance (h : w.During base k c duration) (j : ℕ)
    (ha : j = k → w.OnCourse c duration a) : (w.setAdvance j a).During base k c duration := by
  refine ⟨h.paused, fun b hb => ?_, h.orderly, h.held, h.polls⟩
  rcases of_set hb with ⟨hjk, rfl⟩ | ⟨-, hb⟩
  · exact ha hjk
  · exact h.course b hb

theorem fireDue (h : w.During base k c duration) (hw : w.Sound)
    (hle : instant ≤ w.now) : (w.fireDue instant).During base k c duration := by
  refine ⟨?_, fun a ha => ?_, h.orderly.fireDue hw hle, ?_, ?_⟩
  · rw [fireDue_paused]
    exact h.paused
  · rw [fireDue_advances] at ha
    refine (h.course a ha).mono (fireDue_now w instant) (fireDue_length w instant).ge
      fun e he => .inl ?_
    exact (fireDue_heap_suffix w instant).subset he
  · rw [fireDue_holding, fireDue_now]
    exact h.held
  · rw [fireDue_sleeps, fireDue_now]
    exact h.polls

theorem set (h : w.During base k c duration) (hsettled : w.settled)
    (hle : w.now ≤ instant) (ha : (w.set instant).OnCourse c duration a) :
    ((w.set instant).setAdvance k a).During base k c duration := by
  refine ⟨some_ne_none _, fun b hb => ?_, ?_, fun n hn => (h.held n hn).trans hle, ?_⟩
  · rcases of_set hb with ⟨-, rfl⟩ | ⟨hne, -⟩
    · exact ha
    · exact absurd rfl hne
  · exact h.orderly.mono rfl hle fun e he => .inl he
  · intro i s hi waker hs
    have := all_eq_true.mp hsettled s (mem_of_getElem? hi)
    rw [hs] at this
    cases this

end During

theorem settled_of_alone {k : ℕ} {w : World} (h : alone k w l)
    (hl : ∀ i, l ≠ .enroll i) : w.settled := by
  cases l with
  | enroll i => exact absurd rfl (hl i)
  | pause | resume | advance d => cases h
  | go j => exact (and_eq_true_iff.mp h).1
  | _ => exact h

theorem during_of_steps {k c duration : ℕ} {w : World}
    (h : w.During base k c duration) (hw : w.Sound) (hl : alone k w l)
    (hs : w.Steps l v) : v.During base k c duration := by
  -- a step of a call is one of this call
  have own : ∀ j, l = .go j → j = k := by
    rintro j rfl
    exact beq_iff_eq.mp (and_eq_true_iff.mp hl).2
  have course : ∀ {j a}, l = .go j → w.advances[j]? = some a → w.OnCourse c duration a :=
    fun hj hk => h.course _ (own _ hj ▸ hk)
  cases hs with
  | tick d => exact h.frame rfl rfl rfl le_rfl (fun _ he => .inl he) h.held h.polls
  | pause hp | resume hp | advance hp => cases hl
  | ready hi _ _ => exact h
  | sleep deadline =>
    refine h.frame rfl rfl rfl le_rfl (fun _ he => .inl he) h.held fun i s hi waker hs => ?_
    rcases of_snoc hi with hi | ⟨-, rfl⟩
    · exact h.polls i s hi waker hs
    · cases hs
  | polled hi _ hd =>
    exact h.frame rfl rfl rfl le_rfl (fun _ he => .inl he) h.held
      (forall_set (fun _ _ => hd) h.polls)
  | register hi hu hid hh =>
    refine h.frame rfl rfl rfl ?_ (fun e he => ?_) h.held
      (forall_set (by simp) h.polls)
    · simp [World.setSleep, World.register]
    · rcases (mem_orderedInsert _).mp he with rfl | he
      · exact .inr ⟨h.polls _ _ hi _ hu, le_rfl⟩
      · exact .inl he
  | update hi hu hid hh =>
    refine h.frame rfl rfl rfl ?_ (fun _ he => .inl he) h.held
      (forall_set (by simp) h.polls)
    simp [World.setSleep, updateWaker]
  | @reset i deadline s hi hu =>
    refine h.frame rfl rfl rfl ?_ (fun _ he => .inl he) h.held
      (forall_set (by simp [hu]) h.polls)
    exact (length_cancelId w s.id).ge
  | @drop i s hi _ =>
    refine h.frame rfl rfl rfl ?_ (fun _ he => .inl he) h.held
      (forall_set (by simp) h.polls)
    exact (length_cancelId w s.id).ge
  | look hh =>
    refine h.frame rfl rfl rfl le_rfl (fun _ he => .inl he) (fun n hn => ?_) h.polls
    exact (some.inj hn).ge
  | fire hh =>
    have hf := h.fireDue hw (h.held _ hh)
    exact ⟨hf.paused, hf.course, hf.orderly, by simp, hf.polls⟩
  | start hk =>
    obtain ⟨rfl, rfl, hclear⟩ := course rfl hk
    exact h.setAdvance _ fun _ => ⟨rfl, Nat.le_add_right _ _, hclear⟩
  | found hk hh hheap hd =>
    obtain ⟨rfl, hle, hclear⟩ := course rfl hk
    refine h.setAdvance _ fun _ => ⟨rfl, hd, ?_⟩
    exact (hclear _ (hheap ▸ mem_cons_self)).le
  | @checked j target checked hk hh hd =>
    obtain ⟨rfl, hle, hclear⟩ := course rfl hk
    refine h.setAdvance _ fun _ => ⟨rfl, hle, le_rfl, fun e he hdue => ?_⟩
    exact absurd hdue (not_le.mpr (hw.lt_of_head hd e he))
  | set hk hp =>
    obtain ⟨rfl, hd, hle⟩ := course rfl hk
    obtain rfl := own _ rfl
    exact h.set (settled_of_alone hl (by simp)) hle ⟨rfl, hd, rfl⟩
  | fired hk hh =>
    obtain ⟨rfl, hd, hnow⟩ := course rfl hk
    refine (h.fireDue hw hnow.ge).setAdvance _ fun _ => ⟨rfl, ?_, fun e he => ?_⟩
    · rw [fireDue_now, hnow]
      exact hd
    · rw [fireDue_now, hnow]
      exact hw.lt_of_mem_fireDue he
  | yielded hk =>
    obtain ⟨rfl, hle, hclear⟩ := course rfl hk
    exact h.setAdvance _ fun _ => ⟨rfl, hle, hclear⟩
  | finish hk hp =>
    obtain ⟨rfl, hle, hswept⟩ := course rfl hk
    obtain rfl := own _ rfl
    exact h.set (settled_of_alone hl (by simp)) hle ⟨rfl, hswept⟩
  | unpaused hk hp => exact absurd hp h.paused
  | dropAdvance hk => exact h.setAdvance _ fun _ => trivial

theorem during_of_run {k c duration : ℕ} {w : World} {ls : List Label}
    (h : w.During base k c duration) (hr : driver.Reachable w) (hrun : driver.run w ls = some v)
    (hA : driver.Along (fun w l => alone k w l) w ls) :
    driver.Reachable v ∧ v.During base k c duration :=
  System.inv_of_run (I := fun w => driver.Reachable w ∧ w.During base k c duration)
    (fun _ _ _ hI hl hs => ⟨hI.1.step hs,
      during_of_steps hI.2 (sound_of_reachable hI.1) hl (steps_of_step hs)⟩) ⟨hr, h⟩ hrun hA

theorem during_of_advance {w u : World} {duration : ℕ} (hq : w.quiet)
    (hs : w.step (.advance duration) = some u) :
    u.During w.wakes w.advances.length w.now duration := by
  simp only [quiet, and_eq_true, isNone_iff_eq_none] at hq
  obtain ⟨⟨hsettled, hh⟩, hclear⟩ := hq
  obtain ⟨hp, rfl⟩ := of_guard_not hs
  refine ⟨hp, fun a ha => ?_, ?_, fun n hn => ?_, fun i s hi waker hs => ?_⟩
  · rw [getElem?_concat_length] at ha
    cases ha
    exact ⟨rfl, rfl, fun e he => of_decide_eq_true (all_eq_true.mp hclear e he)⟩
  · exact ⟨[], (append_nil _).symm, List.Pairwise.nil, fun x hx => by simp at hx⟩
  · cases hh.symm.trans hn
  · have := all_eq_true.mp hsettled s (mem_of_getElem? hi)
    rw [hs] at this
    cases this

/-! ## When it has returned -/

theorem Ledger.woken_eq_zero {w : World} (h : w.Ledger) (hw : w.Sound)
    (hid : w.Queued id ∨ w.timers.length ≤ id) : w.woken id = 0 := by
  rcases hid with hQ | hle
  · exact (h.queued id _ (getElem?_eq_getElem (hw.queued_lt hQ)) hQ).1
  · refine countP_eq_zero.mpr fun x hx => ?_
    have := h.registered x hx
    simp only [decide_eq_true_eq]
    omega

theorem not_queued_of_swept {w : World} (hw : w.Sound) {checked : ℕ} {t : Timer}
    (h : w.Swept instant checked) (ht : w.timers[id]? = some t) (hid : id < checked)
    (hd : t.deadline ≤ instant) : ¬ w.Queued id := by
  intro hQ
  obtain ⟨e, he, rfl⟩ := mem_map.mp hQ
  obtain ⟨u, hu, hdeadline⟩ := hw.entries e he
  cases ht.symm.trans hu
  have := h.2 e he (hdeadline ▸ hd)
  omega

/-- **`advance` is complete and in order.**  Let a call begin when nothing is half done and nothing
is due, and be alone with the clock.  Then the clock shows its start plus its duration; every timer
due by then that was registered when the call last looked, and not cancelled, has been woken
exactly once, and a cancelled one never; and the wakes came in the order of the deadlines, none
early. -/
theorem advance_complete {w u v : World} {duration checked : ℕ} {ls : List Label}
    (hr : driver.Reachable w) (hq : w.quiet = true) (hs : w.step (.advance duration) = some u)
    (hrun : driver.run u ls = some v)
    (hA : driver.Along (fun w' l => alone w.advances.length w' l = true) u ls)
    (hret : v.advances[w.advances.length]? = some ⟨.returned, checked⟩) :
    v.paused = some (w.now + duration) ∧
    (∀ id t, v.timers[id]? = some t → t.withdrawn = true → v.woken id = 0) ∧
    ∃ wakes, v.wakes = w.wakes ++ wakes ∧
      (∀ id t, v.timers[id]? = some t → id < checked → t.deadline ≤ w.now + duration →
        t.withdrawn = false → v.woken id = 1 ∧
          (w.Queued id ∨ w.timers.length ≤ id → wakes.countP (·.id = id) = 1)) ∧
      wakes.Pairwise (fun x y => x.deadline ≤ y.deadline) ∧ ∀ x ∈ wakes, x.deadline ≤ x.clock := by
  obtain ⟨hrv, hv⟩ := during_of_run (during_of_advance hq hs)
    (hr.step (e := .advance duration) hs) hrun hA
  obtain ⟨hnow, hswept⟩ := hv.course _ hret
  have hledger := ledger_of_reachable hrv
  have hsound := sound_of_reachable hrv
  obtain ⟨wakes, hwakes, hsorted, hall⟩ := hv.orderly
  refine ⟨?_, fun id t ht hwith => ?_, wakes, hwakes, fun id t ht hid hd hwith => ?_, hsorted,
    fun x hx => (hall x hx).1⟩
  · obtain ⟨instant, hp⟩ := ne_none_iff_exists'.mp hv.paused
    rw [World.now, hp, getD_some] at hnow
    rw [hp, hnow]
  · by_cases hQ : v.Queued id
    · exact (hledger.queued id t ht hQ).1
    · rw [hledger.fired id t ht hQ, hwith]
      rfl
  · have hone : v.woken id = 1 := by
      rw [hledger.fired id t ht (not_queued_of_swept hsound hswept ht hid hd), hwith]
      rfl
    refine ⟨hone, fun hnew => ?_⟩
    have hzero := (ledger_of_reachable hr).woken_eq_zero (sound_of_reachable hr) hnew
    rw [woken, hwakes, countP_append] at hone
    rw [woken] at hzero
    omega

theorem advance_complete_of_three :
    ∃ w u v : World, driver.Reachable w ∧ w.step (.advance 6) = some u ∧
      driver.run u [.go 0, .go 0, .drop 1, .go 0, .go 0, .sleep 5, .poll 2 9, .enroll 2, .go 0,
        .go 0, .go 0, .look, .fire, .go 0, .go 0, .go 0, .go 0, .look, .fire, .go 0, .go 0, .go 0,
        .go 0] = some v ∧ v.paused = some 6 ∧ v.woken 0 = 1 ∧ v.woken 1 = 0 ∧ v.woken 2 = 1 := by
  let w : World := ⟨0, some 0, [(3, 0), (4, 1)], [⟨3, some 7, false⟩, ⟨4, some 8, false⟩],
    [⟨3, some 0, .idle⟩, ⟨4, some 1, .idle⟩], [], none, [], [0]⟩
  let u : World := { w with advances := [⟨.start 6, 0⟩] }
  let v : World := ⟨0, some 6, [], [⟨3, none, false⟩, ⟨4, none, true⟩, ⟨5, none, false⟩],
    [⟨3, some 0, .idle⟩, ⟨4, none, .dropped⟩, ⟨5, some 2, .idle⟩], [⟨.returned, 3⟩], none,
    [⟨0, 3, 7, 3⟩, ⟨2, 5, 9, 5⟩], [0, 3, 4, 5, 6]⟩
  have hw : driver.Reachable w :=
    ⟨[.pause, .sleep 3, .poll 0 7, .enroll 0, .sleep 4, .poll 1 8, .enroll 1], by decide⟩
  have hu : w.step (.advance 6) = some u := rfl
  have hv : driver.run u [.go 0, .go 0, .drop 1, .go 0, .go 0, .sleep 5, .poll 2 9, .enroll 2,
      .go 0, .go 0, .go 0, .look, .fire, .go 0, .go 0, .go 0, .go 0, .look, .fire, .go 0, .go 0,
      .go 0, .go 0] = some v := by decide
  have hret : v.advances[w.advances.length]? = some ⟨.returned, 3⟩ := rfl
  obtain ⟨hp, hwith, wakes, -, hdue, -⟩ := advance_complete hw (by decide) hu hv (by decide) hret
  exact ⟨w, u, v, hw, hu, hv, hp, (hdue 0 _ rfl (by decide) (by decide) rfl).1,
    hwith 1 _ rfl rfl, (hdue 2 _ rfl (by decide) (by decide) rfl).1⟩

end World

end RustyTokio.Time

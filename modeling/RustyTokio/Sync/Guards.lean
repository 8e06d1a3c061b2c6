import RustyTokio.Sync.RwLock
import RustyTokio.Transition.Pool

/-!
# Locks and their guards

`src/sync/mutex.rs` and `src/sync/rwlock.rs` surround two different locks with the same guards.  A
guard borrows the lock or owns an `Arc` of it; `map` hands the duty to release on to a mapped guard;
`downgrade` turns an exclusive guard into a shared one.
-/

namespace RustyTokio.Guards

open Transition List Option Bool Pool

/-- The calls of a lock with states `σ` that can be taken in the modes `μ`, and what
it has on record. -/
structure Lock (σ μ : Type) where
  new : σ
  exclusive : μ → Bool
  acquire : σ → μ → ℕ → σ × Bool
  tryAcquire : σ → μ → σ × Bool
  release : σ → μ → σ × List ℕ
  downgrade : σ → μ → Option (μ × σ × List ℕ)
  held : σ → μ → ℕ

variable {α : Type} {c : Bool} {a b t : α}

theorem eq_of_ite_true (h : (if c then (a, true) else (b, false)) = (t, true)) : c ∧ t = a := by
  cases c with
  | true => exact ⟨rfl, (Prod.mk.inj h).1.symm⟩
  | false => exact absurd (Prod.mk.inj h).2 Bool.false_ne_true

theorem eq_of_ite_false
    (h : (if c then (a, true) else (b, false)) = (t, false)) : c = false ∧ t = b := by
  cases c with
  | true => exact absurd (Prod.mk.inj h).2.symm Bool.false_ne_true
  | false => exact ⟨rfl, (Prod.mk.inj h).1.symm⟩

structure Request (μ : Type) where
  mode : μ
  owned : Bool
  deriving DecidableEq

structure Guard (μ : Type) where
  mode : μ
  owned : Bool
  mapped : Bool
  deriving DecidableEq

structure World (σ μ : Type) where
  lock : σ
  futures : List (Future (Request μ))
  guards : List (Guard μ)
  handles : ℕ
  strong : ℕ
  deriving DecidableEq

inductive Label (μ : Type) where
  | start (m : μ) (owned : Bool)
  | poll (i : ℕ)
  | drop (i : ℕ)
  | tryAcquire (m : μ) (owned : Bool)
  | dropGuard (k : ℕ)
  | map (k : ℕ) (panics : Bool)
  | downgrade (k : ℕ)
  | cloneHandle
  | dropHandle
  deriving DecidableEq

namespace World

variable {σ μ : Type} (L : Lock σ μ)

/-- A guard is made; an owned one clones the `Arc`. -/
def hand (w : World σ μ) (m : μ) (owned : Bool) : World σ μ :=
  { w with
    guards := w.guards ++ [⟨m, owned, false⟩]
    strong := if owned then w.strong + 1 else w.strong }

/-- `drop` of a guard that is out of the list: it releases the lock, and the field
with the `Arc` goes after it. -/
def release (w : World σ μ) (g : Guard μ) : World σ μ :=
  { w with
    lock := (L.release w.lock g.mode).1
    futures := Table.wakeAll w.futures (L.release w.lock g.mode).2
    strong := if g.owned then w.strong - 1 else w.strong }

/-- `map` on guard `k`.  The borrowed one forgets itself after the closure returned,
so that a panic drops it.  The owned one is in a `ManuallyDrop` before the closure is
called and clones its `Arc` afterwards: neither is it dropped when the closure panics,
nor its own `Arc` ever. -/
def map (w : World σ μ) (k : ℕ) (g : Guard μ) (panics : Bool) : World σ μ :=
  if panics then
    if g.owned then { w with guards := w.guards.eraseIdx k }
    else release L { w with guards := w.guards.eraseIdx k } g
  else
    { w with
      guards := w.guards.set k { g with mapped := true }
      strong := if g.owned then w.strong + 1 else w.strong }

/-- Somebody borrows a handle: a future, or a guard that is not owned. -/
def borrowed (w : World σ μ) : Bool :=
  w.futures.any (fun f => f.phase.isLive) || w.guards.any fun g => !g.owned

def step (w : World σ μ) : Label μ → Option (World σ μ)
  | .start m owned =>
    if 0 < w.handles then some { w with futures := w.futures ++ [⟨⟨m, owned⟩, .fresh⟩] }
    else none
  | .poll i =>
    w.futures[i]?.bind fun f =>
      if f.phase.isLive then
        match L.acquire w.lock f.kind.mode i with
        | (l, true) =>
          some (hand { w with lock := l, futures := Table.setPhase w.futures i .finished }
            f.kind.mode f.kind.owned)
        | (l, false) =>
          some { w with lock := l, futures := Table.setPhase w.futures i (.parked false) }
      else none
  | .drop i =>
    w.futures[i]?.bind fun f =>
      if f.phase.isLive then some { w with futures := Table.setPhase w.futures i .dropped }
      else none
  | .tryAcquire m owned =>
    if 0 < w.handles then
      match L.tryAcquire w.lock m with
      | (l, true) => some (hand { w with lock := l } m owned)
      | (l, false) => some { w with lock := l }
    else none
  | .dropGuard k =>
    w.guards[k]?.map fun g => release L { w with guards := w.guards.eraseIdx k } g
  | .map k panics =>
    w.guards[k]?.bind fun g =>
      if L.exclusive g.mode && !g.mapped then some (w.map L k g panics) else none
  | .downgrade k =>
    w.guards[k]?.bind fun g =>
      if g.mapped then none
      else (L.downgrade w.lock g.mode).map fun (m, l, wakers) =>
        { w with
          lock := l
          futures := Table.wakeAll w.futures wakers
          guards := w.guards.set k { g with mode := m } }
  | .cloneHandle =>
    if 0 < w.handles then some { w with handles := w.handles + 1, strong := w.strong + 1 }
    else none
  | .dropHandle =>
    if 1 < w.handles ∨ w.handles = 1 ∧ w.borrowed = false then
      some { w with handles := w.handles - 1, strong := w.strong - 1 }
    else none

end World

/-- Any number of parties around one lock, which starts in one `Arc`. -/
def system {σ μ : Type} (L : Lock σ μ) : System (World σ μ) (Label μ) where
  init := ⟨L.new, [], [], 1, 1⟩
  step := World.step L

/-! ## What each step does -/

namespace World

variable {σ μ : Type} {L : Lock σ μ} {w v : World σ μ}

inductive Steps (L : Lock σ μ) (w : World σ μ) : Label μ → World σ μ → Prop where
  | start {m owned} (h : 0 < w.handles) :
      Steps L w (.start m owned) { w with futures := w.futures ++ [⟨⟨m, owned⟩, .fresh⟩] }
  | poll {i f l} (hi : w.futures[i]? = some f) (hf : f.phase.isLive)
      (ha : L.acquire w.lock f.kind.mode i = (l, true)) :
      Steps L w (.poll i)
        (hand { w with lock := l, futures := Table.setPhase w.futures i .finished }
          f.kind.mode f.kind.owned)
  | park {i f l} (hi : w.futures[i]? = some f) (hf : f.phase.isLive)
      (ha : L.acquire w.lock f.kind.mode i = (l, false)) :
      Steps L w (.poll i)
        { w with lock := l, futures := Table.setPhase w.futures i (.parked false) }
  | drop {i f} (hi : w.futures[i]? = some f) (hf : f.phase.isLive) :
      Steps L w (.drop i) { w with futures := Table.setPhase w.futures i .dropped }
  | tryTaken {m owned l} (h : 0 < w.handles) (ha : L.tryAcquire w.lock m = (l, true)) :
      Steps L w (.tryAcquire m owned) (hand { w with lock := l } m owned)
  | tryFailed {m owned l} (h : 0 < w.handles) (ha : L.tryAcquire w.lock m = (l, false)) :
      Steps L w (.tryAcquire m owned) { w with lock := l }
  | dropGuard {k g} (hk : w.guards[k]? = some g) :
      Steps L w (.dropGuard k) (release L { w with guards := w.guards.eraseIdx k } g)
  | map {k g} (hk : w.guards[k]? = some g) (he : L.exclusive g.mode)
      (hm : g.mapped = false) :
      Steps L w (.map k false)
        { w with
          guards := w.guards.set k { g with mapped := true }
          strong := if g.owned then w.strong + 1 else w.strong }
  | mapUnwinds {k g} (hk : w.guards[k]? = some g) (he : L.exclusive g.mode)
      (hm : g.mapped = false) (ho : g.owned = false) :
      Steps L w (.map k true) (release L { w with guards := w.guards.eraseIdx k } g)
  | mapLoses {k g} (hk : w.guards[k]? = some g) (he : L.exclusive g.mode)
      (hm : g.mapped = false) (ho : g.owned) :
      Steps L w (.map k true) { w with guards := w.guards.eraseIdx k }
  | downgrade {k g m l wakers} (hk : w.guards[k]? = some g) (hm : g.mapped = false)
      (hd : L.downgrade w.lock g.mode = some (m, l, wakers)) :
      Steps L w (.downgrade k)
        { w with
          lock := l
          futures := Table.wakeAll w.futures wakers
          guards := w.guards.set k { g with mode := m } }
  | cloneHandle (h : 0 < w.handles) :
      Steps L w .cloneHandle { w with handles := w.handles + 1, strong := w.strong + 1 }
  | dropHandle (h : 1 < w.handles ∨ w.handles = 1 ∧ w.borrowed = false) :
      Steps L w .dropHandle { w with handles := w.handles - 1, strong := w.strong - 1 }

theorem steps_poll {i : ℕ} (h : w.step L (.poll i) = some v) : Steps L w (.poll i) v := by
  obtain ⟨f, hi, h⟩ := bind_eq_some_iff.mp h
  obtain ⟨hf, h⟩ := ite_none_right_eq_some.mp h
  cases ha : L.acquire w.lock f.kind.mode i with
  | mk s ready =>
    rw [ha] at h
    cases ready with
    | true => exact some.inj h ▸ .poll hi hf ha
    | false => exact some.inj h ▸ .park hi hf ha

theorem steps_tryAcquire {m : μ} {owned : Bool}
    (h : w.step L (.tryAcquire m owned) = some v) : Steps L w (.tryAcquire m owned) v := by
  obtain ⟨hh, h⟩ := ite_none_right_eq_some.mp h
  cases ha : L.tryAcquire w.lock m with
  | mk s taken =>
    rw [ha] at h
    cases taken with
    | true => exact some.inj h ▸ .tryTaken hh ha
    | false => exact some.inj h ▸ .tryFailed hh ha

theorem steps_map {k : ℕ} {panics : Bool}
    (h : w.step L (.map k panics) = some v) : Steps L w (.map k panics) v := by
  obtain ⟨g, hk, hg, rfl⟩ := bind_guard_eq_some.mp h
  rw [and_eq_true, not_eq_true'] at hg
  obtain ⟨he, hm⟩ := hg
  cases panics with
  | false => exact .map hk he hm
  | true =>
    rw [World.map, if_pos rfl]
    cases ho : g.owned with
    | false => exact .mapUnwinds hk he hm ho
    | true => exact .mapLoses hk he hm ho

theorem steps_of_step {l : Label μ} (h : w.step L l = some v) : Steps L w l v := by
  cases l with
  | start m owned =>
    obtain ⟨hh, rfl⟩ := of_guard h
    exact .start hh
  | poll i => exact steps_poll h
  | drop i =>
    obtain ⟨f, hi, hf, rfl⟩ := bind_guard_eq_some.mp h
    exact .drop hi hf
  | tryAcquire m owned => exact steps_tryAcquire h
  | dropGuard k =>
    obtain ⟨g, hk, rfl⟩ := map_eq_some_iff.mp h
    exact .dropGuard hk
  | map k panics => exact steps_map h
  | downgrade k =>
    obtain ⟨g, hk, h⟩ := bind_eq_some_iff.mp h
    obtain ⟨hm, h⟩ := ite_none_left_eq_some.mp h
    obtain ⟨⟨m, l, wakers⟩, hd, rfl⟩ := map_eq_some_iff.mp h
    exact .downgrade hk (not_eq_true _ ▸ hm) hd
  | cloneHandle =>
    obtain ⟨hh, rfl⟩ := of_guard h
    exact .cloneHandle hh
  | dropHandle =>
    obtain ⟨hh, rfl⟩ := of_guard h
    exact .dropHandle hh

end World

/-! ## Holds and guards -/

namespace Lock

variable {σ μ : Type} [DecidableEq μ]

/-- From `s` to `t` the mode `m` is taken, and was free to be. -/
structure Takes (L : Lock σ μ) (s : σ) (m : μ) (t : σ) : Prop where
  free : ∀ n, L.exclusive n = true → L.held s n = 0
  vacant : L.exclusive m = true → ∀ n, L.held s n = 0
  held : ∀ n, L.held t n = L.held s n + (decide (m = n)).toNat

/-- What a lock has to keep for its guards to exclude each other. -/
structure Lawful (L : Lock σ μ) : Prop where
  new : ∀ n, L.held L.new n = 0
  acquire : ∀ {s m i t}, L.acquire s m i = (t, true) → L.Takes s m t
  wait : ∀ {s m i t}, L.acquire s m i = (t, false) → L.held t = L.held s
  tryAcquire : ∀ {s m t}, L.tryAcquire s m = (t, true) → L.Takes s m t
  tryFail : ∀ {s m t}, L.tryAcquire s m = (t, false) → L.held t = L.held s
  release : ∀ s m n, L.held (L.release s m).1 n = L.held s n - (decide (m = n)).toNat
  downgrade : ∀ {s m m' t wakers}, L.downgrade s m = some (m', t, wakers) →
    L.exclusive m = true ∧ ∀ n, L.held t n = (decide (m' = n)).toNat

end Lock

namespace World

variable {σ μ : Type} [DecidableEq μ] {L : Lock σ μ} {l : Label μ}

def count (w : World σ μ) (n : μ) : ℕ := w.guards.countP fun g => decide (g.mode = n)

/-- The closure given to the `map` of an owned guard panics. -/
def loses (w : World σ μ) : Label μ → Bool
  | .map k true => w.guards[k]?.any fun g => g.owned
  | _ => false

/-- The guards are among what the lock holds, and an exclusive one is alone. -/
structure Covered (L : Lock σ μ) (w : World σ μ) : Prop where
  sole : ∀ n, L.exclusive n = true → 0 < L.held w.lock n →
    ∀ m, L.held w.lock m = (decide (n = m)).toNat
  alone : ∀ g ∈ w.guards, L.exclusive g.mode = true → w.guards = [g]
  covered : ∀ n, w.count n ≤ L.held w.lock n

/-- The lock and the guards change alike. -/
def Settled (L : Lock σ μ) (w v : World σ μ) : Prop :=
  ∀ n, L.held v.lock n + w.count n = v.count n + L.held w.lock n

theorem count_pos {w : World σ μ} {g : Guard μ} (hg : g ∈ w.guards) : 0 < w.count g.mode :=
  countP_pos_iff.mpr ⟨g, hg, decide_eq_true rfl⟩

theorem count_eraseIdx {w : World σ μ} {k : ℕ} {g : Guard μ} (hk : w.guards[k]? = some g) (n : μ) :
    (w.guards.eraseIdx k).countP (fun g => decide (g.mode = n)) + (decide (g.mode = n)).toNat =
      w.count n :=
  countP_eraseIdx_add _ hk

namespace Covered

variable {w : World σ μ} {k : ℕ} {g : Guard μ} {v : World σ μ}

theorem eq_singleton (h : Covered L w) (hk : w.guards[k]? = some g)
    (he : L.exclusive g.mode) : k = 0 ∧ w.guards = [g] := by
  have ha := h.alone g (mem_of_getElem? hk) he
  rw [ha, getElem?_singleton, ite_none_right_eq_some] at hk
  exact ⟨hk.1, ha⟩

theorem alone_eraseIdx (h : Covered L w) (hk : w.guards[k]? = some g) :
    ∀ g' ∈ w.guards.eraseIdx k, L.exclusive g'.mode → w.guards.eraseIdx k = [g'] := by
  intro g' hg' he
  -- an exclusive guard was the only one, so it is the one taken out
  have ha := h.alone g' (mem_of_mem_eraseIdx hg') he
  rw [ha, getElem?_singleton, ite_none_right_eq_some] at hk
  rw [ha, hk.1] at hg'
  cases hg'

theorem hand (h : Covered L w) {m : μ} {l : σ} (ht : L.Takes w.lock m l)
    (futures : List (Future (Request μ))) (owned : Bool) :
    Covered L (World.hand { w with lock := l, futures := futures } m owned) ∧
      Settled L w (World.hand { w with lock := l, futures := futures } m owned) := by
  have hcount : ∀ n, (w.guards ++ [Guard.mk m owned false]).countP
      (fun g => decide (g.mode = n)) = w.count n + (decide (m = n)).toNat :=
    fun n => countP_snoc _ _ _
  refine ⟨⟨fun n he hn => ?_, fun g hg he => ?_, fun n => ?_⟩, fun n => ?_⟩
  · change 0 < L.held l n at hn
    change ∀ m', L.held l m' = _
    rw [ht.held, ht.free n he, zero_add] at hn
    obtain rfl : m = n := by
      by_contra hmn
      simp [hmn] at hn
    intro m'
    rw [ht.held, ht.vacant he, zero_add]
  · change g ∈ w.guards ++ [_] at hg
    change w.guards ++ [_] = [g]
    rcases mem_append.mp hg with hg | hg
    · have hpos := Nat.lt_of_lt_of_le (count_pos hg) (h.covered g.mode)
      exact absurd (ht.free _ he) (Nat.ne_of_gt hpos)
    · obtain rfl := mem_singleton.mp hg
      have hnil : w.guards = [] := by
        refine eq_nil_iff_forall_not_mem.mpr fun g' hg' => ?_
        have hpos := Nat.lt_of_lt_of_le (count_pos hg') (h.covered g'.mode)
        exact absurd (ht.vacant he _) (Nat.ne_of_gt hpos)
      rw [hnil, nil_append]
  · have hle := h.covered n
    change (w.guards ++ [_]).countP _ ≤ L.held l n
    rw [hcount, ht.held]
    omega
  · change L.held l n + _ = (w.guards ++ [_]).countP _ + _
    rw [hcount, ht.held]
    omega

theorem release (h : Covered L w) (hL : L.Lawful) (hk : w.guards[k]? = some g) :
    Covered L (World.release L { w with guards := w.guards.eraseIdx k } g) ∧
      Settled L w (World.release L { w with guards := w.guards.eraseIdx k } g) := by
  have hheld := hL.release w.lock g.mode
  have hpos := Nat.lt_of_lt_of_le (count_pos (mem_of_getElem? hk)) (h.covered g.mode)
  refine ⟨⟨fun n he hn => ?_, h.alone_eraseIdx hk, fun n => ?_⟩, fun n => ?_⟩
  · change 0 < L.held (L.release w.lock g.mode).1 n at hn
    rw [hheld] at hn
    -- an exclusive hold was the guard's own, which is gone
    have hsole := h.sole n he (Nat.lt_of_lt_of_le hn (Nat.sub_le _ _))
    obtain rfl | hgn := eq_or_ne g.mode n
    · rw [hsole] at hn
      simp at hn
    · have hng : n ≠ g.mode := fun e => hgn e.symm
      rw [hsole] at hpos
      simp [hng] at hpos
  · have hc := count_eraseIdx hk n
    have hle := h.covered n
    change (w.guards.eraseIdx k).countP _ ≤ L.held (L.release w.lock g.mode).1 n
    rw [hheld]
    omega
  · have hc := count_eraseIdx hk n
    have hle := h.covered n
    change L.held (L.release w.lock g.mode).1 n + _ = (w.guards.eraseIdx k).countP _ + _
    rw [hheld]
    omega

theorem convert (hk : v.guards = [g]) (hheld : ∀ n, L.held v.lock n = (decide (g.mode = n)).toNat) :
    Covered L v ∧ ∀ n, v.count n = L.held v.lock n := by
  have hcount : ∀ n, v.count n = L.held v.lock n := by
    intro n
    rw [count, hk, countP_singleton, hheld]
    by_cases hm : g.mode = n <;> simp [hm]
  refine ⟨⟨fun n _ hn => ?_, fun g' hg' _ => ?_, fun n => Nat.le_of_eq (hcount n)⟩, hcount⟩
  · obtain rfl : g.mode = n := by
      by_contra hm
      simp [hheld, hm] at hn
    exact hheld
  · rw [hk] at hg' ⊢
    rw [mem_singleton.mp hg']

theorem same (h : Covered L w) (hlock : L.held v.lock = L.held w.lock)
    (hguards : v.guards = w.guards) : Covered L v ∧ Settled L w v := by
  have hcount : ∀ n, v.count n = w.count n := fun n => by rw [count, hguards, count]
  refine ⟨⟨?_, ?_, fun n => ?_⟩, fun n => ?_⟩
  · rw [hlock]
    exact h.sole
  · rw [hguards]
    exact h.alone
  · rw [hlock, hcount]
    exact h.covered n
  · rw [hlock, hcount, add_comm]

theorem held_of_exclusive (h : Covered L w) (hk : w.guards[k]? = some g)
    (he : L.exclusive g.mode) (n : μ) : L.held w.lock n = (decide (g.mode = n)).toNat :=
  h.sole g.mode he
    (Nat.lt_of_lt_of_le (count_pos (mem_of_getElem? hk)) (h.covered g.mode)) n

theorem step (h : Covered L w) (hL : L.Lawful) {l : Label μ}
    (hs : Steps L w l v) : Covered L v ∧ (w.loses l = false → Settled L w v) := by
  have settle : ∀ {u}, Covered L u ∧ Settled L w u →
      Covered L u ∧ (w.loses l = false → Settled L w u) := fun hu => ⟨hu.1, fun _ => hu.2⟩
  cases hs with
  | start hh | drop hi hf | cloneHandle hh | dropHandle hh => exact settle (h.same rfl rfl)
  | poll hi hf ha => exact settle (h.hand (hL.acquire ha) _ _)
  | park hi hf ha => exact settle (h.same (hL.wait ha) rfl)
  | tryTaken hh ha => exact settle (h.hand (hL.tryAcquire ha) _ _)
  | tryFailed hh ha => exact settle (h.same (hL.tryFail ha) rfl)
  | dropGuard hk | mapUnwinds hk he hm ho => exact settle (h.release hL hk)
  | @map k g hk he hm =>
    obtain ⟨rfl, hone⟩ := h.eq_singleton hk he
    have hheld := h.held_of_exclusive hk he
    have hset : w.guards.set 0 { g with mapped := true } = [{ g with mapped := true }] := by
      rw [hone]
      rfl
    obtain ⟨hc, hv⟩ := convert (L := L) (g := { g with mapped := true })
      (v := { w with
        guards := w.guards.set 0 { g with mapped := true }
        strong := if g.owned then w.strong + 1 else w.strong }) hset hheld
    obtain ⟨-, hw⟩ := convert hone hheld
    exact settle ⟨hc, fun n => by rw [hv, hw, add_comm]⟩
  | mapLoses hk he hm ho =>
    refine ⟨⟨h.sole, h.alone_eraseIdx hk, fun n => ?_⟩, fun hl => ?_⟩
    · exact Nat.le_trans (Nat.le.intro (count_eraseIdx hk n)) (h.covered n)
    · simp [loses, hk, ho] at hl
  | @downgrade k g m l wakers hk hm hd =>
    obtain ⟨he, hheld⟩ := hL.downgrade hd
    obtain ⟨rfl, hone⟩ := h.eq_singleton hk he
    have hset : w.guards.set 0 { g with mode := m } = [{ g with mode := m }] := by
      rw [hone]
      rfl
    obtain ⟨hc, hv⟩ := convert (L := L) (g := { g with mode := m })
      (v := { w with
        lock := l
        futures := Table.wakeAll w.futures wakers
        guards := w.guards.set 0 { g with mode := m } }) hset hheld
    obtain ⟨-, hw⟩ := convert hone (h.held_of_exclusive hk he)
    exact settle ⟨hc, fun n => by rw [hv, hw, add_comm]⟩

end Covered

theorem covered_init (hL : L.Lawful) : Covered L (system L).init where
  sole n _ hn := absurd (hL.new n) (Nat.ne_of_gt hn)
  alone _ hg := absurd hg not_mem_nil
  covered _ := Nat.zero_le _

theorem covered_of_reachable (hL : L.Lawful) {w : World σ μ} (h : (system L).Reachable w) :
    Covered L w :=
  System.inv_of_reachable (I := Covered L) (covered_init hL)
    (fun _ _ _ h hs => (h.step hL (steps_of_step hs)).1) h

theorem held_of_reachableUnder (hL : L.Lawful) {w : World σ μ}
    (h : (system L).ReachableUnder (fun w l => w.loses l = false) w) (n : μ) :
    L.held w.lock n = w.count n := by
  refine h.inv (I := fun w => ∀ n, L.held w.lock n = w.count n) (fun n => hL.new n) ?_ n
  intro w l v hr heq hl hs n
  obtain ⟨-, hset⟩ := (covered_of_reachable hL hr).step hL (steps_of_step hs)
  have hn := hset hl n
  have hw := heq n
  omega

/-! ## A hold without a guard -/

/-- The lock is held exclusively, and there is no guard to release it. -/
structure Stuck (L : Lock σ μ) (w : World σ μ) : Prop where
  guards : w.guards = []
  held : ∃ n, L.exclusive n = true ∧ 0 < L.held w.lock n

theorem Covered.stuck {w v : World σ μ} (h : Covered L w)
    (hl : w.loses l) (hs : Steps L w l v) : Stuck L v := by
  cases hs with
  | mapLoses hk he hm ho =>
    obtain ⟨rfl, hone⟩ := h.eq_singleton hk he
    refine ⟨by rw [hone]; rfl, _, he, ?_⟩
    rw [h.held_of_exclusive hk he]
    simp
  | mapUnwinds hk he hm ho => simp [loses, hk, ho] at hl
  | _ => simp [loses] at hl

theorem Stuck.step {w v : World σ μ} (h : Stuck L w) (hL : L.Lawful)
    (hs : Steps L w l v) : Stuck L v := by
  obtain ⟨n, he, hpos⟩ := h.held
  have none : ∀ {k : ℕ} {g : Guard μ}, w.guards[k]? ≠ some g := by simp [h.guards]
  have busy : ∀ {m t}, ¬ L.Takes w.lock m t := fun ht => Nat.ne_of_gt hpos (ht.free n he)
  cases hs with
  | poll hi hf ha => exact absurd (hL.acquire ha) busy
  | park hi hf ha => exact ⟨h.guards, n, he, by rw [hL.wait ha]; exact hpos⟩
  | tryTaken hh ha => exact absurd (hL.tryAcquire ha) busy
  | tryFailed hh ha => exact ⟨h.guards, n, he, by rw [hL.tryFail ha]; exact hpos⟩
  | dropGuard hk | map hk he hm | mapUnwinds hk he hm ho | mapLoses hk he hm ho
  | downgrade hk hm hd => exact absurd hk none
  | _ => exact ⟨h.guards, n, he, hpos⟩

theorem Stuck.run {w u : World σ μ} {ls : List (Label μ)} (h : Stuck L w) (hL : L.Lawful)
    (hr : (system L).run w ls = some u) : Stuck L u :=
  System.inv_of_any_run (I := Stuck L) (fun _ _ _ h hs => h.step hL (steps_of_step hs)) h hr

end World

/-! ## The references -/

namespace World

variable {σ μ : Type} {L : Lock σ μ} {w v : World σ μ} {k : ℕ} {g : Guard μ} {l : Label μ}

def owned (w : World σ μ) : ℕ := w.guards.countP fun g => g.owned

def mapsOwned (w : World σ μ) : Label μ → Bool
  | .map k _ => w.guards[k]?.any fun g => g.owned
  | _ => false

theorem strong_hand (w : World σ μ) (m : μ) (o : Bool) :
    (w.hand m o).strong = w.strong + o.toNat := by
  cases o <;> rfl

theorem owned_hand (w : World σ μ) (m : μ) (o : Bool) : (w.hand m o).owned = w.owned + o.toNat :=
  countP_snoc _ _ _

theorem strong_release (w : World σ μ) (g : Guard μ) :
    (w.release L g).strong = w.strong - g.owned.toNat := by
  rw [release]
  cases g.owned <;> rfl

theorem owned_eraseIdx (hk : w.guards[k]? = some g) :
    (w.guards.eraseIdx k).countP (fun g => g.owned) + g.owned.toNat = w.owned :=
  countP_eraseIdx_add _ hk

theorem owned_set (g' : Guard μ) (hk : w.guards[k]? = some g) (ho : g'.owned = g.owned) :
    (w.guards.set k g').countP (fun g => g.owned) = w.owned := by
  have hc := Table.countP_modify (fun g : Guard μ => g.owned) (fun _ => g') hk
  rw [← set_eq_modify, ho] at hc
  exact Nat.add_right_cancel hc

theorem references_release (h : w.handles + w.owned ≤ w.strong) (hk : w.guards[k]? = some g) :
    (release L { w with guards := w.guards.eraseIdx k } g).strong + (w.handles + w.owned) =
      w.handles + (w.guards.eraseIdx k).countP (fun g => g.owned) + w.strong := by
  have ho := owned_eraseIdx hk
  rw [strong_release]
  change w.strong - g.owned.toNat + _ = _
  omega

theorem references_of_step (h : w.handles + w.owned ≤ w.strong) (hs : Steps L w l v) :
    v.strong + (w.handles + w.owned) = v.handles + v.owned + w.strong + (w.mapsOwned l).toNat := by
  cases hs with
  | @poll i f l hi hf ha | tryTaken hh ha =>
    rw [strong_hand, owned_hand]
    change w.strong + _ + _ = w.handles + (w.owned + _) + w.strong + 0
    omega
  | dropGuard hk => exact references_release h hk
  | @map k g hk he hm =>
    have ho := owned_set { g with mapped := true } hk rfl
    have hmap : w.mapsOwned (.map k false) = g.owned := by rw [mapsOwned, hk, any_some]
    rw [hmap]
    change (if g.owned then w.strong + 1 else w.strong) + _ = w.handles + List.countP _ _ + _ + _
    rw [ho]
    cases g.owned with
    | true =>
      rw [if_pos rfl, toNat_true]
      omega
    | false =>
      rw [if_neg Bool.false_ne_true, toNat_false]
      omega
  | @mapUnwinds k g hk he hm ho =>
    have hmap : w.mapsOwned (.map k true) = false := by rw [mapsOwned, hk, any_some, ho]
    rw [hmap]
    exact references_release h hk
  | @mapLoses k g hk he hm ho =>
    have hmap : w.mapsOwned (.map k true) := by rw [mapsOwned, hk, any_some, ho]
    have hc := owned_eraseIdx hk
    rw [ho, toNat_true] at hc
    rw [hmap, toNat_true]
    change w.strong + _ = w.handles + (w.guards.eraseIdx k).countP _ + w.strong + 1
    omega
  | @downgrade k g m l wakers hk hm hd =>
    have ho := owned_set { g with mode := m } hk rfl
    change w.strong + _ = w.handles + List.countP _ _ + _ + 0
    rw [ho]
    omega
  | cloneHandle hh =>
    change w.strong + 1 + _ = w.handles + 1 + w.owned + _ + 0
    omega
  | dropHandle hh =>
    change w.strong - 1 + _ = w.handles - 1 + w.owned + _ + 0
    omega
  | _ =>
    change w.strong + _ = w.handles + w.owned + _ + 0
    omega

theorem references_of_reachable (h : (system L).Reachable w) : w.handles + w.owned ≤ w.strong := by
  refine System.inv_of_reachable (I := fun w : World σ μ => w.handles + w.owned ≤ w.strong)
    (Nat.le_refl _) ?_ h
  intro w l v hw hs
  have hv := references_of_step hw (steps_of_step hs)
  omega

theorem strong_of_reachableUnder
    (h : (system L).ReachableUnder (fun w l => w.mapsOwned l = false) w) :
    w.strong = w.handles + w.owned := by
  refine System.inv_of_reachableUnder (I := fun w : World σ μ => w.strong = w.handles + w.owned)
    rfl ?_ h
  intro w l v hw hl hs
  have hv := references_of_step (Nat.le_of_eq hw.symm) (steps_of_step hs)
  rw [hl, toNat_false] at hv
  omega

theorem leaked_of_mapsOwned (h : (system L).Reachable w)
    (hl : w.mapsOwned l) (hs : w.step L l = some v) : v.handles + v.owned < v.strong := by
  have hw := references_of_reachable h
  have hv := references_of_step hw (steps_of_step hs)
  rw [hl, toNat_true] at hv
  omega

theorem leaked_of_run {u : World σ μ} {ls : List (Label μ)} (h : w.handles + w.owned < w.strong)
    (hr : (system L).run w ls = some u) : u.handles + u.owned < u.strong := by
  refine System.inv_of_any_run
    (I := fun w : World σ μ => w.handles + w.owned < w.strong) ?_ h hr
  intro w l v hw hs
  have hv := references_of_step (Nat.le_of_lt hw) (steps_of_step hs)
  omega

end World

end RustyTokio.Guards

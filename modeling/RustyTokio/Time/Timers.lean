import RustyTokio.Transition.Futures
import RustyTokio.Transition.System
import Mathlib.Data.List.Sort

/-!
# The timer driver and its clock

`TimerDriver` keeps a heap of `(deadline, id)` and a map from ids to wakers, both under one lock,
and a `Clock` that shows real time or, while it is paused, an instant of its own, under another.
-/

namespace RustyTokio.Time

open Transition List Option Table

/-- Heap entries in the order in which they are popped. -/
def Before (e f : ℕ × ℕ) : Prop := e.1 < f.1 ∨ e.1 = f.1 ∧ e.2 ≤ f.2

instance : DecidableRel Before := fun _ _ => inferInstanceAs (Decidable (_ ∨ _))

instance : IsTrans (ℕ × ℕ) Before := ⟨fun e f g h h' => by simp only [Before] at *; omega⟩

instance : Std.Total Before := ⟨fun e f => by simp only [Before]; omega⟩

theorem Before.deadline_le {e f : ℕ × ℕ} (h : Before e f) : e.1 ≤ f.1 := by
  rcases h with h | h <;> omega

/-- What the driver was told under one id. -/
structure Timer where
  deadline : ℕ
  waker : Option ℕ
  /-- The id was cancelled while its entry was in the heap. -/
  withdrawn : Bool
  deriving DecidableEq

inductive Use where
  | idle
  | polling (waker : ℕ)
  | dropped
  deriving DecidableEq

structure Sleep where
  deadline : ℕ
  id : Option ℕ
  use : Use
  deriving DecidableEq

inductive Stage where
  | start (duration : ℕ)
  | peek (target : ℕ)
  | set (target deadline : ℕ)
  | fire (target deadline : ℕ)
  | yielding (target : ℕ)
  | finish (target : ℕ)
  | returned
  | gone
  deriving DecidableEq

structure Advance where
  stage : Stage
  /-- How many timers had been registered when the call last looked at the heap. -/
  checked : ℕ
  deriving DecidableEq

structure Wake where
  id : ℕ
  deadline : ℕ
  waker : ℕ
  clock : ℕ
  deriving DecidableEq

structure World where
  real : ℕ
  paused : Option ℕ
  heap : List (ℕ × ℕ)
  timers : List Timer
  sleeps : List Sleep
  advances : List Advance
  /-- The timer thread has the lock and has read this instant. -/
  holding : Option ℕ
  wakes : List Wake
  /-- What the clock has shown since it was paused. -/
  shown : List ℕ
  deriving DecidableEq

inductive Label where
  | tick (duration : ℕ)
  | pause
  | resume
  | sleep (deadline : ℕ)
  | poll (i waker : ℕ)
  | enroll (i : ℕ)
  | reset (i deadline : ℕ)
  | drop (i : ℕ)
  | look
  | fire
  | advance (duration : ℕ)
  | go (k : ℕ)
  | dropAdvance (k : ℕ)
  deriving DecidableEq

namespace Timer

def remove (t : Timer) : Timer := { t with waker := none }

def insert (waker : ℕ) (t : Timer) : Timer := { t with waker := some waker }

/-- `cancel`, for a timer whose entry is in the heap or not. -/
def cancel (queued : Bool) (t : Timer) : Timer :=
  { t with waker := none, withdrawn := t.withdrawn || queued }

end Timer

namespace World

def now (w : World) : ℕ := w.paused.getD w.real

def Queued (w : World) (id : ℕ) : Prop := id ∈ w.heap.map Prod.snd

instance (w : World) (id : ℕ) : Decidable (w.Queued id) := inferInstanceAs (Decidable (_ ∈ _))

/-! ## The driver, under its lock -/

def wakeOf (w : World) (deadline id : ℕ) : List Wake :=
  ((w.timers[id]?.bind Timer.waker).map fun waker => ⟨id, deadline, waker, w.now⟩).toList

def pop (w : World) (deadline id : ℕ) (rest : List (ℕ × ℕ)) : World :=
  { w with
    heap := rest
    timers := w.timers.modify id Timer.remove
    wakes := w.wakes ++ w.wakeOf deadline id }

def fires (now : ℕ) : World → List (ℕ × ℕ) → World
  | w, [] => w
  | w, (deadline, id) :: rest =>
    if now < deadline then w else fires now (w.pop deadline id rest) rest

def fireDue (w : World) (now : ℕ) : World := fires now w w.heap

def register (w : World) (deadline waker : ℕ) : World :=
  { w with
    heap := w.heap.orderedInsert Before (deadline, w.timers.length)
    timers := w.timers ++ [⟨deadline, some waker, false⟩] }

def updateWaker (w : World) (id waker : ℕ) : World :=
  { w with timers := w.timers.modify id (Timer.insert waker) }

def cancelled (w : World) : Option ℕ → List Timer
  | none => w.timers
  | some id => w.timers.modify id (Timer.cancel (decide (w.Queued id)))

def cancelId (w : World) (id : Option ℕ) : World := { w with timers := w.cancelled id }

@[simp] theorem length_cancelId (w : World) (id : Option ℕ) :
    (w.cancelId id).timers.length = w.timers.length := by
  cases id <;> simp [cancelId, cancelled]

/-! ## The clock -/

def set (w : World) (instant : ℕ) : World :=
  { w with paused := some instant, shown := w.shown ++ [instant] }

/-! ## `Sleep` -/

def setSleep (w : World) (i : ℕ) (s : Sleep) : World := { w with sleeps := w.sleeps.set i s }

/-- `Sleep::poll` with the lock: `register` or `update_waker`. -/
def enroll (w : World) (i : ℕ) (s : Sleep) (waker : ℕ) : World :=
  match s.id with
  | none =>
    (w.register s.deadline waker).setSleep i
      { s with id := some w.timers.length, use := .idle }
  | some id => (w.updateWaker id waker).setSleep i { s with use := .idle }

/-- The id can be cancelled: there is none, or the lock is free. -/
def canCancel (w : World) (id : Option ℕ) : Bool := id.isNone || w.holding.isNone

/-! ## `advance` -/

def setAdvance (w : World) (k : ℕ) (a : Advance) : World :=
  { w with advances := w.advances.set k a }

def go (w : World) (k : ℕ) (a : Advance) : Option World :=
  match a.stage with
  | .start duration => some (w.setAdvance k { a with stage := .peek (w.now + duration) })
  | .peek target =>
    if w.holding = none then
      match w.heap with
      | [] => some (w.setAdvance k ⟨.finish target, w.timers.length⟩)
      | (deadline, _) :: _ =>
        if deadline ≤ target then
          some (w.setAdvance k ⟨.set target deadline, w.timers.length⟩)
        else some (w.setAdvance k ⟨.finish target, w.timers.length⟩)
    else none
  | .set target deadline =>
    match w.paused with
    | none => some (w.setAdvance k { a with stage := .gone })
    | some _ => some ((w.set deadline).setAdvance k { a with stage := .fire target deadline })
  | .fire target deadline =>
    if w.holding = none then
      some ((w.fireDue deadline).setAdvance k { a with stage := .yielding target })
    else none
  | .yielding target => some (w.setAdvance k { a with stage := .peek target })
  | .finish target =>
    match w.paused with
    | none => some (w.setAdvance k { a with stage := .gone })
    | some _ => some ((w.set target).setAdvance k { a with stage := .returned })
  | .returned => none
  | .gone => none

/-! ## Everything -/

def step (w : World) : Label → Option World
  | .tick duration => some { w with real := w.real + duration }
  | .pause =>
    if w.paused = none then some { w with paused := some w.real, shown := [w.real] } else none
  | .resume => w.paused.map fun _ => { w with paused := none, shown := [] }
  | .sleep deadline => some { w with sleeps := w.sleeps ++ [⟨deadline, none, .idle⟩] }
  | .poll i waker =>
    w.sleeps[i]?.bind fun s =>
      if s.use = .idle then
        -- `Ready` leaves the `Sleep` and the driver as they are
        some (if s.deadline ≤ w.now then w else w.setSleep i { s with use := .polling waker })
      else none
  | .enroll i =>
    w.sleeps[i]?.bind fun s =>
      match s.use with
      | .polling waker => if w.holding = none then some (w.enroll i s waker) else none
      | _ => none
  | .reset i deadline =>
    w.sleeps[i]?.bind fun s =>
      if s.use = .idle ∧ w.canCancel s.id then
        some ((w.cancelId s.id).setSleep i { s with deadline := deadline, id := none })
      else none
  | .drop i =>
    w.sleeps[i]?.bind fun s =>
      if s.use = .idle ∧ w.canCancel s.id then
        some ((w.cancelId s.id).setSleep i { s with id := none, use := .dropped })
      else none
  | .look => if w.holding = none then some { w with holding := some w.now } else none
  | .fire => w.holding.map fun now => { w.fireDue now with holding := none }
  | .advance duration =>
    if w.paused = none then none
    else some { w with advances := w.advances ++ [⟨.start duration, 0⟩] }
  | .go k => w.advances[k]?.bind (w.go k)
  | .dropAdvance k =>
    match w.advances[k]? with
    | some ⟨.yielding _, checked⟩ => some (w.setAdvance k ⟨.gone, checked⟩)
    | _ => none

end World

def driver : System World Label where
  init := ⟨0, none, [], [], [], [], none, [], []⟩
  step := World.step

namespace World

/-! ## What a step does -/

inductive Steps (w : World) : Label → World → Prop where
  | tick (duration : ℕ) : Steps w (.tick duration) { w with real := w.real + duration }
  | pause (hp : w.paused = none) :
      Steps w .pause { w with paused := some w.real, shown := [w.real] }
  | resume {c} (hp : w.paused = some c) : Steps w .resume { w with paused := none, shown := [] }
  | sleep (deadline : ℕ) :
      Steps w (.sleep deadline) { w with sleeps := w.sleeps ++ [⟨deadline, none, .idle⟩] }
  | ready {i waker s} (hi : w.sleeps[i]? = some s) (hs : s.use = .idle)
      (hd : s.deadline ≤ w.now) : Steps w (.poll i waker) w
  | polled {i waker s} (hi : w.sleeps[i]? = some s) (hs : s.use = .idle)
      (hd : w.now < s.deadline) :
      Steps w (.poll i waker) (w.setSleep i { s with use := .polling waker })
  | register {i waker s} (hi : w.sleeps[i]? = some s) (hw : s.use = .polling waker)
      (hid : s.id = none) (hh : w.holding = none) :
      Steps w (.enroll i) ((w.register s.deadline waker).setSleep i
        { s with id := some w.timers.length, use := .idle })
  | update {i waker id s} (hi : w.sleeps[i]? = some s) (hw : s.use = .polling waker)
      (hid : s.id = some id) (hh : w.holding = none) :
      Steps w (.enroll i) ((w.updateWaker id waker).setSleep i { s with use := .idle })
  | reset {i deadline s} (hi : w.sleeps[i]? = some s) (hs : s.use = .idle) :
      Steps w (.reset i deadline)
        ((w.cancelId s.id).setSleep i { s with deadline := deadline, id := none })
  | drop {i s} (hi : w.sleeps[i]? = some s) (hs : s.use = .idle) :
      Steps w (.drop i) ((w.cancelId s.id).setSleep i { s with id := none, use := .dropped })
  | look (hh : w.holding = none) : Steps w .look { w with holding := some w.now }
  | fire {now} (hh : w.holding = some now) :
      Steps w .fire { w.fireDue now with holding := none }
  | advance {duration} (hp : w.paused ≠ none) :
      Steps w (.advance duration) { w with advances := w.advances ++ [⟨.start duration, 0⟩] }
  | start {k duration checked} (hk : w.advances[k]? = some ⟨.start duration, checked⟩) :
      Steps w (.go k) (w.setAdvance k ⟨.peek (w.now + duration), checked⟩)
  | found {k target checked deadline id rest}
      (hk : w.advances[k]? = some ⟨.peek target, checked⟩) (hh : w.holding = none)
      (hheap : w.heap = (deadline, id) :: rest) (hd : deadline ≤ target) :
      Steps w (.go k) (w.setAdvance k ⟨.set target deadline, w.timers.length⟩)
  | checked {k target checked}
      (hk : w.advances[k]? = some ⟨.peek target, checked⟩) (hh : w.holding = none)
      (hd : ∀ e, w.heap.head? = some e → target < e.1) :
      Steps w (.go k) (w.setAdvance k ⟨.finish target, w.timers.length⟩)
  | set {k target deadline checked c}
      (hk : w.advances[k]? = some ⟨.set target deadline, checked⟩) (hp : w.paused = some c) :
      Steps w (.go k) ((w.set deadline).setAdvance k ⟨.fire target deadline, checked⟩)
  | fired {k target deadline checked}
      (hk : w.advances[k]? = some ⟨.fire target deadline, checked⟩) (hh : w.holding = none) :
      Steps w (.go k) ((w.fireDue deadline).setAdvance k ⟨.yielding target, checked⟩)
  | yielded {k target checked} (hk : w.advances[k]? = some ⟨.yielding target, checked⟩) :
      Steps w (.go k) (w.setAdvance k ⟨.peek target, checked⟩)
  | finish {k target checked c} (hk : w.advances[k]? = some ⟨.finish target, checked⟩)
      (hp : w.paused = some c) :
      Steps w (.go k) ((w.set target).setAdvance k ⟨.returned, checked⟩)
  | unpaused {k a} (hk : w.advances[k]? = some a) (hp : w.paused = none) :
      Steps w (.go k) (w.setAdvance k ⟨.gone, a.checked⟩)
  | dropAdvance {k target checked}
      (hk : w.advances[k]? = some ⟨.yielding target, checked⟩) :
      Steps w (.dropAdvance k) (w.setAdvance k ⟨.gone, checked⟩)

variable {v : World} {l : Label} {I : World → Prop} {now : ℕ}

theorem steps_go {w : World} {k : ℕ} {a : Advance} (hk : w.advances[k]? = some a)
    (hs : w.go k a = some v) : w.Steps (.go k) v := by
  obtain ⟨stage, checked⟩ := a
  cases stage with
  | start duration =>
    cases hs
    exact .start hk
  | peek target =>
    obtain ⟨hh, hs⟩ := ite_none_right_eq_some.mp hs
    cases hheap : w.heap with
    | nil =>
      rw [hheap] at hs
      cases hs
      exact .checked hk hh (by simp [hheap])
    | cons e rest =>
      simp only [hheap] at hs
      split at hs <;> rename_i hd
      · cases hs
        exact .found hk hh hheap hd
      · cases hs
        refine .checked hk hh fun f hf => ?_
        rw [hheap, head?_cons, some_inj] at hf
        exact hf ▸ lt_of_not_ge hd
  | set target deadline =>
    cases hp : w.paused with
    | none =>
      simp only [World.go, hp] at hs
      exact some.inj hs ▸ .unpaused hk hp
    | some c =>
      simp only [World.go, hp] at hs
      exact some.inj hs ▸ .set hk hp
  | fire target deadline =>
    obtain ⟨hh, rfl⟩ := of_guard hs
    exact .fired hk hh
  | yielding target => exact some.inj hs ▸ .yielded hk
  | finish target =>
    cases hp : w.paused with
    | none =>
      simp only [World.go, hp] at hs
      exact some.inj hs ▸ .unpaused hk hp
    | some c =>
      simp only [World.go, hp] at hs
      exact some.inj hs ▸ .finish hk hp
  | returned | gone => simp [World.go] at hs

theorem steps_of_step {w : World} (hs : w.step l = some v) : w.Steps l v := by
  cases l with
  | tick duration => exact some.inj hs ▸ .tick duration
  | pause =>
    obtain ⟨hp, rfl⟩ := of_guard hs
    exact .pause hp
  | resume =>
    obtain ⟨c, hp, rfl⟩ := map_eq_some_iff.mp hs
    exact .resume hp
  | sleep deadline => exact some.inj hs ▸ .sleep deadline
  | poll i waker =>
    obtain ⟨s, hi, hidle, rfl⟩ := bind_guard_eq_some.mp hs
    split <;> rename_i hd
    · exact .ready hi hidle hd
    · exact .polled hi hidle (lt_of_not_ge hd)
  | enroll i =>
    obtain ⟨s, hi, hs⟩ := bind_eq_some_iff.mp hs
    cases hw : s.use with
    | idle | dropped => simp [hw] at hs
    | polling waker =>
      rw [hw] at hs
      obtain ⟨hh, rfl⟩ := of_guard hs
      cases hid : s.id with
      | none =>
        rw [World.enroll, hid]
        exact .register hi hw hid hh
      | some id => simpa only [World.enroll, hid] using Steps.update hi hw hid hh
  | reset i deadline =>
    obtain ⟨s, hi, hc, rfl⟩ := bind_guard_eq_some.mp hs
    exact .reset hi hc.1
  | drop i =>
    obtain ⟨s, hi, hc, rfl⟩ := bind_guard_eq_some.mp hs
    exact .drop hi hc.1
  | look =>
    obtain ⟨hh, rfl⟩ := of_guard hs
    exact .look hh
  | fire =>
    obtain ⟨now, hh, rfl⟩ := map_eq_some_iff.mp hs
    exact .fire hh
  | advance duration =>
    obtain ⟨hp, rfl⟩ := of_guard_not hs
    exact .advance hp
  | go k =>
    obtain ⟨a, hk, hs⟩ := bind_eq_some_iff.mp hs
    exact steps_go hk hs
  | dropAdvance k =>
    simp only [step] at hs
    split at hs
    next target checked hk => exact some.inj hs ▸ .dropAdvance hk
    · cases hs

/-! ## The loop of `fire_due` -/

theorem fires_induct
    (hpop : ∀ {w deadline id rest}, w.heap = (deadline, id) :: rest → deadline ≤ now → I w →
      I (w.pop deadline id rest)) :
    ∀ {heap : List (ℕ × ℕ)} {w : World}, w.heap = heap → I w → I (fires now w heap)
  | [], _, _, h => h
  | (deadline, id) :: rest, w, hheap, h => by
    rw [fires]
    split
    · exact h
    next hd => exact fires_induct hpop rfl (hpop hheap (le_of_not_gt hd) h)

theorem fireDue_induct
    (hpop : ∀ {w deadline id rest}, w.heap = (deadline, id) :: rest → deadline ≤ now → I w →
      I (w.pop deadline id rest)) {w : World} (h : I w) : I (w.fireDue now) :=
  fires_induct hpop rfl h

section

variable (w : World) (now : ℕ)

theorem fireDue_frame :
    (w.fireDue now).real = w.real ∧ (w.fireDue now).paused = w.paused ∧
      (w.fireDue now).sleeps = w.sleeps ∧ (w.fireDue now).advances = w.advances ∧
      (w.fireDue now).holding = w.holding ∧ (w.fireDue now).shown = w.shown ∧
      (w.fireDue now).timers.length = w.timers.length :=
  fireDue_induct (I := fun v => v.real = w.real ∧ v.paused = w.paused ∧ v.sleeps = w.sleeps ∧
    v.advances = w.advances ∧ v.holding = w.holding ∧ v.shown = w.shown ∧
    v.timers.length = w.timers.length)
    (fun _ _ h => by simpa only [pop, length_modify] using h)
    ⟨rfl, rfl, rfl, rfl, rfl, rfl, rfl⟩

@[simp] theorem fireDue_real : (w.fireDue now).real = w.real :=
  (fireDue_frame w now).1

@[simp] theorem fireDue_paused : (w.fireDue now).paused = w.paused :=
  (fireDue_frame w now).2.1

@[simp] theorem fireDue_sleeps : (w.fireDue now).sleeps = w.sleeps :=
  (fireDue_frame w now).2.2.1

@[simp] theorem fireDue_advances : (w.fireDue now).advances = w.advances :=
  (fireDue_frame w now).2.2.2.1

@[simp] theorem fireDue_holding : (w.fireDue now).holding = w.holding :=
  (fireDue_frame w now).2.2.2.2.1

@[simp] theorem fireDue_shown : (w.fireDue now).shown = w.shown :=
  (fireDue_frame w now).2.2.2.2.2.1

@[simp] theorem fireDue_length : (w.fireDue now).timers.length = w.timers.length :=
  (fireDue_frame w now).2.2.2.2.2.2

@[simp] theorem fireDue_now : (w.fireDue now).now = w.now := by
  simp only [World.now, fireDue_paused, fireDue_real]

end

theorem fires_heap_suffix (now : ℕ) : ∀ (heap : List (ℕ × ℕ)) (w : World), w.heap = heap →
    (fires now w heap).heap <:+ heap
  | [], _, h => ⟨[], h⟩
  | (deadline, id) :: rest, w, h => by
    rw [fires]
    split
    · exact ⟨[], h⟩
    · exact (fires_heap_suffix now rest _ rfl).trans (suffix_cons _ _)

theorem fireDue_heap_suffix (w : World) (now : ℕ) : (w.fireDue now).heap <:+ w.heap :=
  fires_heap_suffix now _ w rfl

theorem fires_head (now : ℕ) : ∀ (heap : List (ℕ × ℕ)) (w : World), w.heap = heap →
    ∀ e, (fires now w heap).heap.head? = some e → now < e.1
  | [], _, h, _, he => by simp [fires, h] at he
  | (deadline, id) :: rest, w, h, e, he => by
    rw [fires] at he
    split at he
    next hd =>
      rw [h, head?_cons, some_inj] at he
      exact he ▸ hd
    · exact fires_head now rest _ rfl e he

/-! ## The heap and the ids -/

/-- The heap is sorted, and its entries are timers, each once. -/
structure Sound (w : World) : Prop where
  sorted : w.heap.Pairwise Before
  nodup : (w.heap.map Prod.snd).Nodup
  entries : ∀ e ∈ w.heap, ∃ t, w.timers[e.2]? = some t ∧ t.deadline = e.1
  sleeping : ∀ (i : ℕ) (s : Sleep), w.sleeps[i]? = some s → ∀ id, s.id = some id →
    id < w.timers.length

namespace Sound

variable {w : World} {id : ℕ}

theorem modify (h : w.Sound) (id : ℕ) {f : Timer → Timer} (hf : ∀ t, (f t).deadline = t.deadline) :
    Sound { w with timers := w.timers.modify id f } where
  sorted := h.sorted
  nodup := h.nodup
  entries e he := by
    obtain ⟨t, ht, hd⟩ := h.entries e he
    obtain rfl | hij := eq_or_ne id e.2
    · exact ⟨f t, modify_self ht f, (hf t).trans hd⟩
    · exact ⟨t, (modify_of_ne hij f).trans ht, hd⟩
  sleeping i s hi id' hid := by
    rw [length_modify]
    exact h.sleeping i s hi id' hid

theorem updateWaker (h : w.Sound) (id waker : ℕ) : (w.updateWaker id waker).Sound :=
  h.modify id fun _ => rfl

theorem cancelId (h : w.Sound) (id : Option ℕ) : (w.cancelId id).Sound := by
  cases id with
  | none => exact h
  | some id => exact h.modify id fun _ => rfl

theorem pop {deadline : ℕ} {rest : List (ℕ × ℕ)} (h : w.Sound)
    (hheap : w.heap = (deadline, id) :: rest) : (w.pop deadline id rest).Sound where
  sorted := (pairwise_cons.mp (hheap ▸ h.sorted)).2
  nodup := (nodup_cons.mp (map_cons ▸ hheap ▸ h.nodup)).2
  entries e he := (h.modify id (f := Timer.remove) fun _ => rfl).entries e
    (hheap ▸ mem_cons_of_mem _ he)
  sleeping := (h.modify id (f := Timer.remove) fun _ => rfl).sleeping

theorem fireDue (h : w.Sound) (now : ℕ) : (w.fireDue now).Sound :=
  fireDue_induct (fun hheap _ hw => pop hw hheap) h

theorem queued_lt (h : w.Sound) (hid : w.Queued id) : id < w.timers.length := by
  obtain ⟨e, he, rfl⟩ := mem_map.mp hid
  obtain ⟨t, ht, -⟩ := h.entries e he
  exact (lt_of_some ht)

theorem register (h : w.Sound) (deadline waker : ℕ) : (w.register deadline waker).Sound where
  sorted := h.sorted.orderedInsert _ _
  nodup := by
    have hp := (perm_orderedInsert Before (deadline, w.timers.length) w.heap).map Prod.snd
    refine hp.nodup_iff.mpr (nodup_cons.mpr ⟨fun hmem => ?_, h.nodup⟩)
    exact absurd (h.queued_lt hmem) (lt_irrefl _)
  entries e he := by
    rcases (mem_orderedInsert _).mp he with rfl | he
    · exact ⟨_, getElem?_concat_length, rfl⟩
    · obtain ⟨t, ht, hd⟩ := h.entries e he
      exact ⟨t, append_of_some ht _, hd⟩
  sleeping i s hi id hid := by
    have := h.sleeping i s hi id hid
    simp only [World.register, length_append, length_singleton]
    omega

theorem setSleep (h : w.Sound) (i : ℕ) {s : Sleep}
    (hs : ∀ id, s.id = some id → id < w.timers.length) : (w.setSleep i s).Sound :=
  ⟨h.sorted, h.nodup, h.entries, forall_set hs h.sleeping⟩

theorem setAdvance (h : w.Sound) (k : ℕ) (a : Advance) : (w.setAdvance k a).Sound :=
  ⟨h.sorted, h.nodup, h.entries, h.sleeping⟩

end Sound

theorem sound_of_steps {w : World} (h : w.Sound) (hs : w.Steps l v) : v.Sound := by
  have same : ∀ {u : World}, u.heap = w.heap → u.timers = w.timers → u.sleeps = w.sleeps →
      u.Sound := by
    intro u h1 h2 h3
    exact ⟨h1 ▸ h.sorted, h1 ▸ h.nodup, h1 ▸ h2 ▸ h.entries, h2 ▸ h3 ▸ h.sleeping⟩
  cases hs with
  | sleep deadline =>
    refine ⟨h.sorted, h.nodup, h.entries, fun i s hi id hid => ?_⟩
    rcases of_snoc hi with hi | ⟨-, rfl⟩
    · exact h.sleeping i s hi id hid
    · cases hid
  | polled hi _ _ => exact h.setSleep _ fun id hid => h.sleeping _ _ hi id hid
  | register hi hw hid hh =>
    refine (h.register _ _).setSleep _ fun id hid => ?_
    cases hid
    simp [World.register]
  | update hi hw hid hh =>
    refine (h.updateWaker _ _).setSleep _ fun id' hid' => ?_
    rw [World.updateWaker, length_modify]
    exact h.sleeping _ _ hi _ hid'
  | reset hi _ | drop hi _ => exact (h.cancelId _).setSleep _ fun _ hid => absurd hid (by simp)
  | @fire now hh =>
    have hf := h.fireDue now
    exact ⟨hf.sorted, hf.nodup, hf.entries, hf.sleeping⟩
  | fired hk hh => exact (h.fireDue _).setAdvance _ _
  | _ => exact same rfl rfl rfl

theorem sound_of_reachable {w : World} (h : driver.Reachable w) : w.Sound :=
  System.inv_of_reachable (I := Sound)
    (by constructor <;> simp [driver])
    (fun _ _ _ hI hs => sound_of_steps hI (steps_of_step hs)) h

theorem Sound.lt_of_head {w : World} (h : w.Sound) {instant : ℕ}
    (hhead : ∀ e, w.heap.head? = some e → instant < e.1) : ∀ e ∈ w.heap, instant < e.1 := by
  intro e he
  have hsorted := h.sorted
  cases hheap : w.heap with
  | nil => simp [hheap] at he
  | cons f rest =>
    rw [hheap] at he hsorted hhead
    have hf := hhead f rfl
    rcases mem_cons.mp he with rfl | he
    · exact hf
    · exact hf.trans_le ((pairwise_cons.mp hsorted).1 e he).deadline_le

theorem Sound.lt_of_mem_fireDue {w : World} (h : w.Sound) {e : ℕ × ℕ}
    (he : e ∈ (w.fireDue now).heap) : now < e.1 :=
  (h.fireDue now).lt_of_head (fires_head now w.heap w rfl) e he

end World

end RustyTokio.Time

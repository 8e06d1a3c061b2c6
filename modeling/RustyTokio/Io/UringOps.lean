import RustyTokio.Transition.Futures
import RustyTokio.Transition.System
import Mathlib.Data.Finset.Basic
import Mathlib.Data.List.Nodup
import Mathlib.Data.List.Perm.Basic

/-!
# The operations of `IoUringDriver`

`src/io/uring_fs.rs`.  `submit` puts an `OpState`, with the buffer that the entry points into, into
the slab and the entry into `pending`, and writes to an eventfd.  One thread moves the entries from
`pending` to the ring, waits for completions, records each result in its `OpState` and wakes the
future of the operation.  A label is one access to what the callers, that thread and the kernel
share.

## Main results

* `World.kept_of_reachable`: where each operation is, and what its `OpState` says there.
* `World.flying_of_reachable`: an entry in flight is there once, and its `OpState` is in the slab.
* `World.roused_of_reachable`: whatever is in `pending` while the thread waits, the eventfd tells.
* `World.protocol`: buffers live until the kernel is done, and no future sleeps over its result.
-/

namespace RustyTokio.UringDriver

open Transition List Option Table

/-! ## The parties -/

/-- The buffer of an operation: in its `OpState`, handed back to the caller, or freed. -/
inductive Payload where
  | held
  | handed
  | freed
  deriving DecidableEq

/-- Where the caller of `submit` is, and then the future that it got. -/
inductive Caller where
  | inserted
  /-- The entry is in `pending`, and the eventfd still to be written. -/
  | pushed
  | idle
  /-- A poll has seen no result and is about to store its waker. -/
  | storing (waker : ℕ)
  | rechecking (waker : ℕ)
  /-- The last poll returned `Pending`; and whether its waker was woken since. -/
  | parked (waker : ℕ) (woken : Bool)
  | done
  | gone
  deriving DecidableEq

/-- The future has neither returned nor been dropped. -/
def Caller.isLive : Caller → Bool
  | .done => false
  | .gone => false
  | _ => true

/-- Nothing of the future is running: it can be polled or dropped. -/
def Caller.isIdle : Caller → Bool
  | .idle => true
  | .parked _ _ => true
  | _ => false

/-- What a call of `Waker::wake` does to the future. -/
def Caller.wake (k : ℕ) : Caller → Caller
  | .parked waker woken => .parked waker (woken || waker == k)
  | c => c

/-- An `OpState` and its future.  `handed` counts how often the buffer was handed back. -/
structure Op where
  result : Option ℤ
  waker : Option ℕ
  buf : Payload
  caller : Caller
  handed : ℕ
  deriving DecidableEq

namespace Op

/-- `OpState` as `submit` makes it. -/
def new : Op := ⟨none, none, .held, .inserted, 0⟩

def wake (k : ℕ) (o : Op) : Op := { o with caller := o.caller.wake k }

/-- The last reference is dropped, and the buffer with it. -/
def free (o : Op) : Op := if o.buf = .held then { o with buf := .freed } else o

/-- The thread drops its reference. -/
def letGo (o : Op) : Op := if o.caller = .gone then o.free else o

@[simp] theorem caller_free (o : Op) : o.free.caller = o.caller := by
  rw [free]
  split <;> rfl

@[simp] theorem result_free (o : Op) : o.free.result = o.result := by
  rw [free]
  split <;> rfl

@[simp] theorem caller_letGo (o : Op) : o.letGo.caller = o.caller := by
  rw [letGo]
  split <;> simp

@[simp] theorem result_letGo (o : Op) : o.letGo.result = o.result := by
  rw [letGo]
  split <;> simp

end Op

/-- What the user data of an entry says: the poll of the eventfd, or an operation. -/
inductive Entry where
  | wake
  | op (i : ℕ)
  deriving DecidableEq

/-- Where the thread is in `event_loop`, with the completions of this round still to be handled. -/
inductive Driver where
  | starting
  | top
  | pushing (entries : List ℕ)
  | waiting
  | handling (completions : List (Entry × ℤ))
  | drained (completions : List (Entry × ℤ))
  | removed (i : ℕ) (result : ℤ) (completions : List (Entry × ℤ))
  | recorded (i : ℕ) (completions : List (Entry × ℤ))
  | waking (i waker : ℕ) (completions : List (Entry × ℤ))
  | dropping (i : ℕ) (completions : List (Entry × ℤ))
  | stopped
  deriving DecidableEq

namespace Driver

/-- The entries in the hands of the thread. -/
def entries : Driver → List Entry
  | .pushing es => es.map .op
  | .handling cs => cs.map Prod.fst
  | .drained cs => cs.map Prod.fst
  | .removed _ _ cs => cs.map Prod.fst
  | .recorded _ cs => cs.map Prod.fst
  | .waking _ _ cs => cs.map Prod.fst
  | .dropping _ cs => cs.map Prod.fst
  | _ => []

/-- The operation that the thread has removed from the slab and still refers to. -/
def holds : Driver → Option ℕ
  | .removed i _ _ => some i
  | .recorded i _ => some i
  | .waking i _ _ => some i
  | .dropping i _ => some i
  | _ => none

/-- The thread has emptied `pending`, and may be in `submit_and_wait`. -/
def hasTaken : Driver → Bool
  | .pushing _ => true
  | .waiting => true
  | _ => false

/-- The poll of the eventfd is not submitted. -/
def isUnarmed : Driver → Bool
  | .starting => true
  | .drained _ => true
  | _ => false

end Driver

/-- The slab, the queues from `pending` to the completion queue, and the parties. -/
structure World where
  ops : List Op
  slab : Finset ℕ
  pending : List ℕ
  eventfd : ℕ
  sq : List Entry
  kernel : List Entry
  cq : List (Entry × ℤ)
  driver : Driver
  /-- The `expect` in `take_result` has failed. -/
  panicked : Bool

/-- The moves: first of the callers, then of the thread (from `drive`) and of the kernel (from
`accept`). -/
inductive Label where
  | insert
  | push (i : ℕ)
  | write (i : ℕ)
  | poll (i waker : ℕ)
  | store (i : ℕ)
  | recheck (i : ℕ)
  | drop (i : ℕ)
  | drive
  | collect
  | interrupt
  | stop
  | accept
  | complete (e : Entry) (result : ℤ)
  deriving DecidableEq

namespace World

/-- `OpFuture::take_result`; it panics if the buffer is no longer there. -/
def takeResult (w : World) (i : ℕ) (o : Op) : World :=
  if o.buf = .held then
    { w with ops := w.ops.set i { o with buf := .handed, caller := .done, handed := o.handed + 1 } }
  else { w with panicked := true }

def setCaller (w : World) (i : ℕ) (o : Op) (c : Caller) : World :=
  { w with ops := w.ops.set i { o with caller := c } }

/-- The future is dropped, and the buffer with it if no one else refers to the `OpState`. -/
def dropFuture (w : World) (i : ℕ) (o : Op) : World :=
  let o := { o with caller := .gone }
  { w with ops := w.ops.set i (if i ∈ w.slab ∨ w.driver.holds = some i then o else o.free) }

/-- The next access of the thread. -/
def drive (w : World) : Option World :=
  match w.driver with
  | .starting => some { w with driver := .top, sq := w.sq ++ [.wake] }
  | .top => some { w with driver := .pushing w.pending, pending := [] }
  | .pushing [] => some { w with driver := .waiting }
  | .pushing (i :: es) => some { w with driver := .pushing es, sq := w.sq ++ [.op i] }
  | .handling [] => some { w with driver := .top }
  | .handling ((.wake, _) :: cs) => some { w with driver := .drained cs, eventfd := 0 }
  | .handling ((.op i, r) :: cs) =>
    if i ∈ w.slab then some { w with driver := .removed i r cs, slab := w.slab.erase i }
    else some { w with driver := .handling cs }
  | .drained cs => some { w with driver := .handling cs, sq := w.sq ++ [.wake] }
  | .removed i r cs =>
    some
      { w with
        driver := .recorded i cs
        ops := w.ops.modify i fun o => { o with result := some r } }
  | .recorded i cs =>
    match w.ops[i]?.bind Op.waker with
    | some k =>
      some
        { w with
          driver := .waking i k cs
          ops := w.ops.modify i fun o => { o with waker := none } }
    | none => some { w with driver := .dropping i cs }
  | .waking i k cs => some { w with driver := .dropping i cs, ops := w.ops.map (Op.wake k) }
  | .dropping i cs => some { w with driver := .handling cs, ops := w.ops.modify i Op.letGo }
  | .waiting => none
  | .stopped => none

def step (w : World) : Label → Option World
  | .insert =>
    some { w with ops := w.ops ++ [.new], slab := Insert.insert w.ops.length w.slab }
  | .push i =>
    w.ops[i]?.bind fun o =>
      if o.caller = .inserted then
        some { w.setCaller i o .pushed with pending := w.pending ++ [i] }
      else none
  | .write i =>
    w.ops[i]?.bind fun o =>
      if o.caller = .pushed then some { w.setCaller i o .idle with eventfd := w.eventfd + 1 }
      else none
  | .poll i k =>
    w.ops[i]?.bind fun o =>
      if o.caller.isIdle then
        some (if o.result.isSome then w.takeResult i o else w.setCaller i o (.storing k))
      else none
  | .store i =>
    w.ops[i]?.bind fun o =>
      match o.caller with
      | .storing k => some (w.setCaller i { o with waker := some k } (.rechecking k))
      | _ => none
  | .recheck i =>
    w.ops[i]?.bind fun o =>
      match o.caller with
      | .rechecking k =>
        some (if o.result.isSome then w.takeResult i o else w.setCaller i o (.parked k false))
      | _ => none
  | .drop i =>
    w.ops[i]?.bind fun o => if o.caller.isIdle then some (w.dropFuture i o) else none
  | .drive => w.drive
  | .collect =>
    if w.driver = .waiting ∧ w.cq ≠ [] then some { w with driver := .handling w.cq, cq := [] }
    else none
  | .interrupt => if w.driver = .waiting then some { w with driver := .top } else none
  | .stop =>
    -- `shutdown` was seen, or `submit_and_wait` has failed
    if w.driver = .top ∨ w.driver = .waiting then some { w with driver := .stopped } else none
  | .accept =>
    match w.sq with
    | [] => none
    | e :: es =>
      if w.driver.hasTaken then some { w with sq := es, kernel := w.kernel ++ [e] } else none
  | .complete e r =>
    -- the poll of the eventfd completes when there is something to read
    if e ∈ w.kernel ∧ (e = .wake → 0 < w.eventfd) then
      some { w with kernel := w.kernel.erase e, cq := w.cq ++ [(e, r)] }
    else none

end World

/-- The driver, from the start of its thread. -/
def process : System World Label where
  init := ⟨[], ∅, [], 0, [], [], [], .starting, false⟩
  step := World.step

namespace World

/-- All entries that are not completely handled. -/
def flight (w : World) : List Entry :=
  w.pending.map .op ++ w.driver.entries ++ w.sq ++ w.kernel ++ w.cq.map Prod.fst

end World

/-! ## One operation -/

/-- How far the thread is with an operation. -/
inductive Place where
  | slab
  | removed
  | recorded
  | waking (waker : ℕ)
  | past
  deriving DecidableEq

/-- The thread has not looked for a waker yet. -/
def Place.keepsWaker : Place → Bool
  | .waking _ => false
  | .past => false
  | _ => true

def Driver.place (d : Driver) (i : ℕ) : Place :=
  match d with
  | .removed j _ _ => if j = i then .removed else .past
  | .recorded j _ => if j = i then .recorded else .past
  | .waking j k _ => if j = i then .waking k else .past
  | _ => .past

def World.place (w : World) (i : ℕ) : Place := if i ∈ w.slab then .slab else w.driver.place i

/-- What an `OpState` says when its operation is at place `p`. -/
structure Op.Fine (p : Place) (o : Op) : Prop where
  unrecorded : o.result = none ↔ p = .slab ∨ p = .removed
  kept : o.result = none → o.buf = .held
  live : o.caller.isLive = true → o.buf = .held
  handed : o.handed = if o.caller = .done then 1 else 0
  ended : o.caller = .done → o.result ≠ none
  stored : ∀ k, o.caller = .rechecking k → o.result = none → o.waker = some k
  asleep : ∀ k, o.caller = .parked k false →
    (o.waker = some k ∧ p.keepsWaker = true) ∨ p = .waking k

namespace Op.Fine

variable {o : Op} {p : Place} {c : Caller} {k : ℕ}

theorem new : Op.new.Fine .slab :=
  ⟨by simp [Op.new], fun _ => rfl, fun _ => rfl, rfl, by simp [Op.new], by simp [Op.new],
    by simp [Op.new]⟩

theorem handed_of_isLive (h : o.Fine p) (hl : o.caller.isLive) : o.handed = 0 := by
  rw [h.handed, if_neg]
  intro hd
  rw [hd] at hl
  exact Bool.false_ne_true hl

theorem move (h : o.Fine p) (hl : o.caller.isLive)
    (hc : c = .pushed ∨ c = .idle ∨ ∃ k, c = .storing k) : Fine p { o with caller := c } := by
  refine ⟨h.unrecorded, h.kept, fun _ => h.live hl, ?_, ?_, ?_, ?_⟩
  · rw [h.handed_of_isLive hl]
    rcases hc with rfl | rfl | ⟨k, rfl⟩ <;> simp
  · rcases hc with rfl | rfl | ⟨k, rfl⟩ <;> simp
  · rcases hc with rfl | rfl | ⟨k, rfl⟩ <;> simp
  · rcases hc with rfl | rfl | ⟨k, rfl⟩ <;> simp

theorem store (h : o.Fine p) (hc : o.caller = .storing k) :
    Fine p { o with waker := some k, caller := .rechecking k } := by
  have hl : o.caller.isLive := by rw [hc]; rfl
  refine ⟨h.unrecorded, h.kept, fun _ => h.live hl, ?_, by simp, fun k' hk _ => ?_, fun _ hk => ?_⟩
  · rw [h.handed_of_isLive hl]
    simp
  · rw [Caller.rechecking.inj hk]
  · cases hk

theorem park (h : o.Fine p) (hc : o.caller = .rechecking k) (hr : o.result = none) :
    Fine p { o with caller := .parked k false } := by
  have hl : o.caller.isLive := by rw [hc]; rfl
  refine ⟨h.unrecorded, h.kept, fun _ => h.live hl, ?_, by simp, by simp,
    fun k' hk => .inl ?_⟩
  · rw [h.handed_of_isLive hl]
    simp
  · cases hk
    refine ⟨h.stored k hc hr, ?_⟩
    rcases h.unrecorded.mp hr with rfl | rfl <;> rfl

theorem take (h : o.Fine p) (hl : o.caller.isLive) (hr : o.result ≠ none) :
    Fine p { o with buf := .handed, caller := .done, handed := o.handed + 1 } := by
  refine ⟨h.unrecorded, fun hn => absurd hn hr, fun hl => ?_, ?_, fun _ => hr, by simp, by simp⟩
  · cases hl
  · rw [h.handed_of_isLive hl]
    simp

theorem gone (h : o.Fine p) (hl : o.caller.isLive) : Fine p { o with caller := .gone } := by
  refine ⟨h.unrecorded, h.kept, fun hl => absurd hl Bool.false_ne_true, ?_, by simp, by simp,
    by simp⟩
  rw [h.handed_of_isLive hl]
  simp

theorem free (h : o.Fine .past) (hc : o.caller = .gone) : o.free.Fine .past := by
  rw [Op.free]
  split
  · have hr : o.result ≠ none := fun hn => by simpa using h.unrecorded.mp hn
    refine ⟨h.unrecorded, fun hn => absurd hn hr, fun hl => ?_, h.handed, h.ended, h.stored,
      h.asleep⟩
    simp [hc, Caller.isLive] at hl
  · exact h

theorem letGo (h : o.Fine .past) : o.letGo.Fine .past := by
  rw [Op.letGo]
  split
  next hc => exact h.free hc
  · exact h

theorem remove (h : o.Fine .slab) : o.Fine .removed := by
  refine ⟨h.unrecorded.trans (by simp), h.kept, h.live, h.handed, h.ended, h.stored, fun k hk => ?_⟩
  rcases h.asleep k hk with ⟨hw, -⟩ | hp
  · exact .inl ⟨hw, rfl⟩
  · cases hp

theorem record (h : o.Fine .removed) (r : ℤ) : Fine .recorded { o with result := some r } := by
  refine ⟨by simp, by simp, h.live, h.handed, by simp,
    by simp, fun k hk => ?_⟩
  rcases h.asleep k hk with ⟨hw, -⟩ | hp
  · exact .inl ⟨hw, rfl⟩
  · cases hp

theorem takeWaker (h : o.Fine .recorded) (hk : o.waker = some k) :
    Fine (.waking k) { o with waker := none } := by
  have hr : o.result ≠ none := fun hn => by simpa using h.unrecorded.mp hn
  refine ⟨by simpa using hr, h.kept, h.live, h.handed, h.ended, fun _ _ hn => absurd hn hr,
    fun k' hk' => .inr ?_⟩
  rcases h.asleep k' hk' with ⟨hw, -⟩ | hp
  · rw [some.inj (hk.symm.trans hw)]
  · cases hp

theorem noWaker (h : o.Fine .recorded) (hk : o.waker = none) : o.Fine .past := by
  have hr : o.result ≠ none := fun hn => by simpa using h.unrecorded.mp hn
  refine ⟨by simpa using hr, h.kept, h.live, h.handed, h.ended, h.stored, fun k' hk' => ?_⟩
  rcases h.asleep k' hk' with ⟨hw, -⟩ | hp
  · cases hk.symm.trans hw
  · cases hp

theorem caller_of_wake {j : ℕ} (h : c.wake k = .parked j false) : c = .parked j false ∧ j ≠ k := by
  cases c with
  | parked waker woken =>
    obtain ⟨rfl, hw⟩ := Caller.parked.inj h
    simp only [Bool.or_eq_false_iff, beq_eq_false_iff_ne] at hw
    rw [hw.1]
    exact ⟨rfl, hw.2⟩
  | _ => simp [Caller.wake] at h

theorem wake_eq_iff (d : Caller) (hd : ∀ j b, d ≠ .parked j b) : c.wake k = d ↔ c = d := by
  cases c with
  | parked waker woken =>
    exact ⟨fun h => absurd h.symm (hd _ _), fun h => absurd h.symm (hd _ _)⟩
  | _ => exact Iff.rfl

theorem wake_of {q : Place} (h : o.Fine p) (hq : q = p ∨ p = .waking k ∧ q = .past) :
    (o.wake k).Fine q := by
  have hlive : (o.caller.wake k).isLive = o.caller.isLive := by
    cases o.caller <;> rfl
  have hdone : (o.caller.wake k = .done) ↔ (o.caller = .done) := wake_eq_iff .done (by simp)
  refine ⟨?_, h.kept, fun hl => h.live (hlive ▸ hl), ?_, fun hd => h.ended (hdone.mp hd),
    fun j hj => ?_, fun j hj => ?_⟩
  · rcases hq with rfl | ⟨rfl, rfl⟩
    · exact h.unrecorded
    · exact h.unrecorded.trans (by simp)
  · simp only [Op.wake, hdone]
    exact h.handed
  · exact h.stored j ((wake_eq_iff _ (by simp)).mp hj)
  · obtain ⟨hj, hne⟩ := caller_of_wake hj
    rcases hq with rfl | ⟨rfl, rfl⟩
    · exact h.asleep j hj
    · rcases h.asleep j hj with ⟨-, hp⟩ | hp
      · simp [Place.keepsWaker] at hp
      · exact absurd (Place.waking.inj hp).symm hne

end Op.Fine

/-! ## What a move can do -/

namespace World

/-- All that a move can do. -/
inductive Steps (w : World) : Label → World → Prop where
  | insert :
      Steps w .insert
        { w with ops := w.ops ++ [.new], slab := Insert.insert w.ops.length w.slab }
  | push {i o} (ho : w.ops[i]? = some o) (hc : o.caller = .inserted) :
      Steps w (.push i) { w.setCaller i o .pushed with pending := w.pending ++ [i] }
  | write {i o} (ho : w.ops[i]? = some o) (hc : o.caller = .pushed) :
      Steps w (.write i) { w.setCaller i o .idle with eventfd := w.eventfd + 1 }
  | ready {l i o} (ho : w.ops[i]? = some o) (hl : o.caller.isLive)
      (hi : o.caller ≠ .inserted ∧ o.caller ≠ .pushed) (hr : o.result ≠ none) (hd : l ≠ .drive) :
      Steps w l (w.takeResult i o)
  | poll {i k o} (ho : w.ops[i]? = some o) (hc : o.caller.isIdle)
      (hr : o.result = none) : Steps w (.poll i k) (w.setCaller i o (.storing k))
  | store {i k o} (ho : w.ops[i]? = some o) (hc : o.caller = .storing k) :
      Steps w (.store i) (w.setCaller i { o with waker := some k } (.rechecking k))
  | park {i k o} (ho : w.ops[i]? = some o) (hc : o.caller = .rechecking k)
      (hr : o.result = none) : Steps w (.recheck i) (w.setCaller i o (.parked k false))
  | drop {i o} (ho : w.ops[i]? = some o) (hc : o.caller.isIdle) :
      Steps w (.drop i) (w.dropFuture i o)
  | arm (hd : w.driver = .starting) :
      Steps w .drive { w with driver := .top, sq := w.sq ++ [.wake] }
  | take (hd : w.driver = .top) :
      Steps w .drive { w with driver := .pushing w.pending, pending := [] }
  | queue {i es} (hd : w.driver = .pushing (i :: es)) :
      Steps w .drive { w with driver := .pushing es, sq := w.sq ++ [.op i] }
  | enter (hd : w.driver = .pushing []) : Steps w .drive { w with driver := .waiting }
  | loop (hd : w.driver = .handling []) : Steps w .drive { w with driver := .top }
  | drain {r cs} (hd : w.driver = .handling ((.wake, r) :: cs)) :
      Steps w .drive { w with driver := .drained cs, eventfd := 0 }
  | remove {i r cs}
      (hd : w.driver = .handling ((.op i, r) :: cs)) (hi : i ∈ w.slab) :
      Steps w .drive { w with driver := .removed i r cs, slab := w.slab.erase i }
  | ignore {i r cs}
      (hd : w.driver = .handling ((.op i, r) :: cs)) (hi : i ∉ w.slab) :
      Steps w .drive { w with driver := .handling cs }
  | rearm {cs} (hd : w.driver = .drained cs) :
      Steps w .drive { w with driver := .handling cs, sq := w.sq ++ [.wake] }
  | record {i r cs} (hd : w.driver = .removed i r cs) :
      Steps w .drive
        { w with
          driver := .recorded i cs
          ops := w.ops.modify i fun o => { o with result := some r } }
  | takeWaker {i k o cs} (hd : w.driver = .recorded i cs)
      (ho : w.ops[i]? = some o) (hk : o.waker = some k) :
      Steps w .drive
        { w with
          driver := .waking i k cs
          ops := w.ops.modify i fun o => { o with waker := none } }
  | noWaker {i cs} (hd : w.driver = .recorded i cs)
      (hk : ∀ o, w.ops[i]? = some o → o.waker = none) :
      Steps w .drive { w with driver := .dropping i cs }
  | wake {i k cs} (hd : w.driver = .waking i k cs) :
      Steps w .drive { w with driver := .dropping i cs, ops := w.ops.map (Op.wake k) }
  | letGo {i cs} (hd : w.driver = .dropping i cs) :
      Steps w .drive { w with driver := .handling cs, ops := w.ops.modify i Op.letGo }
  | collect (hd : w.driver = .waiting) :
      Steps w .collect { w with driver := .handling w.cq, cq := [] }
  | interrupt (hd : w.driver = .waiting) : Steps w .interrupt { w with driver := .top }
  | stop (hd : w.driver = .top ∨ w.driver = .waiting) :
      Steps w .stop { w with driver := .stopped }
  | accept {e es} (hs : w.sq = e :: es) :
      Steps w .accept { w with sq := es, kernel := w.kernel ++ [e] }
  | complete {e r} (he : e ∈ w.kernel) :
      Steps w (.complete e r) { w with kernel := w.kernel.erase e, cq := w.cq ++ [(e, r)] }

variable {w v : World} {l : Label} {i k : ℕ} {o o' : Op} {g : Op → Op} {c : Caller} {d : Driver}
  {cs : List (Entry × ℤ)} {P : Caller → Prop}

theorem steps_of_drive (hs : w.drive = some v) : w.Steps .drive v := by
  rw [drive] at hs
  split at hs
  next hd => exact some.inj hs ▸ .arm hd
  next hd => exact some.inj hs ▸ .take hd
  next hd => exact some.inj hs ▸ .enter hd
  next i es hd => exact some.inj hs ▸ .queue hd
  next hd => exact some.inj hs ▸ .loop hd
  next r cs hd => exact some.inj hs ▸ .drain hd
  next i r cs hd =>
    split at hs <;> rename_i hi
    · exact some.inj hs ▸ .remove hd hi
    · exact some.inj hs ▸ .ignore hd hi
  next cs hd => exact some.inj hs ▸ .rearm hd
  next i r cs hd => exact some.inj hs ▸ .record hd
  next i cs hd =>
    split at hs
    next k hk =>
      obtain ⟨o, ho, hk⟩ := bind_eq_some_iff.mp hk
      exact some.inj hs ▸ .takeWaker hd ho hk
    next hk =>
      refine some.inj hs ▸ .noWaker hd fun o ho => ?_
      rwa [ho, bind_some] at hk
  next i k cs hd => exact some.inj hs ▸ .wake hd
  next i cs hd => exact some.inj hs ▸ .letGo hd
  · cases hs
  · cases hs

theorem steps_of_look (ho : w.ops[i]? = some o) (hl : o.caller.isLive)
    (hi : o.caller ≠ .inserted ∧ o.caller ≠ .pushed) (hd : l ≠ .drive)
    (hs : some (if o.result.isSome then w.takeResult i o else w.setCaller i o c) = some v)
    (hnone : o.result = none → w.Steps l (w.setCaller i o c)) : w.Steps l v := by
  cases hs
  split <;> rename_i hr
  · exact .ready ho hl hi (isSome_iff_ne_none.mp hr) hd
  · exact hnone (not_isSome_iff_eq_none.mp hr)

theorem isLive_of_isIdle (h : c.isIdle) : c.isLive ∧ c ≠ .inserted ∧ c ≠ .pushed := by
  cases c <;> simp_all [Caller.isIdle, Caller.isLive]

theorem steps_of_step (hs : w.step l = some v) : w.Steps l v := by
  cases l with
  | insert => exact some.inj hs ▸ .insert
  | push i =>
    obtain ⟨o, ho, hc, rfl⟩ := bind_guard_eq_some.mp hs
    exact .push ho hc
  | write i =>
    obtain ⟨o, ho, hc, rfl⟩ := bind_guard_eq_some.mp hs
    exact .write ho hc
  | poll i k =>
    obtain ⟨o, ho, hs⟩ := bind_eq_some_iff.mp hs
    obtain ⟨hc, hs⟩ := ite_none_right_eq_some.mp hs
    obtain ⟨hl, hi⟩ := isLive_of_isIdle hc
    exact steps_of_look ho hl hi nofun hs fun hr => .poll ho hc hr
  | store i =>
    obtain ⟨o, ho, hs⟩ := bind_eq_some_iff.mp hs
    split at hs
    next k hc => exact some.inj hs ▸ .store ho hc
    · cases hs
  | recheck i =>
    obtain ⟨o, ho, hs⟩ := bind_eq_some_iff.mp hs
    split at hs
    next k hc =>
      exact steps_of_look ho (by rw [hc]; rfl) (by simp [hc]) nofun hs fun hr => .park ho hc hr
    · cases hs
  | drop i =>
    obtain ⟨o, ho, hc, rfl⟩ := bind_guard_eq_some.mp hs
    exact .drop ho hc
  | drive => exact steps_of_drive hs
  | collect =>
    obtain ⟨⟨hd, -⟩, rfl⟩ := of_guard hs
    exact .collect hd
  | interrupt =>
    obtain ⟨hd, rfl⟩ := of_guard hs
    exact .interrupt hd
  | stop =>
    obtain ⟨hd, rfl⟩ := of_guard hs
    exact .stop hd
  | accept =>
    rw [step] at hs
    split at hs
    · cases hs
    next e es hsq =>
      obtain ⟨-, rfl⟩ := of_guard hs
      exact .accept hsq
  | complete e r =>
    obtain ⟨⟨he, -⟩, rfl⟩ := of_guard hs
    exact .complete he

/-! ## The operations at their places -/

/-- Every operation is fine at its place, and `take_result` has not panicked. -/
structure Kept (w : World) : Prop where
  ops : ∀ (i : ℕ) (o : Op), w.ops[i]? = some o → o.Fine (w.place i)
  slab : ∀ i ∈ w.slab, i < w.ops.length
  held : ∀ i, w.driver.holds = some i → i ∉ w.slab ∧ i < w.ops.length
  calm : w.panicked = false

theorem place_of_not_holds (hs : i ∉ w.slab) (hh : w.driver.holds ≠ some i) :
    w.place i = .past := by
  rw [place, if_neg hs]
  cases hd : w.driver with
  | removed j r cs | recorded j cs | waking j k cs => exact if_neg fun h => hh (by rw [hd, h]; rfl)
  | _ => rfl

section

variable (h : w.Kept)

include h

theorem Kept.congr (ho : v.ops = w.ops) (hs : v.slab = w.slab)
    (hd : ∀ i, v.driver.place i = w.driver.place i) (hh : v.driver.holds = w.driver.holds)
    (hp : v.panicked = w.panicked) : v.Kept := by
  refine ⟨fun i o hi => ?_, by rw [hs, ho]; exact h.slab, by rw [hs, ho, hh]; exact h.held,
    hp.trans h.calm⟩
  rw [place, hs, hd i]
  exact h.ops i o (ho ▸ hi)

theorem Kept.idle (ho : v.ops = w.ops) (hs : v.slab = w.slab)
    (hw : w.driver.holds = none) (hv : v.driver.holds = none) (hp : v.panicked = w.panicked) :
    v.Kept := by
  have hpast : ∀ {d : Driver} (i : ℕ), d.holds = none → d.place i = .past := by
    intro d i hd
    cases d <;> first | rfl | simp [Driver.holds] at hd
  exact h.congr ho hs (fun i => by rw [hpast i hv, hpast i hw]) (by rw [hw, hv]) hp

theorem Kept.set (hf : o'.Fine (w.place i))
    (ho : v.ops = w.ops.set i o') (hs : v.slab = w.slab) (hd : v.driver = w.driver)
    (hp : v.panicked = w.panicked) : v.Kept := by
  have hplace : ∀ j, v.place j = w.place j := fun j => by rw [place, hs, hd, place]
  have hlen : v.ops.length = w.ops.length := by rw [ho, length_set]
  refine ⟨fun j q hj => ?_, by rw [hs, hlen]; exact h.slab, by rw [hs, hd, hlen]; exact h.held,
    hp.trans h.calm⟩
  rw [hplace]
  rw [ho] at hj
  exact forall_set (P := fun j q => q.Fine (w.place j)) hf h.ops j q hj

theorem Kept.modify (hi : w.driver.holds = some i)
    (hf : ∀ o, w.ops[i]? = some o → o.Fine (w.driver.place i) → (g o).Fine (v.driver.place i))
    (ho : v.ops = w.ops.modify i g) (hs : v.slab = w.slab)
    (hh : v.driver.holds = some i ∨ v.driver.holds = none) (hp : v.panicked = w.panicked) :
    v.Kept := by
  obtain ⟨hslab, hlt⟩ := h.held i hi
  have hlen : v.ops.length = w.ops.length := by rw [ho, length_modify]
  -- the other operations are in the slab, or past
  have hplace : ∀ j, i ≠ j → v.place j = w.place j := by
    intro j hij
    by_cases hj : j ∈ w.slab
    · rw [place, hs, if_pos hj, place, if_pos hj]
    · rw [place_of_not_holds hj (by rw [hi]; simpa using hij), place_of_not_holds (hs ▸ hj)]
      rcases hh with hh | hh <;> rw [hh]
      · simpa using hij
      · simp
  refine ⟨fun j q hj => ?_, by rw [hs, hlen]; exact h.slab, fun j hj => ?_, hp.trans h.calm⟩
  · rw [ho] at hj
    rcases of_modify hj with ⟨rfl, o, hoj, rfl⟩ | ⟨hij, hj⟩
    · have hfine := h.ops i o hoj
      rw [place, if_neg hslab] at hfine
      rw [place, hs, if_neg hslab]
      exact hf o hoj hfine
    · rw [hplace j hij]
      exact h.ops j q hj
  · have hji : j = i := by
      rcases hh with hh | hh
      · exact some.inj (hj.symm.trans hh)
      · cases hj.symm.trans hh
    rw [hji, hs, hlen]
    exact ⟨hslab, hlt⟩

theorem Kept.insert :
    Kept { w with ops := w.ops ++ [.new], slab := Insert.insert w.ops.length w.slab } := by
  have hlen : (w.ops ++ [Op.new]).length = w.ops.length + 1 := length_append
  have hplace : ∀ j, j < w.ops.length →
      place { w with ops := w.ops ++ [.new], slab := Insert.insert w.ops.length w.slab } j =
        w.place j := by
    intro j hj
    have hmem : j ∈ Insert.insert w.ops.length w.slab ↔ j ∈ w.slab :=
      ⟨fun hm => Finset.mem_of_mem_insert_of_ne hm (by omega), Finset.mem_insert_of_mem⟩
    simp only [place, hmem]
  refine ⟨fun j o hj => ?_, fun j hj => ?_, fun j hj => ?_, h.calm⟩
  · rcases of_snoc hj with hj | ⟨rfl, rfl⟩
    · rw [hplace j (lt_of_some hj)]
      exact h.ops j o hj
    · simp only [place, Finset.mem_insert_self, if_true]
      exact Op.Fine.new
  · simp only [hlen]
    rcases Finset.mem_insert.mp hj with rfl | hj
    · exact Nat.lt_succ_self _
    · exact Nat.lt_succ_of_lt (h.slab j hj)
  · obtain ⟨hs, hlt⟩ := h.held j hj
    simp only [hlen]
    refine ⟨fun hm => hs (Finset.mem_of_mem_insert_of_ne hm (by omega)), Nat.lt_succ_of_lt hlt⟩

theorem Kept.remove {r : ℤ} (hd : w.driver.holds = none) (hi : i ∈ w.slab) :
    Kept { w with driver := .removed i r cs, slab := w.slab.erase i } := by
  refine ⟨fun j o hj => ?_, fun j hj => h.slab j (Finset.mem_of_mem_erase hj), fun j hj => ?_,
    h.calm⟩
  · have hfine := h.ops j o hj
    obtain rfl | hij := eq_or_ne i j
    · rw [place, if_pos hi] at hfine
      simp only [place, Finset.notMem_erase, if_false, Driver.place, if_true]
      exact hfine.remove
    · have hmem : j ∈ w.slab.erase i ↔ j ∈ w.slab := by
        rw [Finset.mem_erase]
        exact ⟨And.right, fun hm => ⟨Ne.symm hij, hm⟩⟩
      by_cases hj : j ∈ w.slab
      · rw [place, if_pos hj] at hfine
        rwa [place, if_pos (hmem.mpr hj)]
      · rw [place_of_not_holds hj (by simp [hd])] at hfine
        rwa [place_of_not_holds (mt hmem.mp hj) (by simpa [Driver.holds] using hij)]
  · cases hj
    exact ⟨Finset.notMem_erase _ _, h.slab _ hi⟩

theorem Kept.wake (hd : w.driver = .waking i k cs) :
    Kept { w with driver := .dropping i cs, ops := w.ops.map (Op.wake k) } := by
  obtain ⟨hslab, hlt⟩ := h.held i (by rw [hd]; rfl)
  refine ⟨fun j o hj => ?_, by simpa using h.slab, fun j hj => ?_, h.calm⟩
  · simp only [getElem?_map, map_eq_some_iff] at hj
    obtain ⟨q, hq, rfl⟩ := hj
    have hfine := h.ops j q hq
    refine hfine.wake_of ?_
    obtain rfl | hij := eq_or_ne i j
    · exact .inr (by simp [place, hslab, hd, Driver.place])
    · exact .inl (by simp [place, hd, Driver.place, hij])
  · cases hj
    simpa using ⟨hslab, hlt⟩

theorem Kept.takeResult (ho : w.ops[i]? = some o)
    (hl : o.caller.isLive) (hr : o.result ≠ none) : (w.takeResult i o).Kept := by
  have hfine := h.ops i o ho
  rw [World.takeResult, if_pos (hfine.live hl)]
  exact h.set (hfine.take hl hr) rfl rfl rfl rfl

theorem Kept.dropFuture (ho : w.ops[i]? = some o)
    (hl : o.caller.isLive) : (w.dropFuture i o).Kept := by
  have hgone := (h.ops i o ho).gone hl
  refine h.set ?_ rfl rfl rfl rfl
  split
  · exact hgone
  next hno =>
    obtain ⟨hs, hh⟩ := not_or.mp hno
    rw [place_of_not_holds hs hh] at hgone ⊢
    exact hgone.free rfl

theorem kept_of_steps (hs : w.Steps l v) : v.Kept := by
  cases hs with
  | insert => exact h.insert
  | push ho hc => exact h.set ((h.ops _ _ ho).move (by rw [hc]; rfl) (.inl rfl)) rfl rfl rfl rfl
  | write ho hc =>
    exact h.set ((h.ops _ _ ho).move (by rw [hc]; rfl) (.inr (.inl rfl))) rfl rfl rfl rfl
  | ready ho hl hi hr => exact h.takeResult ho hl hr
  | @poll i k o ho hc hr =>
    have hmove := (h.ops i o ho).move (isLive_of_isIdle hc).1 (.inr (.inr ⟨k, rfl⟩))
    exact h.set hmove rfl rfl rfl rfl
  | store ho hc => exact h.set ((h.ops _ _ ho).store hc) rfl rfl rfl rfl
  | park ho hc hr => exact h.set ((h.ops _ _ ho).park hc hr) rfl rfl rfl rfl
  | drop ho hc => exact h.dropFuture ho (isLive_of_isIdle hc).1
  | arm hd | take hd | queue hd | enter hd | loop hd | drain hd | ignore hd hi | rearm hd
  | collect hd | interrupt hd => exact h.idle rfl rfl (by rw [hd]; rfl) rfl rfl
  | stop hd =>
    rcases hd with hd | hd <;> exact h.idle rfl rfl (by rw [hd]; rfl) rfl rfl
  | remove hd hi => exact h.remove (by rw [hd]; rfl) hi
  | @record i r cs hd =>
    refine h.modify (i := i) (by rw [hd]; rfl) (fun o _ hfine => ?_) rfl rfl (.inl rfl) rfl
    simp only [hd, Driver.place, if_true] at hfine ⊢
    exact hfine.record r
  | @takeWaker i k o cs hd ho hk =>
    refine h.modify (i := i) (by rw [hd]; rfl) (fun q hq hfine => ?_) rfl rfl (.inl rfl) rfl
    cases ho.symm.trans hq
    simp only [hd, Driver.place, if_true] at hfine ⊢
    exact hfine.takeWaker hk
  | @noWaker i cs hd hk =>
    refine h.modify (g := id) (i := i) (by rw [hd]; rfl) (fun o ho hfine => ?_)
      (modify_id _ _).symm rfl (.inl rfl) rfl
    simp only [hd, Driver.place, if_true] at hfine ⊢
    exact hfine.noWaker (hk o ho)
  | wake hd => exact h.wake hd
  | @letGo i cs hd =>
    refine h.modify (i := i) (by rw [hd]; rfl) (fun o _ hfine => ?_) rfl rfl (.inr rfl) rfl
    rw [hd] at hfine
    exact hfine.letGo
  | accept hsq | complete he => exact h.congr rfl rfl (fun _ => rfl) rfl rfl

end

theorem kept_of_reachable (h : process.Reachable w) : w.Kept := by
  refine System.inv_of_reachable (I := Kept) ?_ (fun _ _ _ hI hs => ?_) h
  · exact ⟨by simp [process], by simp [process],
      by simp [process, Driver.holds], rfl⟩
  · exact kept_of_steps hI (steps_of_step hs)

/-! ## The entries in flight -/

/-- No entry is in flight twice, its `OpState` is in the slab, and the eventfd is polled. -/
structure Flying (w : World) : Prop where
  nodup : w.flight.Nodup
  slab : ∀ i, .op i ∈ w.flight → i ∈ w.slab
  waits : ∀ (i : ℕ) (o : Op), w.ops[i]? = some o → o.caller = .inserted →
    i ∈ w.slab ∧ .op i ∉ w.flight
  armed : .wake ∈ w.flight ↔ w.driver.isUnarmed = false

/-- No caller came to be of the sort `P`. -/
def NoneCame (P : Caller → Prop) (w v : World) : Prop :=
  ∀ (i : ℕ) (o : Op), v.ops[i]? = some o → P o.caller → ∃ q, w.ops[i]? = some q ∧ P q.caller

theorem noneCame_of_ops (h : v.ops = w.ops) : NoneCame P w v :=
  fun _ o hi hc => ⟨o, h ▸ hi, hc⟩

theorem noneCame_of_set (h : v.ops = w.ops.set i o)
    (hc : P o.caller → ∃ q, w.ops[i]? = some q ∧ P q.caller) : NoneCame P w v := by
  intro j q hj hq
  rw [h] at hj
  rcases of_set hj with ⟨rfl, rfl⟩ | ⟨-, hj⟩
  · exact hc hq
  · exact ⟨q, hj, hq⟩

theorem noneCame_of_modify (h : v.ops = w.ops.modify i g)
    (hg : ∀ o, (g o).caller = o.caller) : NoneCame P w v := by
  intro j q hj hq
  rw [h] at hj
  rcases of_modify hj with ⟨-, o, ho, rfl⟩ | ⟨-, hj⟩
  · exact ⟨o, ho, hg o ▸ hq⟩
  · exact ⟨q, hj, hq⟩

theorem noneCame_of_wake (h : v.ops = w.ops.map (Op.wake k))
    (hP : ∀ c : Caller, P (c.wake k) → P c) : NoneCame P w v := by
  intro j o hj ho
  rw [h, getElem?_map, map_eq_some_iff] at hj
  obtain ⟨q, hq, rfl⟩ := hj
  exact ⟨q, hq, hP _ ho⟩

theorem noneCame_takeResult (hc : P .done → ∃ q, w.ops[i]? = some q ∧ P q.caller) :
    NoneCame P w (w.takeResult i o) := by
  rw [World.takeResult]
  split
  · exact noneCame_of_set rfl hc
  · exact noneCame_of_ops rfl

section

variable (h : w.Flying)

include h

theorem Flying.of_perm (hp : v.flight.Perm w.flight) (hs : v.slab = w.slab)
    (hi : NoneCame (· = .inserted) w v) (ha : v.driver.isUnarmed = w.driver.isUnarmed) :
    v.Flying := by
  refine ⟨hp.nodup_iff.mpr h.nodup, fun i hm => ?_, fun i o ho hc => ?_, ?_⟩
  · rw [hs]
    exact h.slab i (hp.mem_iff.mp hm)
  · obtain ⟨q, hq, hc⟩ := hi i o ho hc
    rw [hs, hp.mem_iff]
    exact h.waits i q hq hc
  · rw [hp.mem_iff, ha]
    exact h.armed

theorem Flying.arm (hp : v.flight.Perm (.wake :: w.flight)) (hs : v.slab = w.slab)
    (ho : v.ops = w.ops) (hw : w.driver.isUnarmed) (hv : v.driver.isUnarmed = false) :
    v.Flying := by
  have hno : .wake ∉ w.flight := fun hm => by simp [h.armed.mp hm] at hw
  refine ⟨hp.nodup_iff.mpr (nodup_cons.mpr ⟨hno, h.nodup⟩), fun i hm => ?_, fun i o hi hc => ?_, ?_⟩
  · rw [hs]
    rcases mem_cons.mp (hp.mem_iff.mp hm) with heq | hm
    · cases heq
    · exact h.slab i hm
  · obtain ⟨hslab, hnot⟩ := h.waits i o (ho ▸ hi) hc
    rw [hs, hp.mem_iff, mem_cons]
    exact ⟨hslab, by simp [hnot]⟩
  · rw [hp.mem_iff, hv]
    exact ⟨fun _ => rfl, fun _ => mem_cons_self⟩

theorem Flying.drain (hp : w.flight.Perm (.wake :: v.flight)) (hs : v.slab = w.slab)
    (ho : v.ops = w.ops) (hv : v.driver.isUnarmed) : v.Flying := by
  obtain ⟨hno, hnodup⟩ := nodup_cons.mp (hp.nodup_iff.mp h.nodup)
  have hmem : ∀ e, e ∈ v.flight → e ∈ w.flight :=
    fun e he => hp.mem_iff.mpr (mem_cons_of_mem _ he)
  refine ⟨hnodup, fun i hm => ?_, fun i o hi hc => ?_, ?_⟩
  · rw [hs]
    exact h.slab i (hmem _ hm)
  · obtain ⟨hslab, hnot⟩ := h.waits i o (ho ▸ hi) hc
    rw [hs]
    exact ⟨hslab, fun hm => hnot (hmem _ hm)⟩
  · rw [hv]
    simpa using hno

theorem Flying.remove (hp : w.flight.Perm (.op i :: v.flight))
    (hs : v.slab = w.slab.erase i) (ho : v.ops = w.ops)
    (ha : v.driver.isUnarmed = w.driver.isUnarmed) : v.Flying := by
  obtain ⟨hno, hnodup⟩ := nodup_cons.mp (hp.nodup_iff.mp h.nodup)
  have hmem : ∀ e, e ∈ v.flight → e ∈ w.flight :=
    fun e he => hp.mem_iff.mpr (mem_cons_of_mem _ he)
  refine ⟨hnodup, fun j hm => ?_, fun j o hj hc => ?_, ?_⟩
  · rw [hs]
    refine Finset.mem_erase.mpr ⟨?_, h.slab j (hmem _ hm)⟩
    rintro rfl
    exact hno hm
  · obtain ⟨hslab, hnot⟩ := h.waits j o (ho ▸ hj) hc
    rw [hs]
    refine ⟨Finset.mem_erase.mpr ⟨?_, hslab⟩, fun hm => hnot (hmem _ hm)⟩
    rintro rfl
    exact hnot (hp.mem_iff.mpr mem_cons_self)
  · rw [ha, ← h.armed, hp.mem_iff, mem_cons]
    simp

theorem Flying.insert (hk : w.Kept) :
    Flying { w with ops := w.ops ++ [.new], slab := Insert.insert w.ops.length w.slab } := by
  refine ⟨h.nodup, fun i hm => Finset.mem_insert_of_mem (h.slab i hm), fun i o hi hc => ?_, h.armed⟩
  rcases of_snoc hi with hi | ⟨rfl, rfl⟩
  · obtain ⟨hslab, hnot⟩ := h.waits i o hi hc
    exact ⟨Finset.mem_insert_of_mem hslab, hnot⟩
  · refine ⟨Finset.mem_insert_self _ _, fun hm => ?_⟩
    exact lt_irrefl _ (hk.slab _ (h.slab _ hm))

theorem Flying.push (ho : w.ops[i]? = some o) (hc : o.caller = .inserted) :
    Flying { w.setCaller i o .pushed with pending := w.pending ++ [i] } := by
  obtain ⟨hslab, hnot⟩ := h.waits i o ho hc
  have hp : List.Perm (flight { w.setCaller i o .pushed with pending := w.pending ++ [i] })
      (.op i :: w.flight) := by
    refine perm_iff_count.mpr fun e => ?_
    simp only [flight, setCaller, map_append, map_cons, map_nil, count_append,
      count_cons, count_nil]
    omega
  refine ⟨hp.nodup_iff.mpr (nodup_cons.mpr ⟨hnot, h.nodup⟩), fun j hm => ?_,
    fun j q hj hq => ?_, ?_⟩
  · rcases mem_cons.mp (hp.mem_iff.mp hm) with heq | hm
    · rw [Entry.op.inj heq]
      exact hslab
    · exact h.slab j hm
  · rw [hp.mem_iff, mem_cons]
    rcases of_set hj with ⟨rfl, rfl⟩ | ⟨hij, hj⟩
    · cases hq
    · obtain ⟨hs, hn⟩ := h.waits j q hj hq
      exact ⟨hs, by simp [hn, Ne.symm hij]⟩
  · rw [hp.mem_iff, mem_cons]
    simpa [setCaller] using h.armed

theorem Flying.ring (ho : v.ops = w.ops) (hs : v.slab = w.slab)
    (ha : v.driver.isUnarmed = w.driver.isUnarmed)
    (hp : ∀ e, v.flight.count e = w.flight.count e) : v.Flying :=
  h.of_perm (perm_iff_count.mpr hp) hs (noneCame_of_ops ho) ha

theorem Flying.goOn (he : d.entries = w.driver.entries)
    (ha : d.isUnarmed = w.driver.isUnarmed) : Flying { w with driver := d } := by
  refine h.ring rfl rfl ha fun e => ?_
  simp only [flight, he]

theorem Flying.goOn_modify
    (he : d.entries = w.driver.entries) (ha : d.isUnarmed = w.driver.isUnarmed)
    (hg : ∀ o, (g o).caller = o.caller) :
    Flying { w with driver := d, ops := w.ops.modify i g } := by
  refine h.of_perm ?_ rfl (noneCame_of_modify rfl hg) ha
  simp only [flight, he, List.Perm.refl]

theorem Flying.set (ho : v.ops = w.ops.set i o)
    (hc : o.caller ≠ .inserted) (hf : v.flight = w.flight) (hs : v.slab = w.slab)
    (hd : v.driver = w.driver) : v.Flying :=
  h.of_perm (by rw [hf]) hs (noneCame_of_set ho fun h => absurd h hc) (by rw [hd])

theorem Flying.takeResult : (w.takeResult i o).Flying := by
  rw [World.takeResult]
  split
  · exact h.set rfl (by simp) rfl rfl rfl
  · exact h.of_perm (List.Perm.refl _) rfl (noneCame_of_ops rfl) rfl

end

theorem flying_of_steps (hk : w.Kept) (h : w.Flying) (hs : w.Steps l v) : v.Flying := by
  cases hs with
  | insert => exact h.insert hk
  | push ho hc => exact h.push ho hc
  | write ho hc | poll ho hc hr | store ho hc | park ho hc hr =>
    exact h.set rfl (by simp) rfl rfl rfl
  | ready ho hl hi hr => exact h.takeResult
  | drop ho hc =>
    refine h.set rfl ?_ rfl rfl rfl
    split <;> simp
  | arm hd | rearm hd =>
    refine h.arm (perm_iff_count.mpr fun e => ?_) rfl rfl (by rw [hd]; rfl) rfl
    simp only [flight, hd, Driver.entries, count_append, count_cons, count_nil]
    omega
  | take hd | collect hd =>
    refine h.ring rfl rfl (by rw [hd]; rfl) fun e => ?_
    simp only [flight, hd, Driver.entries, map_nil, count_append, count_nil]
    omega
  | queue hd =>
    refine h.ring rfl rfl (by rw [hd]; rfl) fun e => ?_
    simp only [flight, hd, Driver.entries, map_cons, count_append, count_cons, count_nil]
    omega
  | enter hd | loop hd | noWaker hd hk | interrupt hd =>
    exact h.goOn (by rw [hd]; rfl) (by rw [hd]; rfl)
  | drain hd =>
    refine h.drain (perm_iff_count.mpr fun e => ?_) rfl rfl rfl
    simp only [flight, hd, Driver.entries, map_cons, count_append, count_cons]
    omega
  | remove hd hi =>
    refine h.remove (perm_iff_count.mpr fun e => ?_) rfl rfl (by rw [hd]; rfl)
    simp only [flight, hd, Driver.entries, map_cons, count_append, count_cons]
    omega
  | @ignore i r cs hd hi =>
    -- what completes is in the slab
    refine absurd (h.slab i ?_) hi
    simp [flight, hd, Driver.entries]
  | record hd | takeWaker hd ho hk =>
    exact h.goOn_modify (by rw [hd]; rfl) (by rw [hd]; rfl) fun _ => rfl
  | @wake i k cs hd =>
    refine h.of_perm ?_ rfl (noneCame_of_wake rfl fun _ => ?_) (by rw [hd]; rfl)
    swap
    · exact (Op.Fine.wake_eq_iff _ (by simp)).mp
    simp only [flight, hd, Driver.entries, List.Perm.refl]
  | letGo hd => exact h.goOn_modify (by rw [hd]; rfl) (by rw [hd]; rfl) Op.caller_letGo
  | stop hd =>
    rcases hd with hd | hd <;> exact h.goOn (by rw [hd]; rfl) (by rw [hd]; rfl)
  | accept hsq =>
    refine h.ring rfl rfl rfl fun e => ?_
    simp only [flight, hsq, count_append, count_cons, count_nil]
    omega
  | @complete e r he =>
    refine h.ring rfl rfl rfl fun e' => ?_
    have hcount := (perm_cons_erase he).count_eq e'
    simp only [count_cons] at hcount
    simp only [flight, map_append, map_cons, map_nil, count_append, count_cons, count_nil]
    omega

theorem flying_of_reachable (h : process.Reachable w) : w.Flying := by
  refine h.inv (I := Flying) ?_ fun _ _ _ hr hI hs => ?_
  · exact ⟨nodup_nil, by simp [process, flight, Driver.entries],
      by simp [process],
      by simp [process, flight, Driver.entries, Driver.isUnarmed]⟩
  · exact flying_of_steps (kept_of_reachable hr) hI (steps_of_step hs)

/-! ## The eventfd -/

/-- Whatever came to `pending` since it was emptied, the eventfd tells or is about to. -/
def Roused (w : World) : Prop :=
  w.driver.hasTaken = true → ∀ i ∈ w.pending,
    0 < w.eventfd ∨ ∃ o, w.ops[i]? = some o ∧ o.caller = .pushed

theorem Roused.set (h : w.Roused) (ho : w.ops[i]? = some o)
    (hc : o.caller ≠ .pushed) (hops : v.ops = w.ops.set i o') (hp : v.pending = w.pending)
    (he : v.eventfd = w.eventfd) (hd : v.driver = w.driver) : v.Roused := by
  intro ht j hj
  rw [he, hops]
  rcases h (hd ▸ ht) j (hp ▸ hj) with hpos | ⟨q, hq, hpushed⟩
  · exact .inl hpos
  · refine .inr ⟨q, ?_, hpushed⟩
    have hij : i ≠ j := by
      rintro rfl
      exact hc (some.inj (ho.symm.trans hq) ▸ hpushed)
    rwa [getElem?_set_ne hij]

theorem roused_of_steps (h : w.Roused) (hs : w.Steps l v) : v.Roused := by
  cases hs with
  | insert =>
    intro ht j hj
    rcases h ht j hj with hpos | ⟨o, ho, hc⟩
    · exact .inl hpos
    · exact .inr ⟨o, append_of_some ho _, hc⟩
  | @push i o ho hc =>
    intro ht j hj
    obtain rfl | hij := eq_or_ne i j
    · exact .inr ⟨_, set_self ho _, rfl⟩
    · have hold : j ∈ w.pending := by
        rcases mem_append.mp hj with hj | hj
        · exact hj
        · exact absurd (mem_singleton.mp hj).symm hij
      rcases h ht j hold with hpos | ⟨q, hq, hpushed⟩
      · exact .inl hpos
      · exact .inr ⟨q, by rw [setCaller, getElem?_set_ne hij]; exact hq, hpushed⟩
  | write ho hc => exact fun _ _ _ => .inl (Nat.succ_pos _)
  | @ready l i o ho hl hi hr =>
    rw [World.takeResult]
    split
    · exact h.set ho hi.2 rfl rfl rfl rfl
    · exact h
  | poll ho hc hr | drop ho hc => exact h.set ho (isLive_of_isIdle hc).2.2 rfl rfl rfl rfl
  | store ho hc | park ho hc hr => exact h.set ho (by simp [hc]) rfl rfl rfl rfl
  | take hd => exact fun _ j hj => absurd hj (by simp)
  | queue hd | enter hd => exact fun _ => h (by rw [hd]; rfl)
  | accept hsq | complete he => exact h
  | arm | loop | drain | remove | ignore | rearm | record | takeWaker | noWaker | wake | letGo
  | collect | interrupt | stop => exact fun ht => absurd ht Bool.false_ne_true

theorem roused_of_reachable (h : process.Reachable w) : w.Roused :=
  System.inv_of_reachable (S := process) (I := Roused) (fun ht => absurd ht Bool.false_ne_true)
    (fun _ _ _ hI hs => roused_of_steps hI (steps_of_step hs)) h

/-! ## The protocol -/

theorem eq_recorded_of_place (h : d.place i = .recorded) : ∃ cs, d = .recorded i cs := by
  cases d with
  | recorded j cs =>
    by_cases hij : j = i
    · exact ⟨cs, by rw [hij]⟩
    · simp [Driver.place, hij] at h
  | removed j r cs | waking j k cs => by_cases hij : j = i <;> simp [Driver.place, hij] at h
  | _ => exact Place.noConfusion h

theorem eq_waking_of_place (h : d.place i = .waking k) : ∃ cs, d = .waking i k cs := by
  cases d with
  | waking j k' cs =>
    by_cases hij : j = i
    · simp only [Driver.place, if_pos hij] at h
      exact ⟨cs, by rw [hij, Place.waking.inj h]⟩
    · simp [Driver.place, hij] at h
  | removed j r cs | recorded j cs => by_cases hij : j = i <;> simp [Driver.place, hij] at h
  | _ => exact Place.noConfusion h

theorem place_of_ne_slab (h : w.place i ≠ .slab) : w.place i = w.driver.place i := by
  rw [place] at h ⊢
  split
  next hi => exact absurd (if_pos hi) h
  · rfl

/-- The future sleeps no longer. -/
def Woken (i k : ℕ) (w : World) : Prop :=
  ∃ o, w.ops[i]? = some o ∧ o.caller = .parked k true

theorem leadsTo_woken_of_waking {j : ℕ}
    (ho : w.ops[i]? = some o) (hc : o.caller = .parked k false) (hd : w.driver = .waking j k cs) :
    process.LeadsTo (fun l => l = .drive) (Woken i k) w := by
  have hs : process.step w .drive =
      some { w with driver := .dropping j cs, ops := w.ops.map (Op.wake k) } := by
    simp only [process, step, drive, hd]
  refine .of_step rfl hs (.now ⟨o.wake k, ?_, ?_⟩)
  · rw [getElem?_map, ho, map_some]
  · simp [Op.wake, hc, Caller.wake]

/-- **Nobody sleeps over a result.**  A future that sleeps with its result recorded is one that the
thread is just about to wake. -/
theorem woken_next (h : w.Kept) (ho : w.ops[i]? = some o)
    (hc : o.caller = .parked k false) (hr : o.result ≠ none) :
    (∃ cs, w.driver = .recorded i cs ∨ w.driver = .waking i k cs) ∧
      process.LeadsTo (fun l => l = .drive) (Woken i k) w := by
  have hfine := h.ops i o ho
  rcases hfine.asleep k hc with ⟨hk, hplace⟩ | hplace
  · have hrec : w.place i = .recorded := by
      have hnot := mt hfine.unrecorded.mpr hr
      cases hp : w.place i <;> simp_all [Place.keepsWaker]
    have hslab : w.place i ≠ .slab := by simp [hrec]
    obtain ⟨cs, hd⟩ := eq_recorded_of_place ((place_of_ne_slab hslab).symm.trans hrec)
    refine ⟨⟨cs, .inl hd⟩, ?_⟩
    have hs : process.step w .drive =
        some { w with
          driver := .waking i k cs
          ops := w.ops.modify i fun o => { o with waker := none } } := by
      simp only [process, step, drive, hd, ho, bind_some, hk]
    refine .of_step rfl hs (leadsTo_woken_of_waking (modify_self ho _) ?_ rfl)
    exact hc
  · have hslab : w.place i ≠ .slab := by simp [hplace]
    obtain ⟨cs, hd⟩ := eq_waking_of_place ((place_of_ne_slab hslab).symm.trans hplace)
    exact ⟨⟨cs, .inr hd⟩, leadsTo_woken_of_waking ho hc hd⟩

/-- **The protocol.**  However everybody interleaves: a buffer is in its `OpState` until the result
is recorded, and handed back at most once; a future that sleeps over its result is about to be
woken; and while the thread waits with something in `pending`, the eventfd is not zero or about to
be written, and its poll is in the ring. -/
theorem protocol (w : World) (h : process.Reachable w) : (∀ (i : ℕ) (o : Op), w.ops[i]? = some o →
      (o.result = none → o.buf = .held) ∧ o.handed ≤ 1 ∧
      ∀ k, o.caller = .parked k false → o.result ≠ none →
        (∃ cs, w.driver = .recorded i cs ∨ w.driver = .waking i k cs) ∧
          process.LeadsTo (fun l => l = .drive) (Woken i k) w) ∧
    (∀ i, .op i ∈ w.flight → ∃ o, w.ops[i]? = some o ∧ o.result = none ∧ o.buf = .held) ∧
    w.panicked = false ∧ (w.driver = .waiting → (w.pending ≠ [] → w.eventfd = 0 →
      ∃ (i : ℕ) (o : Op), w.ops[i]? = some o ∧ o.caller = .pushed) ∧
      .wake ∈ w.sq ++ w.kernel ++ w.cq.map Prod.fst) := by
  have hk := kept_of_reachable h
  have hf := flying_of_reachable h
  refine ⟨fun i o ho => ⟨(hk.ops i o ho).kept, ?_, fun k => woken_next hk ho⟩, fun i hi => ?_,
    hk.calm, fun hd => ⟨fun hp he => ?_, ?_⟩⟩
  · rw [(hk.ops i o ho).handed]
    split <;> decide
  · have hslab := hf.slab i hi
    obtain ⟨o, ho⟩ : ∃ o, w.ops[i]? = some o := ⟨_, getElem?_eq_getElem (hk.slab i hslab)⟩
    have hfine := hk.ops i o ho
    have hr : o.result = none := hfine.unrecorded.mpr (.inl (by rw [place, if_pos hslab]))
    exact ⟨o, ho, hr, hfine.kept hr⟩
  · obtain ⟨i, hi⟩ := exists_mem_of_ne_nil _ hp
    rcases roused_of_reachable h (by rw [hd]; rfl) i hi with hpos | ⟨o, ho, hc⟩
    · exact absurd he (ne_of_gt hpos)
    · exact ⟨i, o, ho, hc⟩
  · have harmed := hf.armed.mpr (by rw [hd]; rfl)
    simpa [flight, hd, Driver.entries] using harmed

theorem protocol_of_two :
    (∃ w, process.run process.init [.insert, .push 0, .write 0, .poll 0 5, .store 0, .recheck 0,
        .drive, .drive, .drive, .drive, .accept, .accept, .complete (.op 0) 7, .collect, .drive,
        .drive] = some w ∧ process.LeadsTo (fun l => l = .drive) (Woken 0 5) w) ∧
    ∃ w, process.run process.init [.drive, .drive, .drive, .insert, .push 0] = some w ∧
      w.driver = .waiting ∧ w.eventfd = 0 ∧
      ∃ (i : ℕ) (o : Op), w.ops[i]? = some o ∧ o.caller = .pushed := by
  constructor
  · refine Exists.imp (fun w hrun => ⟨hrun, ?_⟩) ⟨_, rfl⟩
    have hop := (protocol w ⟨_, hrun⟩).1 0
    cases hrun
    exact ((hop _ rfl).2.2 5 rfl nofun).2
  · refine Exists.imp (fun w hrun => ⟨hrun, ?_⟩) ⟨_, rfl⟩
    have hwait := (protocol w ⟨_, hrun⟩).2.2.2
    cases hrun
    exact ⟨rfl, rfl, (hwait rfl).1 nofun rfl⟩

end World

end RustyTokio.UringDriver

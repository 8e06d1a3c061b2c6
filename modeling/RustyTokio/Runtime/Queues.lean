import Mathlib.Data.List.Basic
import Mathlib.Tactic.Common
import RustyTokio.Transition.System

/-!
# Run queues and the threads that use them

`src/runtime/mod.rs`, `src/runtime/worker.rs`, `src/runtime/current_thread.rs` and
`src/runtime/context.rs`.  A process has any number of runtimes.
-/

namespace RustyTokio.Runtime

open Transition List

/-- `LocalQueues`: the queue of a current-thread runtime, or the stealing ends of
a multi-thread runtime, each the number of its deque. -/
inductive LocalQueues (τ : Type) where
  | currentThread (queue : List τ)
  | multiThread (stealers : List ℕ)
  deriving DecidableEq

structure Shared (τ : Type) where
  localQueues : LocalQueues τ
  injector : List τ
  deriving DecidableEq

/-- A call of `block_on` on the stack of a thread. -/
inductive Frame where
  | inner (previous : Option ℕ)
  | worker (runtime : ℕ) (previousIndex : Option ℕ) (previous : Option ℕ)
  deriving DecidableEq

structure Thread where
  workerIndex : Option ℕ
  localQueue : Option ℕ
  retired : Bool
  current : Option ℕ
  /-- The live `EnterGuard`s, each with what it restores. -/
  guards : List (Option ℕ)
  /-- The calls of `block_on` on the stack, innermost first. -/
  frames : List Frame
  /-- The worker loop at the bottom of the stack: its runtime and its index. -/
  serves : Option (ℕ × ℕ)
  exited : Bool
  deriving DecidableEq

def Thread.plain : Thread := ⟨none, none, false, none, [], [], none, false⟩

def Thread.worker (r idx deque : ℕ) : Thread :=
  ⟨some idx, some deque, false, some r, [], [], some (r, idx), false⟩

structure World (τ : Type) where
  runtimes : List (Shared τ)
  deques : List (List τ)
  threads : List Thread
  deriving DecidableEq

variable {τ : Type}

namespace World

def deque (w : World τ) (d : ℕ) : List τ := w.deques.getD d []

def setDeque (w : World τ) (d : ℕ) (l : List τ) : World τ := { w with deques := w.deques.set d l }

def setShared (w : World τ) (r : ℕ) (sh : Shared τ) : World τ :=
  { w with runtimes := w.runtimes.set r sh }

def setThread (w : World τ) (i : ℕ) (t : Thread) : World τ :=
  { w with threads := w.threads.set i t }

end World

/-! ## Pushing -/

def pushLocal (w : World τ) (t : Thread) (task : τ) : Option (World τ) :=
  t.localQueue.map fun d => w.setDeque d (w.deque d ++ [task])

def schedule (w : World τ) (t : Thread) (r : ℕ) (task : τ) : Option (World τ) :=
  w.runtimes[r]?.bind fun sh =>
    match sh.localQueues with
    | .currentThread queue =>
      some (w.setShared r { sh with localQueues := .currentThread (queue ++ [task]) })
    | .multiThread _ =>
      if t.workerIndex.isSome then pushLocal w t task
      else some (w.setShared r { sh with injector := sh.injector ++ [task] })

/-- Where a call of `schedule` puts the task. -/
inductive Schedules (w : World τ) (t : Thread) (r : ℕ) (task : τ) : World τ → Prop where
  | queue {sh queue} (hr : w.runtimes[r]? = some sh)
      (hq : sh.localQueues = .currentThread queue) : Schedules w t r task
        (w.setShared r { sh with localQueues := .currentThread (queue ++ [task]) })
  | deque {d} (hd : t.localQueue = some d) :
      Schedules w t r task (w.setDeque d (w.deque d ++ [task]))
  | injector {sh} (hr : w.runtimes[r]? = some sh) : Schedules w t r task
        (w.setShared r { sh with injector := sh.injector ++ [task] })

theorem schedules_of_schedule {w w' : World τ} {t : Thread} {r : ℕ} {task : τ}
    (h : schedule w t r task = some w') : Schedules w t r task w' := by
  obtain ⟨sh, hr, h⟩ := Option.bind_eq_some_iff.mp h
  split at h
  next queue hq =>
    cases h
    exact .queue hr hq
  · split at h
    · obtain ⟨d, hd, rfl⟩ := Option.map_eq_some_iff.mp h
      exact .deque hd
    · cases h
      exact .injector hr

/-! ## Popping -/

def popLocal (w : World τ) (d : ℕ) : Option (τ × World τ) :=
  match w.deque d with
  | [] => none
  | task :: rest => some (task, w.setDeque d rest)

def stealFromInjector (w : World τ) (r : ℕ) (sh : Shared τ) (d batch : ℕ) : Option (τ × World τ) :=
  match sh.injector with
  | [] => none
  | task :: rest =>
    some (task, (w.setShared r { sh with injector := rest.drop batch }).setDeque d
      (w.deque d ++ rest.take batch))

def stealFromSibling (w : World τ) (s d batch : ℕ) : Option (τ × World τ) :=
  if s = d then popLocal w d
  else match w.deque s with
  | [] => none
  | task :: rest =>
    some (task, (w.setDeque s (rest.drop batch)).setDeque d (w.deque d ++ rest.take batch))

/-- The order in which worker `idx` of `n` looks at its siblings. -/
def victims (idx n : ℕ) : List ℕ := (List.range' 1 (n - 1)).map fun offset => (idx + offset) % n

def nextTask (w : World τ) (t : Thread) (r idx batch : ℕ) : Option (τ × World τ) :=
  w.runtimes[r]?.bind fun sh =>
    match sh.localQueues with
    | .currentThread (task :: queue) =>
      some (task, w.setShared r { sh with localQueues := .currentThread queue })
    | .currentThread [] =>
      match sh.injector with
      | [] => none
      | task :: rest => some (task, w.setShared r { sh with injector := rest })
    | .multiThread stealers =>
      t.localQueue.bind fun d =>
        (popLocal w d).or ((stealFromInjector w r sh d batch).or
          ((victims idx stealers.length).findSome? fun v =>
            stealers[v]?.bind fun s => stealFromSibling w s d batch))

/-! ## The queues a call looks at -/

inductive Queue where
  | single (runtime : ℕ)
  | injector (runtime : ℕ)
  | deque (deque : ℕ)
  deriving DecidableEq

def World.contents (w : World τ) : Queue → List τ
  | .single r =>
    match w.runtimes[r]? with
    | some ⟨.currentThread queue, _⟩ => queue
    | _ => []
  | .injector r =>
    match w.runtimes[r]? with
    | some sh => sh.injector
    | none => []
  | .deque d => w.deque d

/-- The queues that `next_task` looks at, in its order. -/
def nextTaskQueues (w : World τ) (t : Thread) (r idx : ℕ) : List Queue :=
  match w.runtimes[r]? with
  | none => []
  | some sh =>
    match sh.localQueues with
    | .currentThread _ => [.single r, .injector r]
    | .multiThread stealers =>
      match t.localQueue with
      | none => []
      | some d =>
        .deque d :: .injector r ::
          ((victims idx stealers.length).filterMap fun v => stealers[v]?).map .deque

variable {w : World τ} {d batch n : ℕ}

theorem popLocal_eq_none : popLocal w d = none ↔ w.deque d = [] := by
  unfold popLocal
  cases w.deque d <;> simp

theorem stealFromInjector_eq_none {r : ℕ} {sh : Shared τ} :
    stealFromInjector w r sh d batch = none ↔ sh.injector = [] := by
  unfold stealFromInjector
  cases sh.injector <;> simp

theorem stealFromSibling_eq_none {s : ℕ} :
    stealFromSibling w s d batch = none ↔ w.deque s = [] := by
  unfold stealFromSibling
  by_cases h : s = d
  · rw [if_pos h, popLocal_eq_none, h]
  · rw [if_neg h]
    cases w.deque s <;> simp

theorem nextTask_eq_none_iff (w : World τ) (t : Thread) (r idx batch : ℕ) :
    nextTask w t r idx batch = none ↔ ∀ q ∈ nextTaskQueues w t r idx, w.contents q = [] := by
  unfold nextTask nextTaskQueues
  cases hr : w.runtimes[r]? with
  | none => simp
  | some sh =>
    obtain ⟨lq, inj⟩ := sh
    cases lq with
    | currentThread queue =>
      cases queue with
      | nil => cases inj <;> simp [World.contents, hr]
      | cons task queue => simp [World.contents, hr]
    | multiThread stealers =>
      cases t.localQueue with
      | none => simp
      | some d =>
        simp only [Option.bind_some]
        simp only [Option.or_eq_none_iff, popLocal_eq_none, stealFromInjector_eq_none,
          findSome?_eq_none_iff, Option.bind_eq_none_iff, stealFromSibling_eq_none,
          forall_mem_cons, forall_mem_map, mem_filterMap, World.contents, hr]
        constructor <;> rintro ⟨hd, hi, hs⟩
        · refine ⟨hd, hi, ?_⟩
          rintro s ⟨v, hv, hvs⟩
          exact hs v hv s hvs
        · exact ⟨hd, hi, fun v hv s hvs => hs s ⟨v, hv, hvs⟩⟩

theorem add_mod_cases {a o : ℕ} (ha : a < n) (ho : o < n) :
    (a + o) % n = if a + o < n then a + o else a + o - n := by
  split
  · exact Nat.mod_eq_of_lt (by assumption)
  · rw [Nat.mod_eq_sub_mod (by omega), Nat.mod_eq_of_lt (by omega)]

theorem mem_victims {idx v : ℕ} : v ∈ victims idx n ↔ v < n ∧ v ≠ idx % n := by
  unfold victims
  rw [mem_map]
  constructor
  · rintro ⟨o, ho, rfl⟩
    rw [mem_range'_1] at ho
    have hi : idx % n < n := Nat.mod_lt _ (by omega)
    rw [← Nat.mod_add_mod, add_mod_cases hi (by omega)]
    split <;> omega
  · rintro ⟨hv, hne⟩
    have hi : idx % n < n := Nat.mod_lt _ (by omega)
    by_cases hle : idx % n ≤ v
    · refine ⟨v - idx % n, mem_range'_1.mpr (by omega), ?_⟩
      rw [← Nat.mod_add_mod, add_mod_cases hi (by omega)]
      split <;> omega
    · refine ⟨v + n - idx % n, mem_range'_1.mpr (by omega), ?_⟩
      rw [← Nat.mod_add_mod, add_mod_cases hi (by omega)]
      split <;> omega

/-! ## The moves of a process -/

inductive Event (τ : Type) where
  | buildCurrentThread
  | buildMultiThread (n : ℕ)
  | startThread
  | blockOn (i r : ℕ)
  | blockOnReturn (i : ℕ)
  | enter (i r : ℕ)
  | dropGuard (i k : ℕ)
  | blockInPlace (i : ℕ)
  | retire (i : ℕ)
  | schedule (i r : ℕ) (task : τ)
  | workerNext (i batch : ℕ)
  | blockOnNext (i : ℕ)

def enterBlockOn (t : Thread) (r : ℕ) (sh : Shared τ) : Thread :=
  match sh.localQueues with
  | .currentThread _ =>
    { t with
      workerIndex := some 0, current := some r,
      frames := .worker r t.workerIndex t.current :: t.frames }
  | .multiThread _ => { t with current := some r, frames := .inner t.current :: t.frames }

def leaveBlockOn (t : Thread) : Option Thread :=
  match t.frames with
  | [] => none
  | .inner previous :: rest => some { t with current := previous, frames := rest }
  | .worker _ previousIndex previous :: rest =>
    some { t with workerIndex := previousIndex, current := previous, frames := rest }

/-- `block_in_place` on the ambient runtime: unless the thread is retired
already, a replacement with an empty deque takes its index, and it retires.
`none` is one of the panics of `Handle::block_in_place`. -/
def blockInPlace (w : World τ) (i : ℕ) (t : Thread) : Option (World τ) :=
  t.current.bind fun r =>
    match w.runtimes[r]? with
    | some ⟨.multiThread _, _⟩ =>
      t.workerIndex.map fun idx =>
        if t.retired then w
        else
          { w with
            deques := w.deques ++ [[]]
            threads := w.threads.set i { t with retired := true } ++
              [Thread.worker r idx w.deques.length] }
    | _ => none

/-- The end of `run` on a retired thread: what is left in its deque goes to the
injector of its runtime, and the thread exits. -/
def retire (w : World τ) (i : ℕ) (t : Thread) : Option (World τ) :=
  match t.serves, t.localQueue with
  | some (r, _), some d =>
    w.runtimes[r]?.bind fun sh =>
      if t.retired ∧ t.frames = [] then
        some (((w.setShared r { sh with injector := sh.injector ++ w.deque d }).setDeque d
          []).setThread i { t with exited := true })
      else none
  | _, _ => none

def buildMultiThread (w : World τ) (workers : ℕ) : World τ where
  runtimes := w.runtimes ++ [⟨.multiThread (List.range' w.deques.length workers), []⟩]
  deques := w.deques ++ List.replicate workers []
  threads := w.threads ++ (List.range workers).map fun idx =>
    Thread.worker w.runtimes.length idx (w.deques.length + idx)

def threadStep (w : World τ) (i : ℕ) (t : Thread) : Event τ → Option (World τ)
  | .blockOn _ r => w.runtimes[r]?.map fun sh => w.setThread i (enterBlockOn t r sh)
  | .blockOnReturn _ => (leaveBlockOn t).map (w.setThread i)
  | .enter _ r =>
    w.runtimes[r]?.map fun _ =>
      w.setThread i { t with current := some r, guards := t.guards ++ [t.current] }
  | .dropGuard _ k =>
    t.guards[k]?.map fun previous =>
      w.setThread i { t with current := previous, guards := t.guards.eraseIdx k }
  | .blockInPlace _ => blockInPlace w i t
  | .retire _ => retire w i t
  | .schedule _ r task => schedule w t r task
  | .workerNext _ batch =>
    t.serves.bind fun s =>
      if !t.retired && t.frames.isEmpty then (nextTask w t s.1 s.2 batch).map Prod.snd else none
  | .blockOnNext _ =>
    match t.frames with
    | .worker r _ _ :: _ => (nextTask w t r 0 0).map Prod.snd
    | _ => none
  | _ => none

def Event.actor : Event τ → Option ℕ
  | .buildCurrentThread | .buildMultiThread _ | .startThread => none
  | .blockOn i _ | .blockOnReturn i | .enter i _ | .dropGuard i _ | .blockInPlace i | .retire i
  | .schedule i _ _ | .workerNext i _ | .blockOnNext i => some i

def World.step (w : World τ) (e : Event τ) : Option (World τ) :=
  match e with
  | .buildCurrentThread =>
    some { w with runtimes := w.runtimes ++ [⟨.currentThread [], []⟩] }
  | .buildMultiThread n => some (buildMultiThread w (n + 1))
  | .startThread => some { w with threads := w.threads ++ [.plain] }
  | e =>
    e.actor.bind fun i =>
      w.threads[i]?.bind fun t => if t.exited then none else threadStep w i t e

theorem World.step_of_actor {e : Event τ} {i : ℕ} (hi : e.actor = some i) :
    w.step e = w.threads[i]?.bind fun t => if t.exited then none else threadStep w i t e := by
  cases e with
  | buildCurrentThread | buildMultiThread n | startThread => simp [Event.actor] at hi
  | _ =>
    cases hi
    rfl

def process (τ : Type) : System (World τ) (Event τ) where
  init := ⟨[], [], [.plain]⟩
  step := World.step

end RustyTokio.Runtime

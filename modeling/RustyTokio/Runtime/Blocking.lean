import RustyTokio.Transition.Pool
import RustyTokio.Transition.System

/-!
# The blocking pool

`src/runtime/blocking.rs`.  A call of `spawn` queues its job under the lock, notifies, and adds a
thread if fewer than `max_threads` are counted.  A thread takes jobs until the queue is empty for a
whole idle timeout.
-/

namespace RustyTokio.Blocking

open Transition List Option Pool

inductive Spawn where
  | push (job : ℕ)
  | notify
  | load
  | exchange (current : ℕ)
  | create
  | done
  deriving DecidableEq

inductive Worker where
  | head
  | running (job : ℕ)
  | waiting
  /-- It has decided to exit, and is about to lower the count. -/
  | leaving
  | notifying
  | exited
  deriving DecidableEq

namespace Spawn

def growing : Spawn → Bool
  | .notify | .load | .exchange _ | .create => true
  | _ => false

def creating : Spawn → Bool
  | .create => true
  | _ => false

def rest : Spawn → ℕ
  | .push _ => 3
  | .notify | .exchange _ => 2
  | .load | .create => 1
  | .done => 0

def weight (s : Spawn) : ℕ := s.creating.toNat

end Spawn

namespace Worker

def serves : Worker → Bool
  | .head | .running _ | .waiting => true
  | _ => false

def counted : Worker → Bool
  | .notifying | .exited => false
  | _ => true

def weight (t : Worker) : ℕ := t.counted.toNat

end Worker

/-- The head of the inner loop of `worker_loop`, under the lock. -/
def nextJob (shutdown : Bool) : List ℕ → List ℕ × Worker
  | job :: queue => (queue, .running job)
  | [] => ([], if shutdown then .leaving else .waiting)

/-- The inner loop of `worker_loop` from the end of a wait. -/
def awake (shutdown timedOut : Bool) (queue : List ℕ) : List ℕ × Worker :=
  if timedOut && queue.isEmpty then (queue, .leaving) else nextJob shutdown queue

structure World where
  queue : List ℕ
  shutdown : Bool
  liveThreads : ℕ
  spawns : List Spawn
  workers : List Worker
  deriving DecidableEq

inductive Label where
  | spawn (job : ℕ)
  | grow (i : ℕ)
  | work (k : ℕ)
  | wake (k : ℕ) (timedOut : Bool)
  | signalShutdown
  deriving DecidableEq

namespace World

def grow (max : ℕ) (w : World) (i : ℕ) : Spawn → Option World
  | .push job => some { w with queue := w.queue ++ [job], spawns := w.spawns.set i .notify }
  | .notify => some { w with spawns := w.spawns.set i .load }
  | .load =>
    if max ≤ w.liveThreads then some { w with spawns := w.spawns.set i .done }
    else some { w with spawns := w.spawns.set i (.exchange w.liveThreads) }
  | .exchange current =>
    if w.liveThreads = current then
      some { w with liveThreads := current + 1, spawns := w.spawns.set i .create }
    else some { w with spawns := w.spawns.set i .load }
  | .create => some { w with spawns := w.spawns.set i .done, workers := w.workers ++ [.head] }
  | .done => none

def work (w : World) (k : ℕ) : Worker → Option World
  | .head =>
    some
      { w with
        queue := (nextJob w.shutdown w.queue).1
        workers := w.workers.set k (nextJob w.shutdown w.queue).2 }
  | .running _ => some { w with workers := w.workers.set k .head }
  | .leaving =>
    some { w with liveThreads := w.liveThreads - 1, workers := w.workers.set k .notifying }
  | .notifying => some { w with workers := w.workers.set k .exited }
  | _ => none

def step (max : ℕ) (w : World) : Label → Option World
  | .spawn job => some { w with spawns := w.spawns ++ [.push job] }
  | .grow i => (w.spawns[i]?).bind fun s => w.grow max i s
  | .work k => (w.workers[k]?).bind fun t => w.work k t
  | .wake k timedOut =>
    if w.workers[k]? = some .waiting then
      some
        { w with
          queue := (awake w.shutdown timedOut w.queue).1
          workers := w.workers.set k (awake w.shutdown timedOut w.queue).2 }
    else none
  | .signalShutdown => some { w with shutdown := true }

/-! ## What a step can do -/

inductive Steps (max : ℕ) (w : World) : Label → World → Prop where
  | spawn {job} : Steps max w (.spawn job) { w with spawns := w.spawns ++ [.push job] }
  | push {i job} (hi : w.spawns[i]? = some (.push job)) :
      Steps max w (.grow i) { w with queue := w.queue ++ [job], spawns := w.spawns.set i .notify }
  | notify {i} (hi : w.spawns[i]? = some .notify) :
      Steps max w (.grow i) { w with spawns := w.spawns.set i .load }
  | returns {i} (hi : w.spawns[i]? = some .load) (hm : max ≤ w.liveThreads) :
      Steps max w (.grow i) { w with spawns := w.spawns.set i .done }
  | loads {i} (hi : w.spawns[i]? = some .load) (hm : w.liveThreads < max) :
      Steps max w (.grow i) { w with spawns := w.spawns.set i (.exchange w.liveThreads) }
  | raises {i} (hi : w.spawns[i]? = some (.exchange w.liveThreads)) :
      Steps max w (.grow i)
        { w with liveThreads := w.liveThreads + 1, spawns := w.spawns.set i .create }
  | retries {i current} (hi : w.spawns[i]? = some (.exchange current))
      (hne : w.liveThreads ≠ current) :
      Steps max w (.grow i) { w with spawns := w.spawns.set i .load }
  | creates {i} (hi : w.spawns[i]? = some .create) :
      Steps max w (.grow i)
        { w with spawns := w.spawns.set i .done, workers := w.workers ++ [.head] }
  | takes {l k t job queue} (hk : w.workers[k]? = some t) (ht : t.serves)
      (hq : w.queue = job :: queue) :
      Steps max w l { w with queue := queue, workers := w.workers.set k (.running job) }
  | stays {l k t t'} (hk : w.workers[k]? = some t) (ht : t.serves)
      (ht' : t'.serves) : Steps max w l { w with workers := w.workers.set k t' }
  | leaves {l k t} (hk : w.workers[k]? = some t) (ht : t.serves) (hq : w.queue = []) :
      Steps max w l { w with workers := w.workers.set k .leaving }
  | lowers {k} (hk : w.workers[k]? = some .leaving) :
      Steps max w (.work k)
        { w with liveThreads := w.liveThreads - 1, workers := w.workers.set k .notifying }
  | exits {k} (hk : w.workers[k]? = some .notifying) :
      Steps max w (.work k) { w with workers := w.workers.set k .exited }
  | signalShutdown : Steps max w .signalShutdown { w with shutdown := true }

section Steps

variable {max : ℕ} {w v : World} {l : Label}

theorem steps_nextJob {k : ℕ} {t : Worker} (hk : w.workers[k]? = some t) (ht : t.serves) :
    Steps max w l { w with
        queue := (nextJob w.shutdown w.queue).1
        workers := w.workers.set k (nextJob w.shutdown w.queue).2 } := by
  obtain ⟨queue, shutdown, liveThreads, spawns, workers⟩ := w
  cases queue with
  | cons job queue => exact .takes hk ht rfl
  | nil =>
    cases shutdown with
    | true => exact .leaves hk ht rfl
    | false => exact .stays hk ht rfl

theorem steps_grow {i : ℕ} {s : Spawn} (hi : w.spawns[i]? = some s)
    (h : w.grow max i s = some v) : Steps max w (.grow i) v := by
  cases s with
  | push job =>
    cases h
    exact .push hi
  | notify =>
    cases h
    exact .notify hi
  | load =>
    rw [grow] at h
    by_cases hm : max ≤ w.liveThreads
    · rw [if_pos hm] at h
      cases h
      exact .returns hi hm
    · rw [if_neg hm] at h
      cases h
      exact .loads hi (Nat.lt_of_not_le hm)
  | exchange current =>
    rw [grow] at h
    obtain rfl | hc := eq_or_ne w.liveThreads current
    · rw [if_pos rfl] at h
      cases h
      exact .raises hi
    · rw [if_neg hc] at h
      cases h
      exact .retries hi hc
  | create =>
    cases h
    exact .creates hi
  | done => simp [grow] at h

theorem steps_of_step (h : w.step max l = some v) : Steps max w l v := by
  cases l with
  | spawn job =>
    cases h
    exact .spawn
  | grow i =>
    obtain ⟨s, hi, h⟩ := bind_eq_some_iff.mp h
    exact steps_grow hi h
  | work k =>
    obtain ⟨t, hk, h⟩ := bind_eq_some_iff.mp h
    cases t with
    | head =>
      cases h
      exact steps_nextJob hk rfl
    | running job =>
      cases h
      exact .stays hk rfl rfl
    | leaving =>
      cases h
      exact .lowers hk
    | notifying =>
      cases h
      exact .exits hk
    | _ => simp [work] at h
  | wake k timedOut =>
    obtain ⟨hk, rfl⟩ := of_guard h
    rw [awake]
    by_cases ht : (timedOut && w.queue.isEmpty)
    · rw [if_pos ht]
      rw [Bool.and_eq_true, List.isEmpty_iff] at ht
      exact .leaves hk rfl ht.2
    · rw [if_neg ht]
      exact steps_nextJob hk rfl
  | signalShutdown =>
    cases h
    exact .signalShutdown

end Steps

end World

def blockingPool (max : ℕ) : System World Label where
  init := ⟨[], false, 0, [], []⟩
  step := World.step max

namespace World

variable {max : ℕ} {w v : World} {l : Label} {i k : ℕ} {s : Spawn} {t : Worker} {queue : List ℕ}

/-! ## The count -/

/-- `live_threads` counts the threads that serve and those being made, within `max`. -/
structure Counted (max : ℕ) (w : World) : Prop where
  live : w.liveThreads = Pool.total Spawn.weight w.spawns +
    Pool.total Worker.weight w.workers
  capped : w.liveThreads ≤ max
  loaded : ∀ current, .exchange current ∈ w.spawns → current < max

theorem Counted.loaded_set (h : w.Counted max) (i : ℕ) {s' : Spawn}
    (hl : ∀ current, s' = .exchange current → current < max) :
    ∀ current, .exchange current ∈ w.spawns.set i s' → current < max := by
  intro current hc
  rcases mem_or_eq_of_mem_set hc with hc | hc
  · exact h.loaded current hc
  · exact hl current hc.symm

theorem Counted.grows (h : w.Counted max) (hi : w.spawns[i]? = some s)
    (s' : Spawn) (hs : s'.creating = s.creating)
    (hl : ∀ current, s' = .exchange current → current < max) (queue : List ℕ) :
    Counted max { w with queue := queue, spawns := w.spawns.set i s' } := by
  have hset := total_set (f := Spawn.weight) s' hi
  refine ⟨?_, h.capped, h.loaded_set i hl⟩
  have hlive := h.live
  rw [Spawn.weight, Spawn.weight, hs] at hset
  change w.liveThreads = Pool.total _ (w.spawns.set i s') + Pool.total _ w.workers
  omega

theorem Counted.works (h : w.Counted max) (hk : w.workers[k]? = some t)
    (t' : Worker) (ht : t'.counted = t.counted) (queue : List ℕ) :
    Counted max { w with queue := queue, workers := w.workers.set k t' } := by
  have hset := total_set (f := Worker.weight) t' hk
  refine ⟨?_, h.capped, h.loaded⟩
  have hlive := h.live
  rw [Worker.weight, Worker.weight, ht] at hset
  change w.liveThreads = Pool.total _ w.spawns + Pool.total _ (w.workers.set k t')
  omega

theorem counted_of_serves (ht : t.serves) : t.counted := by
  cases t <;> simp_all [Worker.serves, Worker.counted]

theorem counted_of_step (h : w.Counted max) (hs : Steps max w l v) : v.Counted max := by
  have hlive := h.live
  cases hs with
  | spawn =>
    refine ⟨?_, h.capped, fun current hc => ?_⟩
    · change w.liveThreads = Pool.total _ (w.spawns ++ [_]) + _
      rw [total_append]
      exact hlive
    · rcases mem_append.mp hc with hc | hc
      · exact h.loaded current hc
      · cases mem_singleton.mp hc
  | push hi => exact h.grows hi .notify rfl (fun _ hc => absurd hc (by simp)) _
  | notify hi | retries hi hne => exact h.grows hi .load rfl (fun _ hc => absurd hc (by simp)) _
  | returns hi hm => exact h.grows hi .done rfl (fun _ hc => absurd hc (by simp)) _
  | loads hi hm =>
    refine h.grows hi (.exchange w.liveThreads) rfl (fun current hc => ?_) _
    rw [← Spawn.exchange.inj hc]
    exact hm
  | @raises i hi =>
    have hset := total_set (f := Spawn.weight) .create hi
    have hlt := h.loaded _ (mem_of_getElem? hi)
    refine ⟨?_, hlt, h.loaded_set i fun _ hc => absurd hc (by simp)⟩
    change w.liveThreads + 1 = Pool.total _ (w.spawns.set i .create) + Pool.total _ w.workers
    change _ + 0 = _ + 1 at hset
    omega
  | @creates i hi =>
    have hset := total_set (f := Spawn.weight) .done hi
    refine ⟨?_, h.capped, h.loaded_set i fun _ hc => absurd hc (by simp)⟩
    change w.liveThreads = Pool.total _ (w.spawns.set i .done) + Pool.total _ (w.workers ++ [_])
    rw [total_append]
    change _ + 1 = _ + 0 at hset
    change _ = _ + (_ + 1)
    omega
  | takes hk ht hq => exact h.works hk (.running _) (by rw [counted_of_serves ht]; rfl) _
  | stays hk ht ht' =>
    exact h.works hk _ (by rw [counted_of_serves ht, counted_of_serves ht']) w.queue
  | leaves hk ht hq => exact h.works hk .leaving (by rw [counted_of_serves ht]; rfl) w.queue
  | @lowers k hk =>
    have hset := total_set (f := Worker.weight) .notifying hk
    have hle := h.capped
    refine ⟨?_, ?_, h.loaded⟩
    · change w.liveThreads - 1 =
        Pool.total _ w.spawns + Pool.total _ (w.workers.set k .notifying)
      change _ + 1 = _ + 0 at hset
      omega
    · change w.liveThreads - 1 ≤ max
      omega
  | exits hk => exact h.works hk .exited rfl w.queue
  | signalShutdown => exact ⟨hlive, h.capped, h.loaded⟩

/-- A job is queued, no call of `spawn` is in progress, and every thread has decided to exit. -/
def Stranded (w : World) : Prop :=
  w.queue ≠ [] ∧ (∀ s ∈ w.spawns, s = .done) ∧ ∀ t ∈ w.workers, t.serves = false

/-- A call finds `max_threads` threads counted while a job is queued; but every thread has
decided to exit, and no other call has raised the count for a thread it has yet to create. -/
def abandons (max : ℕ) (w : World) : Label → Bool
  | .grow i =>
    decide (w.spawns[i]? = some .load ∧ max ≤ w.liveThreads ∧ w.queue ≠ []) &&
      w.workers.all (fun t => !t.serves) && w.spawns.all fun s => !s.creating
  | _ => false

/-- **Somebody will look at the queue**, if there is a job in it. -/
def Attended (w : World) : Prop :=
  w.queue = [] ∨ (∃ s ∈ w.spawns, s.growing = true) ∨ ∃ t ∈ w.workers, t.serves = true

theorem Attended.not_stranded (h : w.Attended) : ¬ w.Stranded := by
  rintro ⟨hq, hs, ht⟩
  rcases h with h | ⟨s, hmem, hg⟩ | ⟨t, hmem, hg⟩
  · exact hq h
  · rw [hs s hmem] at hg
    cases hg
  · cases (ht t hmem).symm.trans hg

/-- A job is queued, no thread serves, and none will be made. -/
structure Abandoned (max : ℕ) (w : World) : Prop where
  queued : w.queue ≠ []
  left : ∀ t ∈ w.workers, t.serves = false
  full : max ≤ w.liveThreads
  loaded : ∀ current, .exchange current ∈ w.spawns → current < max
  counted : ∀ s ∈ w.spawns, s.creating = false

theorem Abandoned.grows (h : w.Abandoned max) (s : Spawn)
    (hq : queue ≠ []) (hs : s.creating = false) (hx : ∀ current, s ≠ .exchange current) :
    Abandoned max { w with queue := queue, spawns := w.spawns.set i s } where
  queued := hq
  left := h.left
  full := h.full
  loaded current hc := by
    rcases mem_or_eq_of_mem_set hc with hc | hc
    · exact h.loaded current hc
    · exact absurd hc.symm (hx current)
  counted t ht := by
    rcases mem_or_eq_of_mem_set ht with ht | rfl
    · exact h.counted t ht
    · exact hs

theorem Abandoned.step (h : w.Abandoned max) (hi : w.spawns[i]? = some s) (hs : s ≠ .done) :
    ∃ s' v, w.step max (.grow i) = some v ∧ v.Abandoned max ∧
      v.spawns = w.spawns.set i s' ∧ s'.rest < s.rest := by
  have hmem := mem_of_getElem? hi
  cases s with
  | push job =>
    have hq : w.queue ++ [job] ≠ [] := by simp
    refine ⟨.notify, _, ?_, h.grows .notify hq rfl (by simp), rfl, Nat.lt_succ_self 2⟩
    simp only [World.step, hi, bind_some, grow]
  | notify =>
    refine ⟨.load, _, ?_, h.grows .load h.queued rfl (by simp), rfl, by decide⟩
    simp only [World.step, hi, bind_some, grow]
  | load =>
    refine ⟨.done, _, ?_, h.grows .done h.queued rfl (by simp), rfl, by decide⟩
    simp only [World.step, hi, bind_some, grow, if_pos h.full]
  | exchange current =>
    have hlt := h.loaded current hmem
    have hfull := h.full
    refine ⟨.load, _, ?_, h.grows .load h.queued rfl (by simp), rfl, Nat.lt_succ_self 1⟩
    simp only [World.step, hi, bind_some, grow]
    rw [if_neg (by omega)]
  | create => exact absurd (h.counted _ hmem) (by simp [Spawn.creating])
  | done => exact absurd rfl hs

theorem Abandoned.stranded :
    ∀ (n : ℕ) (w : World), Pool.total Spawn.rest w.spawns = n → w.Abandoned max →
      (blockingPool max).LeadsTo (fun l => ∃ i, l = .grow i) Stranded w := by
  intro n
  induction n using Nat.strongRecOn with
  | _ n ih =>
    intro w hn h
    by_cases hdone : ∀ s ∈ w.spawns, s = .done
    · exact .now ⟨h.queued, hdone, h.left⟩
    · obtain ⟨s, hs⟩ := not_forall.mp hdone
      obtain ⟨hmem, hs⟩ := Classical.not_imp.mp hs
      obtain ⟨i, hi⟩ := getElem?_of_mem hmem
      obtain ⟨s', v, hstep, hv, hspawns, hlt⟩ := h.step hi hs
      have hset := total_set (f := Spawn.rest) s' hi
      refine .of_step ⟨i, rfl⟩ hstep (ih _ ?_ v rfl hv)
      rw [hspawns]
      omega

end World

end RustyTokio.Blocking

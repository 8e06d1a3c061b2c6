import RustyTokio.Transition.System

/-!
# `process::Child`

A `Child` has the child of `std` in `inner` until its exit is known, and the exit in `status` from
then on.  `wait` moves `inner` into a closure on the blocking pool and awaits it.  A `wait` that is
dropped there, or that comes back with an error, leaves neither.
-/

namespace RustyTokio.Process

open Transition Option

inductive Life where
  | running
  | exited (status : ℕ)
  | reaped (status : ℕ)
  deriving DecidableEq

inductive Job where
  | blocked
  | done (status : ℕ)
  | failed
  deriving DecidableEq

inductive Use where
  | idle
  | waiting
  | dropped
  deriving DecidableEq

inductive Event where
  | waited (status : ℕ)
  | waitFailed
  | waitPanicked
  | tried (process : Life) (result : Option ℕ)
  | tryFailed
  /-- `kill` has returned, with the process reaped through this `Child` or not, and has sent the
  signal or not. -/
  | killed (reaped signalled : Bool)
  | dropped (killOnDrop reaped signalled : Bool)
  deriving DecidableEq

/-- The call has done what it should: `wait` does not panic, `try_wait` returns the status if the
process has exited, and `kill` and the drop of a `kill_on_drop` child send the signal unless the
process was reaped. -/
def Event.sound : Event → Bool
  | .waitPanicked => false
  | .tried .running result => result == none
  | .tried (.exited status) result => result == some status
  | .tried (.reaped status) result => result == some status
  | .killed reaped signalled => reaped || signalled
  | .dropped killOnDrop reaped signalled => !killOnDrop || reaped || signalled
  | _ => true

structure World where
  process : Life
  inner : Bool
  status : Option ℕ
  killOnDrop : Bool
  use : Use
  /-- The closure that has the child of `std`. -/
  job : Option Job
  events : List Event
  deriving DecidableEq

inductive Label where
  | exit (status : ℕ)
  | wait
  | reap
  | fail
  | finish
  | dropWait
  | tryWait (fails : Bool)
  | kill
  | drop (runtime : Bool)
  deriving DecidableEq

namespace World

def record (w : World) (e : Event) : World := { w with events := w.events ++ [e] }

/-- `Child::wait`, up to its `await` or its return. -/
def wait (w : World) : World :=
  match w.status with
  | some status => w.record (.waited status)
  | none =>
    if w.inner then { w with inner := false, job := some .blocked, use := .waiting }
    else w.record .waitPanicked

def finish (w : World) : Option World :=
  match w.job with
  | some (.done status) =>
    some ({ w with status := some status, job := none, use := .idle }.record (.waited status))
  | some .failed => some ({ w with job := none, use := .idle }.record .waitFailed)
  | _ => none

def tryWait (w : World) (fails : Bool) : World :=
  match w.status with
  | some status => w.record (.tried w.process (some status))
  | none =>
    if w.inner then
      if fails then w.record .tryFailed
      else
        match w.process with
        | .running => w.record (.tried .running none)
        | .exited status =>
          { w with process := .reaped status, status := some status, inner := false }.record
            (.tried (.exited status) (some status))
        | .reaped status =>
          { w with status := some status, inner := false }.record
            (.tried (.reaped status) (some status))
    else w.record (.tried w.process none)

def kill (w : World) : World := w.record (.killed w.status.isSome w.inner)

def drop (w : World) (runtime : Bool) : World :=
  if w.killOnDrop && w.inner then
    { w with
      inner := false
      use := .dropped
      job := if runtime then some .blocked else none }.record
        (.dropped true w.status.isSome true)
  else { w with use := .dropped }.record (.dropped w.killOnDrop w.status.isSome false)

def step (w : World) : Label → Option World
  | .exit status =>
    if w.process = .running then some { w with process := .exited status } else none
  | .reap =>
    match w.job, w.process with
    | some .blocked, .exited status =>
      some { w with process := .reaped status, job := some (.done status) }
    | _, _ => none
  | .fail => if w.job = some .blocked then some { w with job := some .failed } else none
  | .wait => if w.use = .idle then some w.wait else none
  | .finish => if w.use = .waiting then w.finish else none
  | .dropWait => if w.use = .waiting then some { w with use := .idle } else none
  | .tryWait fails => if w.use = .idle then some (w.tryWait fails) else none
  | .kill => if w.use = .idle then some w.kill else none
  | .drop runtime => if w.use = .idle then some (w.drop runtime) else none

end World

def child (killOnDrop : Bool) : System World Label where
  init := ⟨.running, true, none, killOnDrop, .idle, none, []⟩
  step := World.step

namespace World

/-- One of `inner` and `status` is there, unless a `wait` is pending. -/
def InSync (w : World) : Prop := w.use = .idle → w.status = none → w.inner = true

/-- A pending `wait` is dropped, or comes back with an error. -/
def loses (w : World) : Label → Bool
  | .dropWait => true
  | .finish => w.job == some .failed
  | _ => false

/-! ## Without a loss -/

/-- The handle, the blocking job and the process agree. -/
def Held (w : World) : Prop :=
  match w.use with
  | .idle =>
    (w.status = none ∧ w.inner = true ∧ w.job = none ∧ ∀ c, w.process ≠ .reaped c) ∨
      ∃ c, w.status = some c ∧ w.process = .reaped c ∧ w.inner = false ∧ w.job = none
  | .waiting =>
    w.status = none ∧ w.inner = false ∧ ∃ j, w.job = some j ∧
      (∀ c, j = .done c → w.process = .reaped c) ∧ (j = .blocked → ∀ c, w.process ≠ .reaped c)
  | .dropped => True

theorem Held.inSync {w : World} (h : w.Held) : w.InSync := by
  intro huse hstatus
  rw [Held, huse] at h
  rcases h with h | ⟨c, hc, -⟩
  · exact h.2.1
  · rw [hstatus] at hc
    cases hc

structure Kept (w : World) : Prop where
  held : w.Held
  sound : ∀ e ∈ w.events, e.sound = true

variable {v : World} {killOnDrop : Bool} {l : Label}

theorem Kept.record {w : World} (h : w.Kept) {e : Event} (hv : v.Held)
    (hevents : v.events = w.events) (he : e.sound) : (v.record e).Kept := by
  refine ⟨hv, fun e' hmem => ?_⟩
  rcases List.mem_append.mp hmem with hmem | hmem
  · exact h.sound e' (hevents ▸ hmem)
  · rw [List.mem_singleton.mp hmem]
    exact he

section Calls

variable {w : World}

theorem held_idle (h : w.Held) (hu : w.use = .idle) :
    (w.status = none ∧ w.inner ∧ w.job = none ∧ ∀ c, w.process ≠ .reaped c) ∨
      ∃ c, w.status = some c ∧ w.process = .reaped c ∧ w.inner = false ∧ w.job = none := by
  rw [Held, hu] at h
  exact h

theorem held_waiting (h : w.Held) (hu : w.use = .waiting) :
    w.status = none ∧ w.inner = false ∧ ∃ j, w.job = some j ∧
      (∀ c, j = .done c → w.process = .reaped c) ∧ (j = .blocked → ∀ c, w.process ≠ .reaped c) := by
  rw [Held, hu] at h
  exact h

theorem held_of_reaped {c : ℕ} (hu : w.use = .idle) (hs : w.status = some c)
    (hp : w.process = .reaped c) (hi : w.inner = false) (hj : w.job = none) : w.Held := by
  rw [Held, hu]
  exact .inr ⟨c, hs, hp, hi, hj⟩

theorem kept_wait (h : w.Kept) (hu : w.use = .idle) : w.wait.Kept := by
  rcases held_idle h.held hu with ⟨hs, hi, hj, hp⟩ | ⟨c, hs, -⟩
  · simp only [wait, hs, hi, if_true]
    exact ⟨⟨rfl, rfl, .blocked, rfl, by simp, fun _ => hp⟩, h.sound⟩
  · simp only [wait, hs]
    exact h.record h.held rfl rfl

theorem kept_finish {v : World} (h : w.Kept) (hu : w.use = .waiting)
    (hl : w.loses .finish = false) (hs : w.finish = some v) : v.Kept := by
  obtain ⟨-, hi, j, hj, hdone, -⟩ := held_waiting h.held hu
  cases j with
  | blocked => simp [finish, hj] at hs
  | failed => simp [loses, hj] at hl
  | done c =>
    simp only [finish, hj] at hs
    cases hs
    exact h.record (held_of_reaped rfl rfl (hdone c rfl) hi rfl) rfl rfl

theorem kept_tryWait (h : w.Kept) (hu : w.use = .idle) (fails : Bool) : (w.tryWait fails).Kept := by
  rcases held_idle h.held hu with ⟨hs, hi, hj, hp⟩ | ⟨c, hs, hp, -⟩
  · simp only [tryWait, hs, hi, if_true]
    split
    · exact h.record h.held rfl rfl
    · cases hlife : w.process with
      | running => exact h.record h.held rfl rfl
      | exited c => exact h.record (held_of_reaped hu rfl rfl rfl hj) rfl (by simp [Event.sound])
      | reaped c => exact absurd hlife (hp c)
  · simp only [tryWait, hs]
    exact h.record h.held rfl (by simp [Event.sound, hp])

theorem kept_kill (h : w.Kept) (hu : w.use = .idle) : w.kill.Kept := by
  refine h.record h.held rfl ?_
  rcases held_idle h.held hu with ⟨-, hi, -⟩ | ⟨c, hs, -⟩
  · simp [Event.sound, hi]
  · simp [Event.sound, hs]

theorem kept_drop (h : w.Kept) (hu : w.use = .idle) (runtime : Bool) : (w.drop runtime).Kept := by
  rw [drop]
  split
  · exact h.record trivial rfl (by simp [Event.sound])
  next hkill =>
    refine h.record trivial rfl ?_
    rcases held_idle h.held hu with ⟨-, hi, -⟩ | ⟨c, hs, -⟩
    · simp only [hi, Bool.and_true, Bool.not_eq_true] at hkill
      simp [Event.sound, hkill]
    · simp [Event.sound, hs]

end Calls

theorem held_exit {w : World} (h : w.Held) (hp : w.process = .running) (c : ℕ) :
    Held { w with process := .exited c } := by
  cases hu : w.use with
  | idle =>
    rcases held_idle h hu with ⟨hs, hi, hj, -⟩ | ⟨c', -, hp', -⟩
    · exact .inl ⟨hs, hi, hj, by simp⟩
    · cases hp.symm.trans hp'
  | waiting =>
    obtain ⟨hs, hi, j, hj, hdone, -⟩ := held_waiting h hu
    exact ⟨hs, hi, j, hj, fun c' hc => absurd (hp.symm.trans (hdone c' hc)) (by simp), by simp⟩
  | dropped => trivial

theorem held_job {w : World} (h : w.Held) (hj : w.job = some .blocked) {j : Job} {p : Life}
    (hj' : j ≠ .blocked) (hdone : ∀ c, j = .done c → p = .reaped c) :
    Held { w with process := p, job := some j } := by
  cases hu : w.use with
  | idle =>
    rcases held_idle h hu with ⟨-, -, hn, -⟩ | ⟨c, -, -, -, hn⟩ <;> cases hj.symm.trans hn
  | waiting =>
    obtain ⟨hs, hi, -⟩ := held_waiting h hu
    exact ⟨hs, hi, j, rfl, hdone, fun hb => absurd hb hj'⟩
  | dropped => trivial

theorem kept_of_step {w : World} (h : w.Kept) (hl : w.loses l = false)
    (hs : w.step l = some v) : v.Kept := by
  cases l with
  | exit c =>
    obtain ⟨hp, rfl⟩ := of_guard hs
    exact ⟨held_exit h.held hp c, h.sound⟩
  | reap =>
    simp only [step] at hs
    split at hs
    next c hj hp =>
      cases hs
      refine ⟨held_job h.held hj (by simp) fun c' hc => ?_, h.sound⟩
      rw [Job.done.inj hc]
    · cases hs
  | fail =>
    obtain ⟨hj, rfl⟩ := of_guard hs
    exact ⟨held_job h.held hj (by simp) (by simp), h.sound⟩
  | wait =>
    obtain ⟨hu, rfl⟩ := of_guard hs
    exact kept_wait h hu
  | finish =>
    obtain ⟨hu, hs⟩ := ite_none_right_eq_some.mp hs
    exact kept_finish h hu hl hs
  | dropWait => simp [loses] at hl
  | tryWait fails =>
    obtain ⟨hu, rfl⟩ := of_guard hs
    exact kept_tryWait h hu fails
  | kill =>
    obtain ⟨hu, rfl⟩ := of_guard hs
    exact kept_kill h hu
  | drop runtime =>
    obtain ⟨hu, rfl⟩ := of_guard hs
    exact kept_drop h hu runtime

theorem kept_of_reachableUnder {w : World}
    (h : (child killOnDrop).ReachableUnder (fun w l => w.loses l = false) w) : w.Kept := by
  have hinit : (child killOnDrop).init.Held := .inl ⟨rfl, rfl, rfl, by simp [child]⟩
  exact System.inv_of_reachableUnder (I := Kept) ⟨hinit, by simp [child]⟩
    (fun _ _ _ hI hl hs => kept_of_step hI hl hs) h

/-! ## After a loss -/

def Bare (w : World) : Prop := w.use = .waiting → w.status = none ∧ w.inner = false

theorem bare_of_step {w : World} (h : w.Bare) (hs : w.step l = some v) : v.Bare := by
  cases l with
  | exit c | fail =>
    obtain ⟨-, rfl⟩ := of_guard hs
    exact h
  | reap =>
    simp only [step] at hs
    split at hs
    · exact some.inj hs ▸ h
    · cases hs
  | wait =>
    obtain ⟨hu, rfl⟩ := of_guard hs
    intro hw
    cases hst : w.status with
    | some c => simp [World.wait, hst, record, hu] at hw
    | none =>
      cases hi : w.inner with
      | true => simp [World.wait, hst, hi]
      | false => simp [World.wait, hst, hi, record, hu] at hw
  | finish =>
    obtain ⟨-, hs⟩ := ite_none_right_eq_some.mp hs
    simp only [World.finish] at hs
    split at hs
    · exact some.inj hs ▸ fun hw => absurd hw (by simp [record])
    · exact some.inj hs ▸ fun hw => absurd hw (by simp [record])
    · cases hs
  | dropWait =>
    obtain ⟨-, rfl⟩ := of_guard hs
    exact fun hw => absurd hw (by simp)
  | tryWait fails =>
    obtain ⟨hu, rfl⟩ := of_guard hs
    intro hw
    have huse : (w.tryWait fails).use = .idle := by
      simp only [World.tryWait]
      repeat' split
      all_goals exact hu
    cases huse.symm.trans hw
  | kill =>
    obtain ⟨hu, rfl⟩ := of_guard hs
    exact fun hw => absurd (hu.symm.trans hw) (by simp)
  | drop runtime =>
    obtain ⟨-, rfl⟩ := of_guard hs
    intro hw
    have huse : (w.drop runtime).use = .dropped := by
      rw [World.drop]
      split <;> rfl
    cases huse.symm.trans hw

theorem bare_of_reachable {w : World} (h : (child killOnDrop).Reachable w) : w.Bare :=
  System.inv_of_reachable (I := Bare) (fun hw => absurd hw (by simp [child]))
    (fun _ _ _ hI hs => bare_of_step hI hs) h

/-- The handle has neither the process nor its status. -/
structure Lost (w : World) : Prop where
  idle : w.use = .idle
  status : w.status = none
  inner : w.inner = false

theorem lost_of_loses {w : World} (h : w.Bare) (hl : w.loses l)
    (hs : w.step l = some v) : v.Lost := by
  cases l with
  | dropWait =>
    obtain ⟨hu, rfl⟩ := of_guard hs
    exact ⟨rfl, (h hu).1, (h hu).2⟩
  | finish =>
    obtain ⟨hu, hs⟩ := ite_none_right_eq_some.mp hs
    have hj : w.job = some .failed := by simpa [loses] using hl
    simp only [World.finish, hj] at hs
    exact some.inj hs ▸ ⟨rfl, (h hu).1, (h hu).2⟩
  | _ => cases hl

/-- **A `Child` stays usable, unless a `wait` is lost.**  As long as no pending `wait` is dropped
and none fails, one of `inner` and `status` is there between calls, and every call does what it
should.  After one that is dropped or fails, none is there: `wait` panics, `try_wait` returns
`None`, and `kill` and the drop send nothing. -/
theorem inSync_unless_loses (killOnDrop : Bool) (w : World) :
    ((child killOnDrop).ReachableUnder (fun w l => w.loses l = false) w →
      w.InSync ∧ ∀ e ∈ w.events, e.sound = true) ∧
    ∀ l v, (child killOnDrop).Reachable w → w.loses l = true → w.step l = some v → ¬ v.InSync ∧
      v.step .wait = some (v.record .waitPanicked) ∧
      (∀ fails, v.step (.tryWait fails) = some (v.record (.tried v.process none))) ∧
      v.step .kill = some (v.record (.killed false false)) ∧ ∀ runtime, v.step (.drop runtime) =
        some ({ v with use := .dropped }.record (.dropped v.killOnDrop false false)) := by
  constructor
  · intro h
    have hk := kept_of_reachableUnder h
    exact ⟨hk.held.inSync, hk.sound⟩
  · intro l v hr hl hs
    have hlost := lost_of_loses (bare_of_reachable hr) hl hs
    have hi := hlost.inner
    have hst := hlost.status
    refine ⟨fun hsync => ?_, ?_, fun fails => ?_, ?_, fun runtime => ?_⟩
    · cases hi.symm.trans (hsync hlost.idle hst)
    · simp [step, hlost.idle, World.wait, hst, hi]
    · simp [step, hlost.idle, World.tryWait, hst, hi]
    · simp [step, hlost.idle, World.kill, hst, hi]
    · simp [step, hlost.idle, World.drop, hst, hi]

theorem inSync_after_wait : (∃ w, (child true).ReachableUnder (fun w l => w.loses l = false) w ∧
      w.events = [.waited 9, .killed true false] ∧ w.InSync) ∧
    ∃ w v : World, w.step .dropWait = some v ∧ ¬ v.InSync := by
  constructor
  · have hr : (child true).ReachableUnder (fun w l => w.loses l = false) _ :=
      ⟨[.wait, .exit 9, .reap, .finish, .kill], rfl, by decide⟩
    exact ⟨_, hr, rfl, ((inSync_unless_loses true _).1 hr).1⟩
  · have hw : ∃ w v : World, (child true).Reachable w ∧ w.step .dropWait = some v :=
      ⟨_, _, ⟨[.wait], rfl⟩, rfl⟩
    obtain ⟨w, v, hr, hs⟩ := hw
    exact ⟨w, v, hs, ((inSync_unless_loses true w).2 .dropWait v hr rfl hs).1⟩

/-- A `wait` is dropped while pending, and the process exits.  Then `try_wait` returns `None`,
`kill` and the drop of the `kill_on_drop` child send nothing, and another `wait` panics.  And a
`wait` that fails leaves the same behind. -/
theorem exists_lost :
    (∃ w, (child true).run (child true).init [.wait, .dropWait, .kill, .exit 9, .tryWait false,
        .wait, .drop true] = some w ∧
      w.events = [.killed false false, .tried (.exited 9) none, .waitPanicked,
        .dropped true false false]) ∧
    ∃ w, (child true).run (child true).init [.wait, .fail, .finish, .kill, .wait] = some w ∧
      w.events = [.waitFailed, .killed false false, .waitPanicked] ∧ ¬ w.InSync :=
  ⟨⟨_, rfl, rfl⟩, ⟨_, rfl, rfl, fun h => Bool.false_ne_true (h rfl rfl)⟩⟩

end World

end RustyTokio.Process

import RustyTokio.Task.Coop
import RustyTokio.Transition.System

/-!
# The budget under nested executor loops

`BUDGET` belongs to the thread, and only `Task::run` gives out a fresh one, by `coop::budget`, which
puts back what was there before.
-/

namespace RustyTokio.Coop

open Transition List Option

def defaultBudget : ℕ := 128

/-- The loops that poll a future of their own until it is ready. -/
inductive Loop where
  | blockOnInner
  | currentThread
  | drive
  | localRuntime
  deriving DecidableEq

namespace Loop

def runsTasks : Loop → Bool
  | .currentThread | .localRuntime => true
  | _ => false

def runsLocalTasks : Loop → Bool
  | .drive | .localRuntime => true
  | _ => false

end Loop

inductive Frame where
  | task (previous : Option ℕ)
  | localTask
  | unconstrained (previous : Option ℕ)
  /-- A loop, which is polling its own future or not. -/
  | loop (kind : Loop) (polling : Bool)
  deriving DecidableEq

namespace Frame

def isUser : Frame → Bool
  | .loop _ polling => polling
  | _ => true

/-- The budget after the call returns.  A loop returns when its future is ready. -/
def returned (budget : Option ℕ) : Frame → Option (Option ℕ)
  | .task previous => some previous
  | .localTask => some budget
  | .unconstrained previous => some previous
  | .loop _ true => some budget
  | .loop _ false => none

/-- The budget after the code of the user panics.  `Task::run` catches the panic inside of
`budget`; `with_unconstrained` puts nothing back. -/
def unwound (budget : Option ℕ) : Frame → Option (Option ℕ)
  | .task previous => some previous
  | .localTask => some budget
  | .unconstrained _ => some budget
  | .loop _ true => some budget
  | .loop _ false => none

end Frame

structure World where
  budget : Option ℕ
  stack : List Frame
  /-- The polls that loops have issued of their own futures, with the budget each started with. -/
  polls : List (Loop × Option ℕ)
  deriving DecidableEq

inductive Label where
  | runTask
  | runLocalTask
  | enter (kind : Loop)
  | poll
  | charge
  | unconstrained
  | pending
  | returns
  | unwinds
  deriving DecidableEq

namespace World

def userRuns (w : World) : Bool := w.stack.head?.all Frame.isUser

def canRunTask (w : World) : Bool :=
  match w.stack with
  | [] => true
  | .loop kind false :: _ => kind.runsTasks
  | _ => false

def canRunLocalTask (w : World) : Bool :=
  match w.stack with
  | .loop kind false :: _ => kind.runsLocalTasks
  | _ => false

def pop (w : World) (after : Option ℕ → Frame → Option (Option ℕ)) : Option World :=
  match w.stack with
  | [] => none
  | frame :: rest =>
    (after w.budget frame).map fun budget => { w with budget := budget, stack := rest }

def step (w : World) : Label → Option World
  | .runTask =>
    if w.canRunTask then
      some { w with budget := some defaultBudget, stack := .task w.budget :: w.stack }
    else none
  | .runLocalTask =>
    if w.canRunLocalTask then some { w with stack := .localTask :: w.stack } else none
  | .enter kind =>
    if w.userRuns then some { w with stack := .loop kind false :: w.stack } else none
  | .poll =>
    match w.stack with
    | .loop kind false :: rest =>
      some
        { w with stack := .loop kind true :: rest, polls := w.polls ++ [(kind, w.budget)] }
    | _ => none
  | .charge =>
    -- a spent budget stays spent; the caller has woken its own task
    if w.userRuns then some { w with budget := (pollProceed w.budget).getD w.budget } else none
  | .unconstrained =>
    if w.userRuns then
      some { w with budget := none, stack := .unconstrained w.budget :: w.stack }
    else none
  | .pending =>
    match w.stack with
    | .loop kind true :: rest => some { w with stack := .loop kind false :: rest }
    | _ => none
  | .returns => w.pop Frame.returned
  | .unwinds => w.pop Frame.unwound

end World

def thread : System World Label where
  init := ⟨none, [], []⟩
  step := World.step

namespace World

/-- A loop has polled its future with a budget that is spent. -/
def Starved (w : World) : Prop := ∃ kind, (kind, some 0) ∈ w.polls

/-- A loop is called where a budget is in effect. -/
def metered (w : World) : Label → Bool
  | .enter _ => w.budget.isSome
  | _ => false

/-! ## Loops without a budget -/

/-- In every loop and `unconstrained` the budget is off. -/
def Free : Option ℕ → List Frame → Prop
  | _, [] => True
  | _, .task previous :: rest => Free previous rest
  | budget, .localTask :: rest => Free budget rest
  | budget, .unconstrained previous :: rest => budget = none ∧ Free previous rest
  | budget, .loop _ _ :: rest => budget = none ∧ Free budget rest

variable {budget : Option ℕ} {stack : List Frame} {budget' : Option ℕ} {frame : Frame}
  {rest : List Frame} {w v : World}

theorem Free.weaken (h : Free budget stack) : Free none stack := by
  induction stack with
  | nil => trivial
  | cons frame rest ih =>
    cases frame with
    | task previous => exact h
    | localTask => exact ih h
    | unconstrained previous => exact ⟨rfl, h.2⟩
    | loop kind polling => exact ⟨rfl, ih h.2⟩

theorem Free.change {n : ℕ} (budget : Option ℕ) (h : Free (some n) stack) : Free budget stack := by
  induction stack with
  | nil => trivial
  | cons frame rest ih =>
    cases frame with
    | task previous => exact h
    | localTask => exact ih h
    | unconstrained previous | loop kind polling => exact absurd h.1 (by simp)

theorem Free.charge (h : Free budget stack) : Free ((pollProceed budget).getD budget) stack := by
  cases budget with
  | none => exact h
  | some n => exact Free.change _ h

theorem Free.returned
    (h : Free budget (frame :: rest)) (hb : frame.returned budget = some budget') :
    Free budget' rest := by
  cases frame with
  | task previous | localTask => exact some.inj hb ▸ h
  | unconstrained previous => exact some.inj hb ▸ h.2
  | loop kind polling =>
    cases polling with
    | false => simp [Frame.returned] at hb
    | true => exact some.inj hb ▸ h.2

theorem Free.unwound (h : Free budget (frame :: rest)) (hb : frame.unwound budget = some budget') :
    Free budget' rest := by
  cases frame with
  | task previous | localTask => exact some.inj hb ▸ h
  | unconstrained previous =>
    -- there is no budget inside of an `Unconstrained`, and none is left behind
    rw [← some.inj hb, h.1]
    exact h.2.weaken
  | loop kind polling =>
    cases polling with
    | false => simp [Frame.unwound] at hb
    | true => exact some.inj hb ▸ h.2

structure Kept (w : World) : Prop where
  free : Free w.budget w.stack
  polled : ∀ p ∈ w.polls, p.2 = none

theorem Kept.pop (h : w.Kept) {after : Option ℕ → Frame → Option (Option ℕ)}
    (hafter : ∀ {frame rest budget}, Free w.budget (frame :: rest) →
      after w.budget frame = some budget → Free budget rest)
    (hs : w.pop after = some v) : v.Kept := by
  unfold World.pop at hs
  split at hs
  · cases hs
  next frame rest hstack =>
    obtain ⟨budget, hb, rfl⟩ := map_eq_some_iff.mp hs
    exact ⟨hafter (hstack ▸ h.free) hb, h.polled⟩

theorem kept_of_step {l : Label} (h : w.Kept) (hl : w.metered l = false)
    (hs : w.step l = some v) : v.Kept := by
  have hfree := h.free
  cases l with
  | runTask | runLocalTask =>
    obtain ⟨-, rfl⟩ := of_guard hs
    exact ⟨hfree, h.polled⟩
  | enter kind =>
    obtain ⟨-, rfl⟩ := of_guard hs
    exact ⟨⟨not_isSome_iff_eq_none.mp (by simpa [metered] using hl), hfree⟩, h.polled⟩
  | poll =>
    simp only [step] at hs
    split at hs
    next kind rest hstack =>
      cases hs
      rw [hstack] at hfree
      refine ⟨hfree, fun p hp => ?_⟩
      rcases mem_append.mp hp with hp | hp
      · exact h.polled p hp
      · rw [mem_singleton.mp hp]
        exact hfree.1
    · cases hs
  | charge =>
    obtain ⟨-, rfl⟩ := of_guard hs
    exact ⟨hfree.charge, h.polled⟩
  | unconstrained =>
    obtain ⟨-, rfl⟩ := of_guard hs
    exact ⟨⟨rfl, hfree⟩, h.polled⟩
  | pending =>
    simp only [step] at hs
    split at hs
    next kind rest hstack =>
      cases hs
      rw [hstack] at hfree
      exact ⟨hfree, h.polled⟩
    · cases hs
  | returns => exact h.pop Free.returned hs
  | unwinds => exact h.pop Free.unwound hs

theorem kept_of_reachableUnder
    (h : thread.ReachableUnder (fun w l => w.metered l = false) w) : w.Kept :=
  System.inv_of_reachableUnder (I := Kept)
    ⟨by simp [thread, Free], fun _ hp => absurd hp not_mem_nil⟩
    (fun _ _ _ hI hl hs => kept_of_step hI hl hs) h

/-! ## A loop with a budget -/

theorem run_charges (kind : Loop) (rest : List Frame) (polls : List (Loop × Option ℕ)) :
    ∀ n : ℕ, thread.run ⟨some n, .loop kind true :: rest, polls⟩ (List.replicate n .charge) =
      some ⟨some 0, .loop kind true :: rest, polls⟩
  | 0 => rfl
  | n + 1 => run_charges kind rest polls n

theorem leadsTo_starved (kind : Loop) (rest : List Frame) (polls : List (Loop × Option ℕ))
    (n : ℕ) : thread.LeadsTo (fun l => ∀ k, l ≠ .enter k) Starved
      ⟨some n, .loop kind false :: rest, polls⟩ := by
  refine .of_step (e := .poll) (fun _ => Label.noConfusion) rfl ?_
  refine .of_run (fun l hl => ?_) (run_charges kind rest _ n) ?_
  · rw [eq_of_mem_replicate hl]
    exact fun _ => Label.noConfusion
  refine .of_step (e := .pending) (fun _ => Label.noConfusion) rfl ?_
  refine .of_step (e := .poll) (fun _ => Label.noConfusion) rfl ?_
  exact .now ⟨kind, mem_append_right _ (mem_singleton.mpr rfl)⟩

def round : List Label := [.poll, .charge, .pending]

theorem run_rounds (kind : Loop) (rest : List Frame) (polls : List (Loop × Option ℕ)) (m : ℕ) :
    thread.run ⟨some 0, .loop kind false :: rest, polls⟩ (List.replicate m round).flatten =
      some ⟨some 0, .loop kind false :: rest, polls ++ List.replicate m (kind, some 0)⟩ := by
  induction m generalizing polls with
  | zero =>
    rw [replicate_zero, replicate_zero, append_nil]
    rfl
  | succ m ih =>
    have hround : thread.run ⟨some 0, .loop kind false :: rest, polls⟩ round =
        some ⟨some 0, .loop kind false :: rest, polls ++ [(kind, some 0)]⟩ := rfl
    rw [replicate_succ, flatten_cons, System.run_append hround, ih, append_assoc]
    rfl

/-- **No loop starves, unless it is called under a budget.**  Where loops are called only outside
of any budget, each polls its future with none, whatever the nesting. After a call under a budget,
from any state, the loop can come to poll its future with the budget spent. -/
theorem not_starved_unless_metered (w : World) :
    (thread.ReachableUnder (fun w l => w.metered l = false) w →
      ¬ w.Starved ∧ ∀ p ∈ w.polls, p.2 = none) ∧ ∀ l v, w.metered l = true → w.step l = some v →
      thread.LeadsTo (fun l => ∀ k, l ≠ .enter k) Starved v := by
  constructor
  · intro h
    have hk := kept_of_reachableUnder h
    refine ⟨?_, hk.polled⟩
    rintro ⟨kind, hmem⟩
    cases hk.polled _ hmem
  · intro l v hl hs
    cases l with
    | enter kind =>
      obtain ⟨-, hs⟩ := ite_none_right_eq_some.mp hs
      obtain ⟨n, hn⟩ := isSome_iff_exists.mp hl
      rw [← some.inj hs, hn]
      exact leadsTo_starved kind w.stack w.polls n
    | _ => cases hl

theorem not_starved_of_unconstrained :
    (∃ w, thread.ReachableUnder (fun w l => w.metered l = false) w ∧
      w.polls = [(.currentThread, none), (.drive, none)] ∧ ¬ w.Starved) ∧
    ∃ w v : World, w.step (.enter .blockOnInner) = some v ∧
      thread.LeadsTo (fun l => ∀ k, l ≠ .enter k) Starved v := by
  constructor
  · have hw : thread.ReachableUnder (fun w l => w.metered l = false) _ :=
      ⟨[.runTask, .charge, .unconstrained, .enter .currentThread, .poll, .enter .drive, .poll],
        rfl, by decide⟩
    exact ⟨_, hw, rfl, ((not_starved_unless_metered _).1 hw).1⟩
  · exact ⟨⟨some 128, [.task none], []⟩, _, rfl,
      (not_starved_unless_metered ⟨some 128, [.task none], []⟩).2 (.enter .blockOnInner) _ rfl rfl⟩

/-- A task calls a loop whose future charges the budget 128 times, and is polled again. -/
def spending (kind : Loop) : List Label :=
  [.runTask, .enter kind, .poll] ++ List.replicate 128 .charge ++ [.pending]

theorem run_spending (kind : Loop) : thread.run thread.init (spending kind) =
    some ⟨some 0, [.loop kind false, .task none], [(kind, some 128)]⟩ := by
  have hspent : thread.run thread.init ([.runTask, .enter kind, .poll] ++
      List.replicate 128 .charge) =
      some ⟨some 0, [.loop kind true, .task none], [(kind, some 128)]⟩ :=
    (System.run_append rfl).trans (run_charges kind [.task none] [(kind, some 128)] 128)
  rw [spending, System.run_append hspent]
  rfl

/-- Each of the loops starves in a task: after 128 charges every further poll finds the budget
spent, as often as the loop polls. -/
theorem exists_starved : ∃ f : Loop → World, ∀ kind,
    thread.run thread.init (spending kind) = some (f kind) ∧
      ∀ m, ∃ v, thread.run (f kind) (List.replicate m round).flatten = some v ∧
        v.polls = (kind, some 128) :: List.replicate m (kind, some 0) ∧ (0 < m → v.Starved) := by
  refine ⟨_, fun kind => ⟨run_spending kind, fun m => ?_⟩⟩
  refine ⟨_, run_rounds kind [.task none] _ m, rfl, fun hm => ⟨kind, ?_⟩⟩
  refine mem_append_right _ (mem_replicate.mpr ⟨Nat.ne_of_gt hm, rfl⟩)

end World

end RustyTokio.Coop

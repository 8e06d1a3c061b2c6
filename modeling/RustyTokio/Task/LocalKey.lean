import RustyTokio.Transition.System
import Mathlib.Logic.Function.Basic

/-!
# Task-local values

`src/task/local_key.rs`.  A `TaskLocalFuture` keeps its value and puts it into the slot of the
thread for the time of each poll; `sync_scope` does the same for the time of a call.  What a poll
does is a tree: the accesses it makes, the scope futures it makes and polls, and the closures it
runs, each inside of the one that it is called from.  The rest of a poll may depend on how a part
of it ended, so that a panic is caught or goes on.
-/

namespace RustyTokio.LocalKey

open Transition Function

variable {κ V : Type}

/-- How a poll or a closure ends; a closure does not end in `pending`. -/
inductive Ending where
  | pending
  | ready
  | panic
  deriving DecidableEq

inductive Prog (κ V : Type) where
  | done (ending : Ending)
  /-- `with`, or `try_with`, which fails where the other panics. -/
  | access (key : κ) (inner : Prog κ V) (rest : Ending → Prog κ V)
  | scope (key : κ) (value : V) (rest : Prog κ V)
  | poll (future : ℕ) (inner : Prog κ V) (rest : Ending → Prog κ V)
  | syncScope (key : κ) (value : V) (inner : Prog κ V) (rest : Ending → Prog κ V)

structure TaskLocalFuture (κ V : Type) where
  key : κ
  slot : Option V
  deriving DecidableEq

/-- What is left after a poll or a part of it. -/
structure Outcome (κ V : Type) where
  futures : List (TaskLocalFuture κ V)
  ending : Ending
  seen : List (κ × Option V)

def Outcome.after (seen : List (κ × Option V)) (o : Outcome κ V) : Outcome κ V :=
  { o with seen := seen ++ o.seen }

variable [DecidableEq κ]

/-- A poll on a thread with these slots, with the slots after it.  An access borrows the slot of
its key for its time; the slot cannot be written then, and `borrow_mut` panics. -/
def exec : Prog κ V → (κ → Option V) → List κ → List (TaskLocalFuture κ V) →
    (κ → Option V) × Outcome κ V
  | .done ending, slots, _, futures => (slots, ⟨futures, ending, []⟩)
  | .access key inner rest, slots, borrowed, futures =>
    match slots key with
    | none =>
      let (slots, o) := exec (rest .panic) slots borrowed futures
      (slots, o.after [(key, none)])
    | some value =>
      let (slots, i) := exec inner slots (key :: borrowed) futures
      let (slots, o) := exec (rest i.ending) slots borrowed i.futures
      (slots, o.after ((key, some value) :: i.seen))
  | .scope key value rest, slots, borrowed, futures =>
    exec rest slots borrowed (futures ++ [⟨key, some value⟩])
  | .poll n inner rest, slots, borrowed, futures =>
    match futures[n]? with
    | none => (slots, ⟨futures, .panic, []⟩)
    | some ⟨_, none⟩ => exec (rest .panic) slots borrowed futures
    | some ⟨key, some value⟩ =>
      let taken := futures.set n ⟨key, none⟩
      if key ∈ borrowed then exec (rest .panic) slots borrowed taken
      else
        let previous := slots key
        let (slots, i) := exec inner (Function.update slots key (some value)) borrowed taken
        let current := slots key
        let slots := Function.update slots key previous
        let left := if i.ending = .pending then i.futures.set n ⟨key, current⟩ else i.futures
        let (slots, o) := exec (rest i.ending) slots borrowed left
        (slots, o.after i.seen)
  | .syncScope key value inner rest, slots, borrowed, futures =>
    if key ∈ borrowed then exec (rest .panic) slots borrowed futures
    else
      let previous := slots key
      let (slots, i) := exec inner (Function.update slots key (some value)) borrowed futures
      let slots := Function.update slots key previous
      let (slots, o) := exec (rest i.ending) slots borrowed i.futures
      (slots, o.after i.seen)

/-- The same poll where nothing is stored: what an access sees is what the innermost scope around
it has given to its key. -/
def lexical : Prog κ V → (κ → Option V) → List κ → List (TaskLocalFuture κ V) → Outcome κ V
  | .done ending, _, _, futures => ⟨futures, ending, []⟩
  | .access key inner rest, scopes, borrowed, futures =>
    match scopes key with
    | none => (lexical (rest .panic) scopes borrowed futures).after [(key, none)]
    | some value =>
      let i := lexical inner scopes (key :: borrowed) futures
      (lexical (rest i.ending) scopes borrowed i.futures).after ((key, some value) :: i.seen)
  | .scope key value rest, scopes, borrowed, futures =>
    lexical rest scopes borrowed (futures ++ [⟨key, some value⟩])
  | .poll n inner rest, scopes, borrowed, futures =>
    match futures[n]? with
    | none => ⟨futures, .panic, []⟩
    | some ⟨_, none⟩ => lexical (rest .panic) scopes borrowed futures
    | some ⟨key, some value⟩ =>
      let taken := futures.set n ⟨key, none⟩
      if key ∈ borrowed then lexical (rest .panic) scopes borrowed taken
      else
        let i := lexical inner (Function.update scopes key (some value)) borrowed taken
        let left :=
          if i.ending = .pending then i.futures.set n ⟨key, some value⟩ else i.futures
        (lexical (rest i.ending) scopes borrowed left).after i.seen
  | .syncScope key value inner rest, scopes, borrowed, futures =>
    if key ∈ borrowed then lexical (rest .panic) scopes borrowed futures
    else
      let i := lexical inner (Function.update scopes key (some value)) borrowed futures
      (lexical (rest i.ending) scopes borrowed i.futures).after i.seen

theorem exec_eq (p : Prog κ V) : ∀ slots borrowed futures,
    exec p slots borrowed futures = (slots, lexical p slots borrowed futures) := by
  induction p with
  | done ending => exact fun _ _ _ => rfl
  | access key inner rest ihInner ihRest =>
    intro slots borrowed futures
    rw [exec, lexical]
    cases slots key with
    | none => simp only [ihRest]
    | some value => simp only [ihInner, ihRest]
  | scope key value rest ih => exact fun slots borrowed futures => ih slots borrowed _
  | poll n inner rest ihInner ihRest =>
    intro slots borrowed futures
    rw [exec, lexical]
    cases futures[n]? with
    | none => rfl
    | some f =>
      obtain ⟨key, slot⟩ := f
      cases slot with
      | none => exact ihRest .panic slots borrowed futures
      | some value =>
        -- the inner poll leaves the value in the slot, and what was there before is put back
        simp only [ihInner, ihRest, update_self, update_idem, update_eq_self]
        split_ifs <;> rfl
  | syncScope key value inner rest ihInner ihRest =>
    intro slots borrowed futures
    rw [exec, lexical]
    simp only [ihInner, ihRest, update_idem, update_eq_self]
    split_ifs <;> rfl

/-! ## Tasks on threads -/

structure World (κ V : Type) where
  slots : ℕ → κ → Option V
  futures : List (TaskLocalFuture κ V)

structure Turn (κ V : Type) where
  thread : ℕ
  prog : Prog κ V

def World.step (w : World κ V) (turn : Turn κ V) : Option (World κ V) :=
  let (slots, o) := exec turn.prog (w.slots turn.thread) [] w.futures
  some ⟨Function.update w.slots turn.thread slots, o.futures⟩

def World.seen (w : World κ V) (turn : Turn κ V) : List (κ × Option V) :=
  (exec turn.prog (w.slots turn.thread) [] w.futures).2.seen

def tasks (slots : ℕ → κ → Option V) : System (World κ V) (Turn κ V) where
  init := ⟨slots, []⟩
  step := World.step

theorem slots_of_step {w v : World κ V} {turn : Turn κ V} (hs : w.step turn = some v) :
    v.slots = w.slots := by
  rw [World.step, exec_eq] at hs
  cases hs
  exact update_eq_self turn.thread w.slots

/-- **Scopes are isolated.**  After every poll the slots of all threads are what they were before
it, and so what they were at first; and the accesses during a poll see what the innermost scopes
around them have given, on whatever thread. -/
theorem scopes_isolated (slots : ℕ → κ → Option V) (w : World κ V) (h : (tasks slots).Reachable w) :
    w.slots = slots ∧
    ∀ turn, w.seen turn = (lexical turn.prog (slots turn.thread) [] w.futures).seen ∧
      ∀ v, (tasks slots).step w turn = some v → v.slots = w.slots := by
  have hslots : w.slots = slots :=
    System.inv_of_reachable (I := fun w : World κ V => w.slots = slots) rfl
      (fun _ _ _ hw hs => (slots_of_step hs).trans hw) h
  refine ⟨hslots, fun turn => ⟨?_, fun v => slots_of_step⟩⟩
  rw [World.seen, exec_eq, hslots]

theorem scopes_isolated_after_panic : ∃ w : World ℕ ℕ, (tasks fun _ _ => none).Reachable w ∧
      w.futures = [⟨0, some 7⟩] ∧ w.slots = fun _ _ => none := by
  have hw : ∃ w : World ℕ ℕ, (tasks fun _ _ => none).Reachable w ∧ w.futures = [⟨0, some 7⟩] :=
    ⟨_, ⟨[⟨0, .scope 0 7 (.poll 0 (.done .pending) .done)⟩,
      ⟨1, .poll 0 (.syncScope 0 8 (.access 0 (.done .panic) .done) fun _ => .done .pending) .done⟩],
      rfl⟩, rfl⟩
  obtain ⟨w, hr, hf⟩ := hw
  exact ⟨w, hr, hf, (scopes_isolated _ w hr).1⟩

end RustyTokio.LocalKey

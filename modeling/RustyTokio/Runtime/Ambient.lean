import RustyTokio.Transition.System

/-!
# The ambient runtime of a thread

`enter` and `EnterGuard` of `src/runtime/context.rs`, and the same once more, for the ambient
`LocalSet`, in `src/task/local.rs`.  A guard keeps what was ambient before it and puts it back when
it is dropped, whatever was entered in between.  A guard stays on its thread and may be dropped at
any time.
-/

namespace RustyTokio.Ambient

open Transition List Option

variable {α : Type}

structure EnterGuard (α : Type) where
  /-- The handle that was entered; the source keeps it in the thread-local only. -/
  installed : α
  previous : Option α
  deriving DecidableEq

/-- `CURRENT` and the live guards, in the order in which they were made. -/
structure Thread (α : Type) where
  current : Option α
  guards : List (EnterGuard α)
  deriving DecidableEq

inductive Label (α : Type) where
  | enter (handle : α)
  | drop (k : ℕ)
  deriving DecidableEq

def Thread.step (t : Thread α) : Label α → Option (Thread α)
  | .enter handle => some ⟨some handle, t.guards ++ [⟨handle, t.current⟩]⟩
  | .drop k => t.guards[k]?.map fun g => ⟨g.previous, t.guards.eraseIdx k⟩

def thread (original : Option α) : System (Thread α) (Label α) where
  init := ⟨original, []⟩
  step := Thread.step

/-- What the youngest of these guards has installed, or what was there at first. -/
def newest (original : Option α) (guards : List (EnterGuard α)) : Option α :=
  (guards.getLast?.map EnterGuard.installed).or original

/-- A guard is dropped before a younger one. -/
def Thread.overtakes (t : Thread α) : Label α → Bool
  | .enter _ => false
  | .drop k => k + 1 ≠ t.guards.length

/-- The current runtime is the newest guard's, and each guard keeps the one before. -/
structure Nested (original : Option α) (t : Thread α) : Prop where
  current : t.current = newest original t.guards
  previous : ∀ (i : ℕ) (g : EnterGuard α), t.guards[i]? = some g →
    g.previous = newest original (t.guards.take i)

variable {original : Option α} {t u : Thread α} {l : Label α}

theorem nested_of_step (h : Nested original t) (hl : t.overtakes l = false)
    (hs : t.step l = some u) : Nested original u := by
  cases l with
  | enter handle =>
    cases hs
    refine ⟨by simp [newest], fun i g hg => ?_⟩
    rcases Nat.lt_or_ge i t.guards.length with hi | hi
    · rw [getElem?_append_left hi] at hg
      rw [take_append_of_le_length (Nat.le_of_lt hi)]
      exact h.previous i g hg
    · have hi' : i = t.guards.length := by
        have hlt := (lt_of_some hg)
        rw [length_append, length_singleton] at hlt
        omega
      subst hi'
      rw [getElem?_concat_length] at hg
      rw [take_left, ← some.inj hg]
      exact h.current
  | drop k =>
    obtain ⟨g, hg, rfl⟩ := map_eq_some_iff.mp hs
    have hk : k + 1 = t.guards.length := by simpa [Thread.overtakes] using hl
    have herase : t.guards.eraseIdx k = t.guards.take k := by
      rw [eraseIdx_eq_take_drop_succ, hk, drop_length, append_nil]
    refine ⟨?_, fun i g' hg' => ?_⟩
    · rw [herase]
      exact h.previous k g hg
    · rw [herase] at hg' ⊢
      have hi : i < k := by
        have hlt := (lt_of_some hg')
        rw [length_take] at hlt
        omega
      rw [getElem?_take_of_lt hi] at hg'
      rw [take_take, Nat.min_eq_left (Nat.le_of_lt hi)]
      exact h.previous i g' hg'

theorem nested_of_reachableUnder
    (h : (thread original).ReachableUnder (fun t l => t.overtakes l = false) t) :
    Nested original t := by
  refine System.inv_of_reachableUnder (I := Nested original) ⟨rfl, ?_⟩
    (fun _ _ _ hn hl hs => nested_of_step hn hl hs) h
  exact fun i g hg => absurd hg (by simp [thread])

theorem newest_eraseIdx {guards : List (EnterGuard α)} {k : ℕ} (hk : k + 1 < guards.length) :
    newest original (guards.eraseIdx k) = newest original guards := by
  have hdrop : guards.drop (k + 1) ≠ [] := by
    rw [Ne, drop_eq_nil_iff]
    omega
  rw [newest, newest, eraseIdx_eq_take_drop_succ, getLast?_append_of_ne_nil _ hdrop,
    getLast?_drop, if_neg (Nat.not_le.mpr hk)]

/-- **The youngest guard decides, unless guards overtake each other.**  As long as the guards of a
thread are dropped youngest first, the ambient runtime is the one that the youngest live guard has
installed, or the original one.  After the first drop of a guard that is not the youngest, it is
exactly if the guards before the dropped one say the same as the youngest. -/
theorem ambient_unless_overtakes (original : Option α) :
    (∀ t, (thread original).ReachableUnder (fun t l => t.overtakes l = false) t →
      t.current = newest original t.guards) ∧
    ∀ t k u, (thread original).ReachableUnder (fun t l => t.overtakes l = false) t →
      t.overtakes (.drop k) = true → t.step (.drop k) = some u →
      (u.current = newest original u.guards ↔
        newest original (t.guards.take k) = newest original t.guards) := by
  refine ⟨fun t h => (nested_of_reachableUnder h).current, fun t k u h hl hs => ?_⟩
  obtain ⟨g, hg, rfl⟩ := map_eq_some_iff.mp hs
  have hlt : k + 1 < t.guards.length := by
    have hne : k + 1 ≠ t.guards.length := by simpa [Thread.overtakes] using hl
    have hk := (lt_of_some hg)
    omega
  rw [newest_eraseIdx hlt, (nested_of_reachableUnder h).previous k g hg]

theorem ambient_unless_overtakes_nested :
    ∃ t, (thread (none : Option ℕ)).ReachableUnder (fun t l => t.overtakes l = false) t ∧
      t.guards = [⟨1, none⟩, ⟨3, some 1⟩] ∧ t.current = some 3 := by
  have hr : (thread (none : Option ℕ)).ReachableUnder (fun t l => t.overtakes l = false) _ :=
    ⟨[.enter 1, .enter 2, .drop 1, .enter 3], rfl, by decide⟩
  exact ⟨_, hr, rfl, (ambient_unless_overtakes (none : Option ℕ)).1 _ hr⟩

/-- Runtimes 1 and 2 are entered, and the guard of 1 is dropped first: nothing is ambient while the
guard of 2 lives.  When that is dropped, runtime 1 is ambient and no guard is left. -/
theorem exists_overtaken_guard :
    (thread (none : Option ℕ)).run ⟨none, []⟩ [.enter 1, .enter 2, .drop 0] =
      some ⟨none, [⟨2, some 1⟩]⟩ ∧
    (thread (none : Option ℕ)).run ⟨none, []⟩ [.enter 1, .enter 2, .drop 0, .drop 0] =
      some ⟨some 1, []⟩ ∧
    newest none [⟨2, some 1⟩] = some 2 ∧ newest none ([] : List (EnterGuard ℕ)) = none :=
  ⟨rfl, rfl, rfl, rfl⟩

end RustyTokio.Ambient

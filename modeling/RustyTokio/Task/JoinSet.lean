import RustyTokio.Task.Join
import RustyTokio.Transition.System
import Mathlib.Data.List.Perm.Basic
import Mathlib.Data.List.Nodup

/-!
# `JoinSet`

`src/task/join_set.rs`, over the cells of `src/task/join.rs`.  A poll of `join_next` goes through
the handles, one lock at a time, leaves its waker with each that is not done, and stops at the first
that is; that handle is taken out by `swap_remove`.  Meanwhile tasks finish: the result, the flag
and the wake are three steps.  A future of `join_next` or `shutdown` borrows the set, so there is at
most one, and nothing is spawned while it lives.  `abort_all` asks tasks to finish, and does nothing
to the set.
-/

namespace RustyTokio.Task
namespace JoinSet

open Transition List Option Table

variable {T P : Type}

/-- `finish` after its first step, and after its second, with the waker it has found. -/
inductive Stage where
  | swapped (waker : Option ℕ)
  | stored (waker : Option ℕ)
  deriving DecidableEq

structure Member (T P : Type) where
  inner : JoinInner T P
  stage : Option Stage
  result : Option (JoinResult T P)
  deriving DecidableEq

/-- The future of `join_next`, or of `shutdown`: it waits, with the waker of its last poll, if there
was one, and whether that was woken; or it is in a poll, at some handle. -/
inductive Joiner where
  | none
  | waiting (shutdown : Bool) (last : Option (ℕ × Bool))
  | scanning (shutdown : Bool) (i waker : ℕ) (woken : Bool)
  deriving DecidableEq

def Joiner.wake (waker : ℕ) : Joiner → Joiner
  | .waiting s (some (x, woken)) => .waiting s (some (x, woken || x == waker))
  | .scanning s i x woken => .scanning s i x (woken || x == waker)
  | j => j

structure World (T P : Type) where
  tasks : List (Member T P)
  handles : List ℕ
  joiner : Joiner
  /-- The results that `join_next` has returned, with the number of the task. -/
  returned : List (ℕ × JoinResult T P)
  /-- How many members there were each time it returned `None`, to `shutdown` or not. -/
  nones : List (Bool × ℕ)
  deriving DecidableEq

inductive Label (T P : Type) where
  | spawn
  | finish (id : ℕ) (result : JoinResult T P)
  | store (id : ℕ)
  | wake (id : ℕ)
  | abortAll
  | joinNext
  | shutdown
  | poll (waker : ℕ)
  | scan
  | drop
  deriving DecidableEq

def swapRemove (l : List ℕ) (i : ℕ) : List ℕ :=
  match l.getLast? with
  | none => []
  | some last => (l.set i last).dropLast

namespace World

/-- `poll_join_next` begins.  On an empty set it returns `None`, which also ends `shutdown`. -/
def enter (w : World T P) (shutdown : Bool) (waker : ℕ) (woken : Bool) : World T P :=
  if w.handles = [] then
    { w with joiner := .none, nones := w.nones ++ [(shutdown, w.handles.length)] }
  else { w with joiner := .scanning shutdown 0 waker woken }

/-- The loop of `poll_join_next` at one handle, or past the last; `none` is the panic of a handle
that was polled after it had returned. -/
def scan (w : World T P) (shutdown : Bool) (i waker : ℕ) (woken : Bool) : Option (World T P) :=
  match w.handles[i]? with
  | none => some { w with joiner := .waiting shutdown (some (waker, woken)) }
  | some id =>
    match w.tasks[id]? with
    | none => none
    | some t =>
      match t.inner.poll waker with
      | none => none
      | some (inner, none) =>
        some
          { w with
            tasks := w.tasks.set id { t with inner := inner }
            joiner := .scanning shutdown (i + 1) waker woken }
      | some (inner, some result) =>
        let v : World T P :=
          ⟨w.tasks.set id { t with inner := inner }, swapRemove w.handles i, .none,
            w.returned ++ [(id, result)], w.nones⟩
        some (if shutdown then v.enter true waker woken else v)

def step (w : World T P) : Label T P → Option (World T P)
  | .spawn =>
    if w.joiner = .none then
      some
        { w with
          tasks := w.tasks ++ [⟨.new, none, none⟩]
          handles := w.handles ++ [w.tasks.length] }
    else none
  | .finish id result =>
    w.tasks[id]?.bind fun t =>
      if t.inner.isFinished = false then
        let (inner, old) := t.inner.swapDone result
        some
          { w with tasks := w.tasks.set id ⟨inner, some (.swapped old.waker), some result⟩ }
      else none
  | .store id =>
    match w.tasks[id]? with
    | some ⟨inner, some (.swapped waker), result⟩ =>
      some
        { w with tasks := w.tasks.set id ⟨inner.storeFinished, some (.stored waker), result⟩ }
    | _ => none
  | .wake id =>
    match w.tasks[id]? with
    | some ⟨inner, some (.stored waker), result⟩ =>
      some
        { w with
          tasks := w.tasks.set id ⟨inner, none, result⟩
          joiner := waker.elim w.joiner w.joiner.wake }
    | _ => none
  | .abortAll => if w.joiner = .none then some w else none
  | .joinNext =>
    if w.joiner = .none then some { w with joiner := .waiting false none } else none
  | .shutdown =>
    if w.joiner = .none then some { w with joiner := .waiting true none } else none
  | .poll waker =>
    match w.joiner with
    | .waiting shutdown _ => some (w.enter shutdown waker false)
    | _ => none
  | .scan =>
    match w.joiner with
    | .scanning shutdown i waker woken => w.scan shutdown i waker woken
    | _ => none
  | .drop =>
    match w.joiner with
    | .waiting _ _ => some { w with joiner := .none }
    | _ => none

end World

def joinSet : System (World T P) (Label T P) where
  init := ⟨[], [], .none, [], []⟩
  step := World.step

/-! ## What is kept -/

theorem perm_swapRemove {l : List ℕ} {i a : ℕ} (h : l[i]? = some a) :
    l.Perm (a :: swapRemove l i) := by
  rcases eq_nil_or_concat l with rfl | ⟨front, x, rfl⟩
  · simp at h
  rw [concat_eq_append] at h ⊢
  rw [swapRemove, getLast?_concat]
  refine (perm_append_singleton x front).trans ?_
  rcases Nat.lt_or_ge i front.length with hi | hi
  · rw [getElem?_append_left hi] at h
    obtain ⟨hlt, rfl⟩ := List.getElem?_eq_some_iff.mp h
    simp only [set_append_left _ _ hi, dropLast_concat]
    have hold := (getElem_cons_eraseIdx_perm hlt).symm.cons x
    have hnew := (set_perm_cons_eraseIdx hlt x).symm.cons front[i]
    exact hold.trans ((List.Perm.swap _ _ _).trans hnew)
  · -- the last handle: nothing is put in its place
    have hi' : i = front.length := by
      have hlt := (lt_of_some h)
      rw [length_append, length_singleton] at hlt
      omega
    subst hi'
    rw [getElem?_concat_length] at h
    cases h
    simp

/-- The result in the cell is the task's own. -/
structure Member.Sound (t : Member T P) : Prop where
  done : ∀ r, t.inner.state = .done r → t.result = some r
  fresh : t.inner.isFinished = false → t.result = none ∧ t.stage = none

/-- Its `finish` will find the waker, or is about to wake it, or it was woken. -/
def Member.Heard (waker : ℕ) (woken : Bool) (t : Member T P) : Prop :=
  t.inner.state = .waiting waker ∨ t.stage = some (.swapped (some waker)) ∨
    t.stage = some (.stored (some waker)) ∨ woken = true

namespace World

/-- The handles that the last poll has left its waker with, the waker, and whether it was woken. -/
def reached (w : World T P) : Option (List ℕ × ℕ × Bool) :=
  match w.joiner with
  | .waiting _ (some (waker, woken)) => some (w.handles, waker, woken)
  | .scanning _ i waker woken => some (w.handles.take i, waker, woken)
  | _ => none

/-- Each task is in the set or was returned, once and with its own result. -/
structure Kept (w : World T P) : Prop where
  perm : (w.handles ++ w.returned.map Prod.fst).Perm (List.range w.tasks.length)
  sound : ∀ t ∈ w.tasks, t.Sound
  here : ∀ id ∈ w.handles, ∃ t, w.tasks[id]? = some t ∧ t.inner.state ≠ .taken
  own : ∀ x ∈ w.returned, ∃ t, w.tasks[x.1]? = some t ∧ t.result = some x.2
  empty : ∀ x ∈ w.nones, x.2 = 0
  heard : ∀ x, w.reached = some x → ∀ id ∈ x.1, ∃ t, w.tasks[id]? = some t ∧ t.Heard x.2.1 x.2.2

variable {w v : World T P} {l : Label T P} {k : ℕ} {t u : Member T P} {joiner : Joiner}
  {waker : Option ℕ} {inner : JoinInner T P} {result : Option (JoinResult T P)}
  {shutdown woken : Bool} {i : ℕ}

theorem exists_set {Q R : Member T P → Prop} (hid : w.tasks[k]? = some t)
    (hmono : ∀ x, Q x → R x) (hnew : Q t → R u) {j : ℕ} (h : ∃ x, w.tasks[j]? = some x ∧ Q x) :
    ∃ x, (w.tasks.set k u)[j]? = some x ∧ R x := by
  obtain ⟨x, hx, hQx⟩ := h
  obtain ⟨y, hy, hy'⟩ := set_of_some (R := fun a b => Q a → R b) hmono hid hnew j x hx
  exact ⟨y, hy, hy' hQx⟩

theorem Kept.of_member (h : w.Kept) (hid : w.tasks[k]? = some t) (hsound : u.Sound)
    (hhere : t.inner.state ≠ .taken → u.inner.state ≠ .taken)
    (hown : ∀ r, t.result = some r → u.result = some r)
    (hheard : ∀ x, reached { w with tasks := w.tasks.set k u, joiner := joiner } = some x →
      ∀ j ∈ x.1, ∃ y, (w.tasks.set k u)[j]? = some y ∧ y.Heard x.2.1 x.2.2) :
    Kept { w with tasks := w.tasks.set k u, joiner := joiner } := by
  refine ⟨?_, ?_, fun j hj => exists_set hid (fun _ => id) hhere (h.here j hj),
    fun x hx => exists_set hid (fun _ => id) (hown x.2) (h.own x hx), h.empty, hheard⟩
  · rw [length_set]
    exact h.perm
  · intro x hx
    rcases mem_or_eq_of_mem_set hx with hx | rfl
    · exact h.sound x hx
    · exact hsound

theorem Kept.of_joiner (h : w.Kept) {nones : List (Bool × ℕ)} (hn : ∀ x ∈ nones, x.2 = 0)
    (hj : ∀ x, reached { w with joiner := joiner } = some x → x.1 = []) :
    Kept { w with joiner := joiner, nones := nones } := by
  refine ⟨h.perm, h.sound, h.here, h.own, hn, fun x hx j hj' => ?_⟩
  rw [hj x hx] at hj'
  cases hj'

theorem Kept.enter (h : w.Kept) (shutdown : Bool) (waker : ℕ) (woken : Bool) :
    (w.enter shutdown waker woken).Kept := by
  rw [World.enter]
  split_ifs with hnil
  · refine h.of_joiner (fun x hx => ?_) fun x hx => by simp [reached] at hx
    rcases mem_append.mp hx with hx | hx
    · exact h.empty x hx
    · rw [mem_singleton.mp hx, hnil]
      rfl
  · refine h.of_joiner h.empty fun x hx => ?_
    cases hx
    rfl

theorem Kept.spawn (h : w.Kept) (hj : w.joiner = .none) : Kept { w with
        tasks := w.tasks ++ [⟨.new, none, none⟩]
        handles := w.handles ++ [w.tasks.length] } := by
  refine ⟨?_, ?_, ?_, fun x hx => ?_, h.empty, fun x hx => by simp [reached, hj] at hx⟩
  · rw [length_append, length_singleton, range_succ, append_assoc]
    exact (perm_middle.trans (h.perm.cons _)).trans (perm_append_singleton _ _).symm
  · intro t ht
    rcases mem_append.mp ht with ht | ht
    · exact h.sound t ht
    · rw [mem_singleton.mp ht]
      exact ⟨by simp [JoinInner.new], fun _ => ⟨rfl, rfl⟩⟩
  · intro id hid
    rcases mem_append.mp hid with hid | hid
    · obtain ⟨t, ht, hne⟩ := h.here id hid
      exact ⟨t, append_of_some ht _, hne⟩
    · rw [mem_singleton.mp hid]
      exact ⟨_, getElem?_concat_length, by simp [JoinInner.new]⟩
  · obtain ⟨t, ht, hr⟩ := h.own x hx
    exact ⟨t, append_of_some ht _, hr⟩

theorem Kept.finishing (h : w.Kept) (hid : w.tasks[k]? = some t) (hsound : u.Sound)
    (hhere : t.inner.state ≠ .taken → u.inner.state ≠ .taken)
    (hown : ∀ r, t.result = some r → u.result = some r)
    (hheard : ∀ waker woken, t.Heard waker woken → u.Heard waker woken) :
    Kept { w with tasks := w.tasks.set k u } :=
  h.of_member hid hsound hhere hown fun x hx j hj =>
    exists_set hid (fun _ => id) (hheard _ _) (h.heard x hx j hj)

theorem Kept.finish (h : w.Kept) (hid : w.tasks[k]? = some t) (ht : t.inner.isFinished = false)
    (result : JoinResult T P) : Kept { w with
        tasks := w.tasks.set k ⟨(t.inner.swapDone result).1,
          some (.swapped (t.inner.swapDone result).2.waker), some result⟩ } := by
  obtain ⟨hresult, hstage⟩ := (h.sound t (mem_of_getElem? hid)).fresh ht
  refine h.finishing hid
    ⟨fun r hr => congrArg some (JoinState.done.inj hr), fun hf => absurd hf.symm (by simp [
      JoinInner.isFinished, JoinInner.swapDone])⟩ (fun _ => by simp [JoinInner.swapDone])
    (fun r hr => absurd (hresult.symm.trans hr) (by simp)) ?_
  rintro waker woken (hs | hs | hs | hs)
  · exact .inr (.inl (by rw [JoinInner.swapDone, hs]; rfl))
  · cases hstage.symm.trans hs
  · cases hstage.symm.trans hs
  · exact .inr (.inr (.inr hs))

theorem Kept.store (h : w.Kept) (hid : w.tasks[k]? = some ⟨inner, some (.swapped waker), result⟩) :
    Kept { w with tasks := w.tasks.set k ⟨inner.storeFinished, some (.stored waker), result⟩ } := by
  have hsound := h.sound _ (mem_of_getElem? hid)
  refine h.finishing hid ⟨hsound.done, fun hf => absurd (hsound.fresh hf).2 (by simp)⟩ id
    (fun _ => id) ?_
  rintro x woken (hs | hs | hs | hs)
  · exact .inl hs
  · cases some.inj hs
    exact .inr (.inr (.inl rfl))
  · cases hs
  · exact .inr (.inr (.inr hs))

theorem reached_wake (w : World T P) (waker : ℕ) :
    reached { w with joiner := w.joiner.wake waker } =
      w.reached.map fun x => (x.1, x.2.1, x.2.2 || x.2.1 == waker) := by
  obtain ⟨tasks, handles, joiner, returned⟩ := w
  rcases joiner with _ | ⟨s, _ | x⟩ | _ <;> rfl

theorem Kept.wake (h : w.Kept) (hid : w.tasks[k]? = some ⟨inner, some (.stored waker), result⟩) :
    Kept { w with
        tasks := w.tasks.set k ⟨inner, none, result⟩
        joiner := waker.elim w.joiner w.joiner.wake } := by
  have hsound := h.sound _ (mem_of_getElem? hid)
  refine h.of_member (u := ⟨inner, none, result⟩) hid
    ⟨hsound.done, fun hf => absurd (hsound.fresh hf).2 (by simp)⟩ id (fun _ => id)
    fun x hx j hj => ?_
  -- the waker of the last poll is woken with this step, or stays as it is
  obtain ⟨y, hy, hlist, hwaker, hmono, hwoken⟩ : ∃ y, w.reached = some y ∧ x.1 = y.1 ∧
      x.2.1 = y.2.1 ∧ (y.2.2 → x.2.2) ∧ (waker = some y.2.1 → x.2.2) := by
    cases waker with
    | none => exact ⟨x, hx, rfl, rfl, id, by simp⟩
    | some waker =>
      obtain ⟨y, hy, rfl⟩ := map_eq_some_iff.mp ((reached_wake w waker).symm.trans hx)
      exact ⟨y, hy, rfl, rfl, fun hw => by simp [hw], fun hw => by simp [some.inj hw]⟩
  rw [hlist] at hj
  rw [hwaker]
  refine exists_set hid (fun _ hm => ?_) ?_ (h.heard y hy j hj)
  · exact hm.imp_right fun hm => hm.imp_right fun hm => hm.imp_right hmono
  · rintro (hs | hs | hs | hs)
    · exact .inl hs
    · cases hs
    · exact .inr (.inr (.inr (hwoken (Stage.stored.inj (some.inj hs)))))
    · exact .inr (.inr (.inr (hmono hs)))

theorem Kept.park (h : w.Kept) {waker : ℕ}
    (hj : w.joiner = .scanning shutdown i waker woken) (hi : w.handles[i]? = some k)
    (hid : w.tasks[k]? = some t) (hs : t.inner.isFinished = false) : Kept { w with
        tasks := w.tasks.set k { t with inner := { t.inner with state := .waiting waker } }
        joiner := .scanning shutdown (i + 1) waker woken } := by
  have hsound := h.sound t (mem_of_getElem? hid)
  refine h.of_member (u := { t with inner := { t.inner with state := .waiting waker } }) hid
    ⟨by simp, fun _ => hsound.fresh hs⟩ (fun _ => by simp) (fun _ => id)
    fun x hx j hj' => ?_
  cases hx
  change j ∈ w.handles.take (i + 1) at hj'
  rw [take_add_one, hi] at hj'
  rcases mem_append.mp hj' with hj' | hj'
  · exact exists_set hid (fun _ => id) (fun _ => .inl rfl)
      (h.heard (w.handles.take i, waker, woken) (by rw [reached, hj]) j hj')
  · rw [toList_some, mem_singleton] at hj'
    rw [hj']
    exact ⟨_, getElem?_set_self (lt_of_some hid), .inl rfl⟩

theorem Kept.not_mem_swapRemove (h : w.Kept) (hi : w.handles[i]? = some k) :
    k ∉ swapRemove w.handles i := by
  have hnodup := (nodup_append.mp (h.perm.nodup_iff.mpr nodup_range)).1
  exact (nodup_cons.mp ((perm_swapRemove hi).nodup_iff.mp hnodup)).1

theorem Kept.take (h : w.Kept) {r : JoinResult T P} (hi : w.handles[i]? = some k)
    (hid : w.tasks[k]? = some t) (hs : t.inner.state = .done r) : Kept
      (⟨w.tasks.set k { t with inner := { t.inner with state := .taken } },
        swapRemove w.handles i, .none, w.returned ++ [(k, r)], w.nones⟩ : World T P) := by
  have hsound := h.sound t (mem_of_getElem? hid)
  have hperm := perm_swapRemove hi
  refine ⟨?_, ?_, ?_, ?_, h.empty, fun x hx => by simp [reached] at hx⟩
  · rw [length_set, map_append]
    refine List.Perm.trans ?_ ((hperm.append_right _).symm.trans h.perm)
    rw [← append_assoc]
    exact perm_append_singleton _ _
  · intro x hx
    rcases mem_or_eq_of_mem_set hx with hx | rfl
    · exact h.sound x hx
    · exact ⟨by simp, fun hf => absurd hf.symm (by simp [
        JoinInner.isFinished])⟩
  · intro j hj
    obtain ⟨x, hx, hne⟩ := h.here j (hperm.mem_iff.mpr (mem_cons_of_mem _ hj))
    have hkj : k ≠ j := fun hkj => h.not_mem_swapRemove hi (hkj ▸ hj)
    exact ⟨x, (getElem?_set_ne hkj).trans hx, hne⟩
  · intro x hx
    rcases mem_append.mp hx with hx | hx
    · refine exists_set hid (fun _ => id) (fun hr => ?_) (h.own x hx)
      exact hr
    · rw [mem_singleton.mp hx]
      exact ⟨_, getElem?_set_self (lt_of_some hid), hsound.done r hs⟩

theorem Kept.scan (h : w.Kept) {waker : ℕ} (hj : w.joiner = .scanning shutdown i waker woken)
    (hs : w.scan shutdown i waker woken = some v) : v.Kept := by
  rw [World.scan] at hs
  cases hi : w.handles[i]? with
  | none =>
    rw [hi] at hs
    cases hs
    refine ⟨h.perm, h.sound, h.here, h.own, h.empty, fun x hx j hj' => ?_⟩
    cases hx
    have hr : w.reached = some (w.handles.take i, waker, woken) := by rw [reached, hj]
    rw [take_of_length_le (List.getElem?_eq_none_iff.mp hi)] at hr
    exact h.heard _ hr j hj'
  | some id =>
    obtain ⟨t, ht, hne⟩ := h.here id (mem_of_getElem? hi)
    simp only [hi, ht] at hs
    cases hstate : t.inner.state with
    | taken => exact absurd hstate hne
    | running | waiting x =>
      simp only [JoinInner.poll, hstate] at hs
      cases hs
      exact h.park hj hi ht (by rw [JoinInner.isFinished, hstate])
    | done r =>
      simp only [JoinInner.poll, hstate] at hs
      cases hs
      split_ifs
      · exact (h.take hi ht hstate).enter true waker woken
      · exact h.take hi ht hstate

theorem kept_of_step (h : w.Kept) (hs : w.step l = some v) : v.Kept := by
  cases l with
  | spawn =>
    obtain ⟨hj, rfl⟩ := of_guard hs
    exact h.spawn hj
  | finish id result =>
    obtain ⟨t, ht, hf, rfl⟩ := bind_guard_eq_some.mp hs
    exact h.finish ht hf result
  | store id =>
    simp only [step] at hs
    split at hs
    next ht =>
      cases hs
      exact h.store ht
    · cases hs
  | wake id =>
    simp only [step] at hs
    split at hs
    next ht =>
      cases hs
      exact h.wake ht
    · cases hs
  | abortAll =>
    obtain ⟨-, rfl⟩ := of_guard hs
    exact h
  | joinNext | shutdown =>
    obtain ⟨-, rfl⟩ := of_guard hs
    exact h.of_joiner h.empty fun x hx => by simp [reached] at hx
  | poll waker =>
    simp only [step] at hs
    split at hs
    · cases hs
      exact h.enter _ waker false
    · cases hs
  | scan =>
    simp only [step] at hs
    split at hs
    next hj => exact h.scan hj hs
    · cases hs
  | drop =>
    simp only [step] at hs
    split at hs
    · cases hs
      exact h.of_joiner h.empty fun x hx => by simp [reached] at hx
    · cases hs

theorem kept_of_reachable (h : joinSet.Reachable w) : w.Kept := by
  refine System.inv_of_reachable (I := Kept) ?_ (fun _ _ _ hk hs => kept_of_step hk hs) h
  exact ⟨.refl _, fun t ht => absurd ht not_mem_nil, fun x hx => absurd hx not_mem_nil,
    fun x hx => absurd hx not_mem_nil, fun x hx => absurd hx not_mem_nil,
    fun x hx => by simp [joinSet, reached] at hx⟩

/-! ## The end of `shutdown` -/

/-- All tasks of the set have their result in the cell. -/
def Finished (w : World T P) : Prop :=
  ∀ id ∈ w.handles, ∃ t, w.tasks[id]? = some t ∧ t.inner.isFinished = true

theorem drains : ∀ (n : ℕ) (w : World T P), w.handles.length = n → w.Kept → w.Finished →
    ∀ waker woken, joinSet.LeadsTo (fun l => l = .scan)
      (fun v => v.handles = [] ∧ v.joiner = .none) (w.enter true waker woken)
  | 0, w, hn, _, _, waker, woken => by
    rw [enter, if_pos (length_eq_zero_iff.mp hn)]
    exact .now ⟨length_eq_zero_iff.mp hn, rfl⟩
  | n + 1, w, hn, h, hf, waker, woken => by
    obtain ⟨id, rest, hids⟩ := exists_cons_of_length_eq_add_one hn
    have hi : w.handles[0]? = some id := by rw [hids]; rfl
    obtain ⟨t, ht, hdone⟩ := hf id (mem_of_getElem? hi)
    obtain ⟨t', ht', hne⟩ := h.here id (mem_of_getElem? hi)
    cases ht.symm.trans ht'
    cases hstate : t.inner.state with
    | taken => exact absurd hstate hne
    | running | waiting x => simp [JoinInner.isFinished, hstate] at hdone
    | done r =>
      have hlen := (perm_swapRemove hi).length_eq
      rw [hn, length_cons] at hlen
      -- the first handle is taken out, and the loop of `shutdown` goes on
      refine .of_step (e := .scan) rfl ?_ (drains n _ (Nat.succ.inj hlen).symm (h.take hi ht hstate)
        (fun j hj => ?_) waker woken)
      · rw [enter, if_neg (by simp [hids])]
        simp [joinSet, step, scan, hi, ht, JoinInner.poll, hstate]
      · have hmem := (perm_swapRemove hi).mem_iff.mpr (mem_cons_of_mem _ hj)
        obtain ⟨x, hx, hdone'⟩ := hf j hmem
        have hkj : id ≠ j := fun hkj => h.not_mem_swapRemove hi (hkj ▸ hj)
        exact ⟨x, (getElem?_set_ne hkj).trans hx, hdone'⟩

/-- **Every result once.**  Every task ever spawned is in the set or was returned, and only one of
the two and once; so the length is the number of tasks that were not returned.  What was returned is
what the task finished with, no handle of the set panics when it is polled, and `None` was returned
to `join_next` and to `shutdown` on an empty set only.  A parked future was woken if a member has
finished, and one poll of `shutdown` empties the set once all have. -/
theorem joinSet_returns_once (w : World T P) (h : joinSet.Reachable w) :
    (w.handles ++ w.returned.map Prod.fst).Perm (List.range w.tasks.length) ∧
    w.handles.length + w.returned.length = w.tasks.length ∧
    (∀ x ∈ w.returned, ∃ t, w.tasks[x.1]? = some t ∧ t.result = some x.2) ∧
    (∀ id ∈ w.handles, ∃ t, w.tasks[id]? = some t ∧ ∀ waker, t.inner.poll waker ≠ none) ∧
    (∀ x ∈ w.nones, x.2 = 0) ∧
    (∀ shutdown waker woken, w.joiner = .waiting shutdown (some (waker, woken)) →
      ∀ id ∈ w.handles, ∃ t, w.tasks[id]? = some t ∧
        (t.inner.isFinished = true → t.stage = none → woken = true)) ∧
    ∀ last waker, w.joiner = .waiting true last → w.Finished →
      joinSet.LeadsTo (fun l => l = .poll waker ∨ l = .scan)
        (fun v => v.handles = [] ∧ v.joiner = .none) w := by
  have hk := kept_of_reachable h
  refine ⟨hk.perm, ?_, hk.own, fun id hid => ?_, hk.empty, ?_, fun last waker hj hf => ?_⟩
  · simpa using hk.perm.length_eq
  · obtain ⟨t, ht, hne⟩ := hk.here id hid
    refine ⟨t, ht, fun waker => ?_⟩
    rw [JoinInner.poll]
    cases hstate : t.inner.state with
    | taken => exact absurd hstate hne
    | running | waiting x | done r => simp
  · intro shutdown waker woken hj id hid
    obtain ⟨t, ht, hheard⟩ := hk.heard (w.handles, waker, woken) (by rw [reached, hj]) id hid
    refine ⟨t, ht, fun hf hstage => ?_⟩
    rcases hheard with hs | hs | hs | hs
    · simp [JoinInner.isFinished, hs] at hf
    · cases hstage.symm.trans hs
    · cases hstage.symm.trans hs
    · exact hs
  · refine .of_step (e := .poll waker) (.inl rfl) ?_
      ((drains _ w rfl hk hf waker false).mono_label fun _ => .inr)
    simp [joinSet, step, hj]

theorem joinSet_returns_once_after_drop :
    ∃ w : World ℕ ℕ, joinSet.Reachable w ∧ w.handles = [0] ∧ w.returned = [(1, .ok 7)] ∧
      w.handles.length + w.returned.length = w.tasks.length := by
  have hw : ∃ w : World ℕ ℕ, joinSet.Reachable w ∧ w.handles = [0] ∧ w.returned = [(1, .ok 7)] :=
    ⟨_, ⟨[.spawn, .spawn, .joinNext, .poll 3, .scan, .scan, .scan, .drop, .finish 1 (.ok 7),
      .joinNext, .poll 4, .scan, .scan], rfl⟩, rfl, rfl⟩
  obtain ⟨w, hr, hh, hret⟩ := hw
  exact ⟨w, hr, hh, hret, (joinSet_returns_once w hr).2.1⟩

end World
end JoinSet
end RustyTokio.Task

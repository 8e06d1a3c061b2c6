import RustyTokio.Transition.Futures
import RustyTokio.Transition.System

/-!
# `fs::ReadDir`

`src/fs/read_dir.rs`.  A directory is read ahead in batches of `CHUNK_SIZE` entries, each by one
closure on the blocking pool.  The state is the `ReadDir`'s own: a future of `next_entry` that is
dropped leaves the closure running, and the next call takes its batch.  The error that ends a batch
is returned before the entries of the batch.
-/

namespace RustyTokio.Fs
namespace ReadDir

open Transition List

variable {α ε : Type}

def chunkSize : ℕ := 32

inductive Error (ε : Type) where
  | io (e : ε)
  | poisoned
  deriving DecidableEq

abbrev Reader (α ε : Type) := List (Except ε α)

structure Chunk (α ε : Type) where
  buf : List α
  reader : Option (Reader α ε)
  result : Except ε Unit

/-- The loop of `next_chunk`, with the rounds left and the entries read. -/
def nextChunk : ℕ → List α → Reader α ε → Chunk α ε
  | 0, buf, reader => ⟨buf, some reader, .ok ()⟩
  | _ + 1, buf, [] => ⟨buf, none, .ok ()⟩
  | _ + 1, buf, .error e :: _ => ⟨buf, none, .error e⟩
  | n + 1, buf, .ok entry :: reader => nextChunk n (buf ++ [entry]) reader

inductive Job (α ε : Type) where
  | running (reader : Reader α ε)
  | done (chunk : Chunk α ε)
  | panicked

inductive State (α ε : Type) where
  | idle (buf : List α) (reader : Option (Reader α ε))
  | busy (job : Job α ε)
  | poisoned

abbrev Answer (α ε : Type) := Except (Error ε) (Option α)

/-- One pass of the loop of `poll_next_entry`, with what it returns, if it does. -/
def pass : State α ε → State α ε × Option (Poll (Answer α ε))
  | .idle (entry :: buf) reader => (.idle buf reader, some (.ready (.ok (some entry))))
  | .idle [] none => (.idle [] none, some (.ready (.ok none)))
  | .idle [] (some reader) => (.busy (.running reader), none)
  | .busy (.running reader) => (.busy (.running reader), some .pending)
  | .busy .panicked => (.poisoned, some (.ready (.error .poisoned)))
  | .busy (.done ⟨buf, reader, .error e⟩) =>
    (.idle buf reader, some (.ready (.error (.io e))))
  | .busy (.done ⟨buf, reader, .ok _⟩) => (.idle buf reader, none)
  | .poisoned => (.poisoned, some (.ready (.error .poisoned)))

/-- There is no future of `next_entry`, or it is between two polls, or in one. -/
inductive Call where
  | none
  | waiting
  | polling
  deriving DecidableEq

structure World (α ε : Type) where
  state : State α ε
  call : Call
  log : List (Answer α ε)

inductive Label where
  | call
  | poll
  | pass
  | drop
  | work
  | crash
  deriving DecidableEq

namespace World

def step (w : World α ε) : Label → Option (World α ε)
  | .call => if w.call = .none then some { w with call := .waiting } else none
  | .poll => if w.call = .waiting then some { w with call := .polling } else none
  | .pass =>
    if w.call = .polling then
      match pass w.state with
      | (state, none) => some { w with state := state }
      | (state, some .pending) => some { w with state := state, call := .waiting }
      | (state, some (.ready answer)) => some ⟨state, .none, w.log ++ [answer]⟩
    else none
  | .drop => if w.call = .waiting then some { w with call := .none } else none
  | .work =>
    match w.state with
    | .busy (.running reader) =>
      some { w with state := .busy (.done (nextChunk chunkSize [] reader)) }
    | _ => none
  | .crash =>
    match w.state with
    | .busy (.running _) => some { w with state := .busy .panicked }
    | _ => none

end World

def readDir (items : Reader α ε) : System (World α ε) Label where
  init := ⟨.idle [] (some items), .none, []⟩
  step := World.step

/-! ## What there is to return -/

/-- The entries before the first error or the end. -/
def entries : Reader α ε → List α
  | .ok entry :: reader => entry :: entries reader
  | _ => []

def failure : Reader α ε → Option ε
  | [] => none
  | .error e :: _ => some e
  | .ok _ :: reader => failure reader

/-- The entries of the full batches, the error, and the other entries. -/
def answers (items : Reader α ε) : List (Answer α ε) :=
  let full := chunkSize * ((entries items).length / chunkSize)
  ((entries items).take full).map (fun entry => .ok (some entry)) ++
    (failure items).toList.map (fun e => .error (.io e)) ++
    ((entries items).drop full).map fun entry => .ok (some entry)

def entryOf : Answer α ε → Option α
  | .ok entry => entry
  | .error _ => none

def errorOf : Answer α ε → Option (Error ε)
  | .ok _ => none
  | .error e => some e

theorem entries_of_answers (items : Reader α ε) :
    (answers items).filterMap entryOf = entries items ∧
      (answers items).filterMap errorOf = (failure items).toList.map .io := by
  simp only [answers, filterMap_append, filterMap_map, Function.comp_def, entryOf,
    errorOf, filterMap_some, filterMap_none, append_nil, nil_append, take_append_drop, true_and]
  cases failure items <;> rfl

def due : State α ε → List (Answer α ε)
  | .idle buf reader => buf.map (fun entry => .ok (some entry)) ++ reader.elim [] answers
  | .busy (.running reader) => answers reader
  | .busy (.done chunk) =>
    (match chunk.result with
      | .ok _ => []
      | .error e => [.error (.io e)]) ++
    chunk.buf.map (fun entry => .ok (some entry)) ++ chunk.reader.elim [] answers
  | .busy .panicked | .poisoned => []

theorem nextChunk_of_full : ∀ (n : ℕ) (buf : List α) (reader : Reader α ε),
    n ≤ (entries reader).length →
    nextChunk n buf reader = ⟨buf ++ (entries reader).take n, some (reader.drop n), .ok ()⟩ ∧
      entries (reader.drop n) = (entries reader).drop n ∧ failure (reader.drop n) = failure reader
  | 0, buf, reader, _ => by simp [nextChunk]
  | n + 1, buf, .ok entry :: reader, h => by
    obtain ⟨hc, he, hf⟩ := nextChunk_of_full n (buf ++ [entry]) reader (Nat.le_of_succ_le_succ h)
    refine ⟨?_, he, hf⟩
    rw [nextChunk, hc, append_assoc]
    rfl
  | n + 1, _, [], h | n + 1, _, .error _ :: _, h => absurd h (Nat.not_succ_le_zero n)

theorem nextChunk_of_short : ∀ (n : ℕ) (buf : List α) (reader : Reader α ε),
    (entries reader).length < n → nextChunk n buf reader = ⟨buf ++ entries reader, none,
      (failure reader).elim (.ok ()) .error⟩
  | n + 1, buf, .ok entry :: reader, h => by
    rw [nextChunk, nextChunk_of_short n _ reader (Nat.lt_of_succ_lt_succ h), append_assoc]
    rfl
  | n + 1, buf, [], _ | n + 1, buf, .error e :: _, _ => by simp [nextChunk, entries, failure]

theorem due_work (reader : Reader α ε) :
    due (.busy (.done (nextChunk chunkSize [] reader))) = answers reader := by
  rcases Nat.lt_or_ge (entries reader).length chunkSize with hlt | hge
  · rw [nextChunk_of_short _ _ _ hlt, answers, Nat.div_eq_of_lt hlt]
    cases failure reader with
    | none | some e => simp [due]
  · obtain ⟨hc, he, hf⟩ := nextChunk_of_full chunkSize [] reader hge
    -- the entries of the first batch, and what is left of the full ones
    have hfull : chunkSize * ((entries reader).length / chunkSize) =
        chunkSize + chunkSize * ((entries (reader.drop chunkSize)).length / chunkSize) := by
      rw [he, length_drop]
      simp only [chunkSize] at hge ⊢
      omega
    rw [hc, answers, hfull, take_add, ← drop_drop, ← he, ← hf]
    simp [due, answers]

/-! ## Over a run -/

/-- What was returned and what is due are the answers, and `Ok(None)` after them. -/
structure World.Kept (items : Reader α ε) (w : World α ε) : Prop where
  sane : w.state ≠ .poisoned ∧ w.state ≠ .busy .panicked
  chunk : ∀ chunk, w.state = .busy (.done chunk) → ∃ reader, chunk = nextChunk chunkSize [] reader
  log : ∃ m, w.log ++ due w.state = answers items ++ List.replicate m (.ok none) ∧
    (0 < m → w.state = .idle [] none)

variable {items : Reader α ε} {w v : World α ε} {l : Label}

theorem kept_pass (h : w.Kept items) (hs : w.step .pass = some v) : v.Kept items := by
  obtain ⟨-, hs⟩ := Option.ite_none_right_eq_some.mp hs
  obtain ⟨m, hlog, hm⟩ := h.log
  cases hw : w.state with
  | poisoned => exact absurd hw h.sane.1
  | idle buf reader =>
    rw [hw] at hs hlog hm
    cases buf with
    | cons entry buf =>
      cases hs
      refine ⟨by simp, by simp, m, ?_, fun h0 => by simpa using hm h0⟩
      rw [← hlog, append_assoc]
      rfl
    | nil =>
      cases reader with
      | none =>
        cases hs
        refine ⟨by simp, by simp, m + 1, ?_, fun _ => rfl⟩
        have hall : w.log = answers items ++ List.replicate m (.ok none) := by
          simpa [due] using hlog
        rw [hall, replicate_succ']
        simp [due]
      | some reader =>
        cases hs
        exact ⟨by simp, by simp, m, hlog, fun h0 => by simpa using hm h0⟩
  | busy job =>
    rw [hw] at hs hlog hm
    have h0 : m = 0 := Nat.eq_zero_of_not_pos fun h0 => by simpa using hm h0
    subst h0
    cases job with
    | running reader =>
      cases hs
      exact ⟨by simp, by simp, 0, hlog, fun h0 => absurd h0 (Nat.lt_irrefl 0)⟩
    | panicked => exact absurd hw h.sane.2
    | done chunk =>
      obtain ⟨buf, reader, result⟩ := chunk
      cases result with
      | error e =>
        cases hs
        refine ⟨by simp, by simp, 0, ?_, fun h0 => absurd h0 (Nat.lt_irrefl 0)⟩
        rw [← hlog, append_assoc]
        rfl
      | ok u =>
        cases hs
        exact ⟨by simp, by simp, 0, hlog, fun h0 => absurd h0 (Nat.lt_irrefl 0)⟩

theorem kept_of_step (h : w.Kept items) (hl : l ≠ .crash) (hs : w.step l = some v) :
    v.Kept items := by
  cases l with
  | call | poll | drop =>
    obtain ⟨-, rfl⟩ := of_guard hs
    exact ⟨h.sane, h.chunk, h.log⟩
  | pass => exact kept_pass h hs
  | work =>
    obtain ⟨m, hlog, hm⟩ := h.log
    simp only [World.step] at hs
    split at hs
    next reader hw =>
      cases hs
      rw [hw] at hlog hm
      refine ⟨by simp, fun chunk hc => ⟨reader, ?_⟩, m, ?_, fun h0 => by simpa using hm h0⟩
      · simpa using hc.symm
      · rw [← hlog]
        exact congrArg _ (due_work reader)
    · cases hs
  | crash => exact absurd rfl hl

theorem kept_of_reachableUnder
    (h : (readDir items).ReachableUnder (fun _ l => l ≠ .crash) w) : w.Kept items := by
  refine System.inv_of_reachableUnder (I := World.Kept items) ⟨by simp [readDir], by simp [readDir],
    0, ?_, fun h0 => absurd h0 (Nat.lt_irrefl 0)⟩ (fun _ _ _ hk hl hs => kept_of_step hk hl hs) h
  simp [readDir, due]

/-! ## Every call returns -/

def Label.goesOn : Label → Bool
  | .poll | .pass | .work => true
  | _ => false

/-- The call can return, by polls and the work of the pool alone. -/
def World.Returns (items : Reader α ε) (w : World α ε) : Prop :=
  (readDir items).LeadsTo (fun l => l.goesOn = true)
    (fun v => v.call = .none ∧ ∃ answer, v.log = w.log ++ [answer]) w

variable {log : List (Answer α ε)}

theorem returns_idle {buf : List α} {reader : Option (Reader α ε)}
    (h : buf ≠ [] ∨ reader = none) : World.Returns items ⟨.idle buf reader, .polling, log⟩ := by
  cases buf with
  | cons entry buf => exact .of_step (e := .pass) rfl rfl (.now ⟨rfl, _, rfl⟩)
  | nil =>
    obtain rfl := h.resolve_left fun hne => hne rfl
    exact .of_step (e := .pass) rfl rfl (.now ⟨rfl, _, rfl⟩)

theorem returns_done (reader : Reader α ε) :
    World.Returns items ⟨.busy (.done (nextChunk chunkSize [] reader)), .polling, log⟩ := by
  have hnext : (nextChunk chunkSize [] reader).buf ≠ [] ∨
      (nextChunk chunkSize [] reader).reader = none := by
    rcases Nat.lt_or_ge (entries reader).length chunkSize with hlt | hge
    · rw [nextChunk_of_short _ _ _ hlt]
      exact .inr rfl
    · rw [(nextChunk_of_full _ _ _ hge).1]
      refine .inl (ne_nil_of_length_pos ?_)
      rw [nil_append, length_take, Nat.min_eq_left hge]
      decide
  generalize nextChunk chunkSize [] reader = chunk at hnext
  obtain ⟨buf, rest, result⟩ := chunk
  cases result with
  | error e => exact .of_step (e := .pass) rfl rfl (.now ⟨rfl, _, rfl⟩)
  | ok u => exact .of_step (e := .pass) rfl rfl (returns_idle hnext)

theorem returns_running (reader : Reader α ε) :
    World.Returns items ⟨.busy (.running reader), .polling, log⟩ :=
  .of_step (e := .work) rfl rfl (returns_done reader)

theorem returns_of_kept (h : w.Kept items) (hc : w.call ≠ .none) : w.Returns items := by
  obtain ⟨state, call, log⟩ := w
  -- the poll begins, if it has not begun
  suffices hp : World.Returns items ⟨state, .polling, log⟩ by
    cases call with
    | none => exact absurd rfl hc
    | waiting => exact .of_step (e := .poll) rfl rfl hp
    | polling => exact hp
  cases state with
  | poisoned => exact absurd rfl h.sane.1
  | idle buf reader =>
    cases buf with
    | cons entry buf => exact returns_idle (.inl (cons_ne_nil _ _))
    | nil =>
      cases reader with
      | none => exact returns_idle (.inr rfl)
      | some reader => exact .of_step (e := .pass) rfl rfl (returns_running reader)
  | busy job =>
    cases job with
    | running reader => exact returns_running reader
    | panicked => exact absurd rfl h.sane.2
    | done chunk =>
      obtain ⟨reader, rfl⟩ := h.chunk chunk rfl
      exact returns_done reader

/-- **Every entry once, in order, and the error once.**  Whatever futures of `next_entry` are made,
polled and dropped, the calls return the entries of the full batches, then the error, if there is
one, and the other entries, and then `Ok(None)`; and every call can go on to return. -/
theorem readDir_yields_once (items : Reader α ε) :
    (∀ w, (readDir items).ReachableUnder (fun _ l => l ≠ .crash) w →
      (∃ m, w.log <+: answers items ++ List.replicate m (.ok none)) ∧
      (w.call ≠ .none → w.Returns items)) ∧ (answers items).filterMap entryOf = entries items ∧
    (answers items).filterMap errorOf = (failure items).toList.map .io := by
  refine ⟨fun w h => ?_, entries_of_answers items⟩
  have hk := kept_of_reachableUnder h
  obtain ⟨m, hlog, -⟩ := hk.log
  exact ⟨⟨m, _, hlog⟩, returns_of_kept hk⟩

theorem readDir_yields_once_after_drop :
    ∃ w : World ℕ ℕ, (readDir [.ok 1, .ok 2, .error 5]).ReachableUnder (fun _ l => l ≠ .crash) w ∧
      w.log = [.error (.io 5), .ok (some 1)] ∧
      ∃ m, w.log <+: answers [.ok 1, .ok 2, .error 5] ++ List.replicate m (.ok none) := by
  have hr : (readDir [.ok 1, .ok 2, .error 5]).ReachableUnder (fun _ l => l ≠ .crash) _ :=
    ⟨[.call, .poll, .pass, .pass, .drop, .work, .call, .poll, .pass, .call, .poll, .pass], rfl,
      by decide⟩
  exact ⟨_, hr, rfl, ((readDir_yields_once _).1 _ hr).1⟩

end ReadDir
end RustyTokio.Fs

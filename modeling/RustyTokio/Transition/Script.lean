import Mathlib.Data.List.Basic

/-!
# Readers and writers that follow a script

What a component does over a reader or a writer is said for every behaviour of the other side.  Here
that side is a script: the answers to come, one for each call.
-/

namespace RustyTokio.Transition
namespace Script

open List

/-- What a call answers: not yet, or its result. -/
inductive Poll (ε α : Type) where
  | pending
  | ready (result : Except ε α)
  deriving DecidableEq

variable {ε β : Type}

namespace Poll

def bytes : Poll ε (List β) → List β
  | .ready (.ok given) => given
  | _ => []

def count : Poll ε ℕ → ℕ
  | .ready (.ok n) => n
  | _ => 0

/-- The answer of a stream in chunks: not yet, or some bytes. -/
def isChunk : Poll ε (List β) → Bool
  | .pending => true
  | .ready (.ok given) => !given.isEmpty
  | .ready (.error _) => false

/-- The answer of a writer that goes on: not yet, or some bytes taken. -/
def isProgress : Poll ε ℕ → Bool
  | .pending => true
  | .ready (.ok n) => 0 < n
  | .ready (.error _) => false

/-- The answer is no error. -/
def isFine {α : Type} : Poll ε α → Bool
  | .ready (.error _) => false
  | _ => true

@[simp] theorem bytes_ok (given : List β) :
    (.ready (.ok given) : Poll ε (List β)).bytes = given := rfl

@[simp] theorem bytes_error (e : ε) : (.ready (.error e) : Poll ε (List β)).bytes = [] := rfl

@[simp] theorem bytes_pending : (.pending : Poll ε (List β)).bytes = [] := rfl

@[simp] theorem count_ok (n : ℕ) : (.ready (.ok n) : Poll ε ℕ).count = n := rfl

@[simp] theorem count_error (e : ε) : (.ready (.error e) : Poll ε ℕ).count = 0 := rfl

@[simp] theorem count_pending : (.pending : Poll ε ℕ).count = 0 := rfl

end Poll

/-! ## Sources -/

structure Source (ε β : Type) where
  script : List (Poll ε (List β))
  log : List (ℕ × Poll ε (List β))
  deriving DecidableEq

namespace Source

def ofScript (script : List (Poll ε (List β))) : Source ε β := ⟨script, []⟩

def next : List (Poll ε (List β)) → ℕ → List (Poll ε (List β)) × Poll ε (List β)
  | [], _ => ([], .ready (.ok []))
  | .ready (.ok chunk) :: rest, room =>
    if chunk.length ≤ room then (rest, .ready (.ok chunk))
    else (.ready (.ok (chunk.drop room)) :: rest, .ready (.ok (chunk.take room)))
  | answer :: rest, _ => (rest, answer)

def pollRead (s : Source ε β) (room : ℕ) : Source ε β × Poll ε (List β) :=
  (⟨(next s.script room).1, s.log ++ [(room, (next s.script room).2)]⟩, (next s.script room).2)

def produced (s : Source ε β) : List β := s.log.flatMap fun call => call.2.bytes

theorem log_pollRead (s : Source ε β) (room : ℕ) :
    (s.pollRead room).1.log = s.log ++ [(room, (s.pollRead room).2)] := rfl

theorem bytes_length_le (s : Source ε β) (room : ℕ) : (s.pollRead room).2.bytes.length ≤ room := by
  obtain ⟨script, log⟩ := s
  rcases script with _ | ⟨_ | _ | chunk, rest⟩
  · exact Nat.zero_le _
  · exact Nat.zero_le _
  · exact Nat.zero_le _
  · by_cases hfit : chunk.length ≤ room
    · simp [pollRead, next, hfit]
    · simp only [pollRead, next, if_neg hfit, Poll.bytes_ok]
      exact length_take_le _ _

@[simp] theorem produced_pollRead (s : Source ε β) (room : ℕ) :
    (s.pollRead room).1.produced = s.produced ++ (s.pollRead room).2.bytes := by
  simp [produced, pollRead]

def rest (s : Source ε β) : List β := s.script.flatMap Poll.bytes

theorem rest_eq_append (s : Source ε β) (room : ℕ) :
    s.rest = (s.pollRead room).2.bytes ++ (s.pollRead room).1.rest := by
  obtain ⟨script, log⟩ := s
  rcases script with _ | ⟨_ | _ | chunk, rest⟩
  · rfl
  · rfl
  · rfl
  · by_cases hfit : chunk.length ≤ room
    · simp [pollRead, next, hfit, Source.rest]
    · simp [pollRead, next, hfit, Source.rest, ← append_assoc]

variable {s' : Source ε β} {answer : Poll ε (List β)} {s : Source ε β} {room : ℕ}

theorem of_pollRead {s : Source ε β} {room : ℕ} (h : s.pollRead room = (s', answer)) :
    s'.produced = s.produced ++ answer.bytes ∧ s.rest = answer.bytes ++ s'.rest ∧
      answer.bytes.length ≤ room := by
  obtain ⟨rfl, rfl⟩ := Prod.ext_iff.mp h
  exact ⟨s.produced_pollRead room, s.rest_eq_append room, s.bytes_length_le room⟩

/-- The bytes of a script before it first says that it is at the end. -/
def untilEnd : List (Poll ε (List β)) → List β
  | [] => []
  | .ready (.ok []) :: _ => []
  | answer :: rest => answer.bytes ++ untilEnd rest

theorem untilEnd_data {chunk : List β} (h : chunk ≠ []) (rest : List (Poll ε (List β))) :
    untilEnd (.ready (.ok chunk) :: rest) = chunk ++ untilEnd rest := by
  obtain ⟨x, chunk, rfl⟩ := exists_cons_of_ne_nil h
  rfl

theorem untilEnd_eq_append (h : (s.pollRead room).2 ≠ .ready (.ok [])) :
    untilEnd s.script = (s.pollRead room).2.bytes ++ untilEnd (s.pollRead room).1.script := by
  obtain ⟨script, log⟩ := s
  rcases script with _ | ⟨_ | _ | chunk, rest⟩
  · exact absurd rfl h
  · rfl
  · rfl
  · by_cases hfit : chunk.length ≤ room
    · have hne : chunk ≠ [] := by
        rintro rfl
        simp [pollRead, next] at h
      simp only [pollRead, next, if_pos hfit]
      exact untilEnd_data hne rest
    · have hne : chunk ≠ [] := by
        rintro rfl
        exact hfit (Nat.zero_le _)
      have hleft : chunk.drop room ≠ [] := by
        rw [ne_eq, drop_eq_nil_iff]
        exact hfit
      simp only [pollRead, next, if_neg hfit]
      rw [untilEnd_data hne, untilEnd_data hleft, ← append_assoc]
      exact congrArg (· ++ untilEnd rest) (take_append_drop room chunk).symm

theorem untilEnd_of_ended (hroom : 0 < room)
    (h : (s.pollRead room).2 = .ready (.ok [])) : untilEnd s.script = [] := by
  obtain ⟨script, log⟩ := s
  rcases script with _ | ⟨_ | _ | chunk, rest⟩
  · rfl
  · simp [pollRead, next] at h
  · simp [pollRead, next] at h
  · by_cases hfit : chunk.length ≤ room
    · simp only [pollRead, next, if_pos hfit, Poll.ready.injEq, Except.ok.injEq] at h
      rw [h]
      rfl
    · simp only [pollRead, next, if_neg hfit, Poll.ready.injEq, Except.ok.injEq] at h
      rcases take_eq_nil_iff.mp h with hzero | rfl
      · exact absurd hzero (Nat.ne_of_gt hroom)
      · exact absurd (Nat.zero_le _) hfit

/-- The reader as far as it does not fail. -/
def sane (s : Source ε β) : Source ε β := { s with script := s.script.takeWhile Poll.isFine }

theorem pollRead_sane (h : (s.pollRead room).2.isFine) :
    s.sane.pollRead room = ((s.pollRead room).1.sane, (s.pollRead room).2) := by
  obtain ⟨script, log⟩ := s
  rcases script with _ | ⟨_ | _ | chunk, rest⟩
  · rfl
  · rfl
  · cases h
  · have hfine : ∀ c rest, (Poll.ready (.ok c) :: rest : List (Poll ε (List β))).takeWhile
        Poll.isFine = .ready (.ok c) :: rest.takeWhile Poll.isFine :=
      fun _ _ => takeWhile_cons_of_pos rfl
    by_cases hfit : chunk.length ≤ room <;> simp [sane, pollRead, next, hfit, hfine]

/-- A stream in chunks: no errors, and no end before the last chunk. -/
def Chunked (s : Source ε β) : Prop := ∀ answer ∈ s.script, answer.isChunk = true

instance (s : Source ε β) : Decidable s.Chunked :=
  inferInstanceAs (Decidable (∀ answer ∈ s.script, answer.isChunk = true))

inductive Reads (s s' : Source ε β) : Poll ε (List β) → Prop where
  | pending (h : s'.Chunked) (hrest : s'.rest = s.rest)
      (hless : s'.script.length < s.script.length) : Reads s s' .pending
  | ended (h : s'.Chunked) (hrest : s.rest = []) (hrest' : s'.rest = [])
      (hle : s'.script.length ≤ s.script.length) : Reads s s' (.ready (.ok []))
  | gave {chunk} (h : s'.Chunked) (hne : chunk ≠ []) (hrest : s.rest = chunk ++ s'.rest)
      (hle : s'.script.length ≤ s.script.length) : Reads s s' (.ready (.ok chunk))

theorem Chunked.of_pollRead (h : s.Chunked)
    (hroom : 0 < room) (hread : s.pollRead room = (s', answer)) : Reads s s' answer := by
  obtain ⟨rfl, rfl⟩ := Prod.ext_iff.mp hread
  have hrest := s.rest_eq_append room
  obtain ⟨script, log⟩ := s
  rcases script with _ | ⟨answer, rest⟩
  · exact .ended h rfl rfl (Nat.le_refl _)
  · have hrestChunked : ∀ log, Chunked (⟨rest, log⟩ : Source ε β) :=
      fun _ answer' hmem => h answer' (mem_cons_of_mem _ hmem)
    have hchunk := h answer mem_cons_self
    rcases answer with _ | _ | chunk
    · exact .pending (hrestChunked _) rfl (Nat.lt_succ_self _)
    · cases hchunk
    · have hne : chunk ≠ [] := by simpa [Poll.isChunk] using hchunk
      by_cases hfit : chunk.length ≤ room
      · simp only [Source.pollRead, next, if_pos hfit] at hrest ⊢
        exact .gave (hrestChunked _) hne hrest (Nat.le_succ _)
      · have hleft : chunk.drop room ≠ [] := by
          rw [ne_eq, drop_eq_nil_iff]
          exact hfit
        have htaken : chunk.take room ≠ [] := by
          rw [ne_eq, take_eq_nil_iff]
          rintro (hzero | hnil)
          · exact Nat.ne_of_gt hroom hzero
          · exact hne hnil
        simp only [Source.pollRead, next, if_neg hfit] at hrest ⊢
        refine .gave (fun answer' hmem => ?_) htaken hrest (Nat.le_refl _)
        rcases mem_cons.mp hmem with rfl | hmem
        · simpa [Poll.isChunk] using hleft
        · exact h answer' (mem_cons_of_mem _ hmem)

end Source

/-! ## Sinks -/

inductive Event (ε β : Type) where
  | wrote (bytes : List β)
  | flush (answer : Poll ε Unit)
  | shutdown (answer : Poll ε Unit)
  deriving DecidableEq

def Event.bytes : Event ε β → List β
  | .wrote bytes => bytes
  | _ => []

/-- A writer: the answers to come, and the calls so far. -/
structure Sink (ε β : Type) where
  writes : List (Poll ε ℕ)
  flushes : List (Poll ε Unit)
  shutdowns : List (Poll ε Unit)
  log : List (Event ε β)
  deriving DecidableEq

namespace Sink

def ofScripts (writes : List (Poll ε ℕ)) (flushes shutdowns : List (Poll ε Unit)) : Sink ε β :=
  ⟨writes, flushes, shutdowns, []⟩

def pollWrite (s : Sink ε β) (data : List β) : Sink ε β × Poll ε ℕ :=
  match s.writes with
  | [] => ({ s with log := s.log ++ [.wrote data] }, .ready (.ok data.length))
  | .ready (.ok n) :: rest =>
    ({ s with writes := rest, log := s.log ++ [.wrote (data.take n)] },
      .ready (.ok (min n data.length)))
  | answer :: rest => ({ s with writes := rest }, answer)

def reply : List (Poll ε Unit) → Poll ε Unit
  | [] => .ready (.ok ())
  | answer :: _ => answer

def pollFlush (s : Sink ε β) : Sink ε β × Poll ε Unit :=
  ({ s with flushes := s.flushes.tail, log := s.log ++ [.flush (reply s.flushes)] },
    reply s.flushes)

def pollShutdown (s : Sink ε β) : Sink ε β × Poll ε Unit :=
  ({ s with shutdowns := s.shutdowns.tail, log := s.log ++ [.shutdown (reply s.shutdowns)] },
    reply s.shutdowns)

def accepted (s : Sink ε β) : List β := s.log.flatMap Event.bytes

theorem count_le (s : Sink ε β) (data : List β) : (s.pollWrite data).2.count ≤ data.length := by
  obtain ⟨writes, flushes, shutdowns, log⟩ := s
  rcases writes with _ | ⟨_ | _ | n, rest⟩
  · exact Nat.le_refl _
  · exact Nat.zero_le _
  · exact Nat.zero_le _
  · exact Nat.min_le_right n data.length

@[simp] theorem accepted_pollWrite (s : Sink ε β) (data : List β) :
    (s.pollWrite data).1.accepted = s.accepted ++ data.take (s.pollWrite data).2.count := by
  obtain ⟨writes, flushes, shutdowns, log⟩ := s
  rcases writes with _ | ⟨_ | _ | n, rest⟩
  · simp [accepted, pollWrite, Event.bytes]
  · simp [accepted, pollWrite]
  · simp [accepted, pollWrite]
  · simp [accepted, pollWrite, Event.bytes, take_eq_take_iff]

variable {s s' : Sink ε β} {data got : List β} {answer : Poll ε ℕ}

theorem accepted_of_pollWrite (h : s.pollWrite data = (s', answer)) :
    s'.accepted = s.accepted ++ data.take answer.count ∧ answer.count ≤ data.length := by
  have haccepted := s.accepted_pollWrite data
  have hcount := s.count_le data
  rw [h] at haccepted hcount
  exact ⟨haccepted, hcount⟩

@[simp] theorem accepted_pollFlush (s : Sink ε β) : s.pollFlush.1.accepted = s.accepted := by
  simp [accepted, pollFlush, Event.bytes]

@[simp] theorem accepted_pollShutdown (s : Sink ε β) : s.pollShutdown.1.accepted = s.accepted := by
  simp [accepted, pollShutdown, Event.bytes]

/-- A writer that takes a byte at least whenever it takes anything, and never fails. -/
structure Willing (s : Sink ε β) : Prop where
  writes : ∀ answer ∈ s.writes, answer.isProgress = true
  flushes : ∀ answer ∈ s.flushes, answer.isFine = true

/-- The number of answers still in the scripts. -/
def waits (s : Sink ε β) : ℕ := s.writes.length + s.flushes.length

/-- The sink has `got`, and was not flushed. -/
structure Receiving (got : List β) (s : Sink ε β) : Prop extends Willing s where
  accepted_eq : s.accepted = got
  unflushed : .flush (.ready (.ok ())) ∉ s.log

/-- The sink has `got`, and was flushed last and once. -/
structure Flushed (got : List β) (s : Sink ε β) : Prop where
  accepted_eq : s.accepted = got
  once : ∃ earlier, s.log = earlier ++ [.flush (.ready (.ok ()))] ∧
    .flush (.ready (.ok ())) ∉ earlier

theorem Receiving.ofScripts {writes : List (Poll ε ℕ)} {flushes shutdowns : List (Poll ε Unit)}
    (h : (ofScripts writes flushes shutdowns : Sink ε β).Willing) :
    (ofScripts writes flushes shutdowns : Sink ε β).Receiving [] :=
  ⟨h, rfl, not_mem_nil⟩

inductive Writes (got data : List β) (s s' : Sink ε β) : Poll ε ℕ → Prop where
  | pending (h : s'.Receiving got) (hless : s'.waits < s.waits) : Writes got data s s' .pending
  | took {n} (h : s'.Receiving (got ++ data.take n)) (hpos : 0 < n) (hn : n ≤ data.length)
      (hle : s'.waits ≤ s.waits) : Writes got data s s' (.ready (.ok n))

theorem Receiving.of_pollWrite
    (h : s.Receiving got) (hdata : data ≠ []) (hwrite : s.pollWrite data = (s', answer)) :
    Writes got data s s' answer := by
  obtain ⟨rfl, rfl⟩ := Prod.ext_iff.mp hwrite
  have hlen := length_pos_iff.mpr hdata
  have haccepted := s.accepted_pollWrite data
  have hunflushed := h.unflushed
  rw [h.accepted_eq] at haccepted
  obtain ⟨writes, flushes, shutdowns, log⟩ := s
  rcases writes with _ | ⟨answer, rest⟩
  · refine .took ⟨⟨h.writes, h.flushes⟩, haccepted, ?_⟩ hlen (Nat.le_refl _) (Nat.le_refl _)
    simpa [Sink.pollWrite] using hunflushed
  · have hrest : ∀ log, Willing (⟨rest, flushes, shutdowns, log⟩ : Sink ε β) :=
      fun _ => ⟨fun answer' hmem => h.writes answer' (mem_cons_of_mem _ hmem), h.flushes⟩
    have hanswer := h.writes answer mem_cons_self
    have hless : rest.length + flushes.length < (answer :: rest).length + flushes.length := by
      rw [length_cons]
      omega
    rcases answer with _ | _ | n
    · refine .pending ⟨hrest _, ?_, hunflushed⟩ hless
      rwa [Sink.pollWrite, Poll.count_pending, take_zero, append_nil] at haccepted
    · cases hanswer
    · have hpos : 0 < n := of_decide_eq_true hanswer
      refine .took ⟨hrest _, haccepted, ?_⟩ (Nat.lt_min.mpr ⟨hpos, hlen⟩) (Nat.min_le_right _ _)
        (Nat.le_of_lt hless)
      simpa [Sink.pollWrite] using hunflushed

/-- What a flush does to a writer that is receiving, by what it answers. -/
inductive Flushes (got : List β) (s s' : Sink ε β) : Poll ε Unit → Prop where
  | pending (h : s'.Receiving got) (hless : s'.waits < s.waits) : Flushes got s s' .pending
  | done (h : s'.Flushed got) : Flushes got s s' (.ready (.ok ()))

theorem Receiving.of_pollFlush {answer : Poll ε Unit}
    (h : s.Receiving got) (hflush : s.pollFlush = (s', answer)) : Flushes got s s' answer := by
  obtain ⟨rfl, rfl⟩ := Prod.ext_iff.mp hflush
  have haccepted := s.accepted_pollFlush.trans h.accepted_eq
  have hunflushed := h.unflushed
  obtain ⟨writes, flushes, shutdowns, log⟩ := s
  rcases flushes with _ | ⟨answer, rest⟩
  · exact .done ⟨haccepted, log, rfl, hunflushed⟩
  · have hanswer := h.flushes answer mem_cons_self
    rcases answer with _ | _ | _
    · refine .pending ⟨⟨h.writes, fun answer' hmem => ?_⟩, haccepted, ?_⟩ ?_
      · exact h.flushes answer' (mem_cons_of_mem _ hmem)
      · simpa [Sink.pollFlush, reply] using hunflushed
      · exact Nat.add_lt_add_left (Nat.lt_succ_self _) _
    · cases hanswer
    · exact .done ⟨haccepted, log, rfl, hunflushed⟩

end Sink

end Script
end RustyTokio.Transition

import RustyTokio.Task.Ending
import RustyTokio.Task.Scheduling

/-!
# A task completes exactly once

The threads of a task keep the ledger of `Task.Ending`.  The protocol says that
the thread that runs the task is alone, the ledger says what it has done.
-/

namespace RustyTokio.Task

open Transition List Option Bool Pc Pool

variable {T P : Type} {s : TaskState T P} {pc pc' : Pc T P} {c c' : Core T P} {ch : Choice T P}
  {i : ℕ} {t : TaskState T P} {l : Label T P}

/-! ## From the code to the books -/

def Pc.progress : Pc T P → Progress T P
  | .abortedTake => .due (.err .cancelled) true
  | .isAborted => .before
  | .abortTake => .due (.err .cancelled) true
  | .takeSlot => .before
  | .emptySlot => .before
  | .poll => .before
  | .putBack => .before
  | .endLoad => .before
  | .endCas _ => .before
  | .clearSlot p => .due (.err (.panicked p)) true
  | .endOr .ready => .given true
  | .endOr (.abnormal o) => .due (.err o.payload) true
  | .endAnd .ready => .given true
  | .endAnd (.abnormal o) => .due (.err o.payload) true
  | .dropHook => .given true
  | .fireHook o => .due (.err o.payload) true
  | .finishSwap r .poll => .due r true
  | .finishSwap r .hook => .due r false
  | .finishStore old .poll => .handing old true
  | .finishStore old .hook => .handing old false
  | .finishWake old .poll => .handing old true
  | .finishWake old .hook => .handing old false
  | .hookReturn => .given false
  | .markFinished => .given false
  | .unwound => .broken
  | _ => .outside

def Core.books (c : Core T P) : Books T P where
  hook := c.hook
  join := c.join
  handle := c.handle
  lastWaker := c.lastWaker
  freed := c.freed
  terminals := c.terminals
  finishes := c.finishes
  marks := c.marks

def TaskState.progresses (s : TaskState T P) : List (Progress T P) := s.threads.map Pc.progress

theorem getElem?_progresses
    (h : s.threads[i]? = some pc) : s.progresses[i]? = some pc.progress := by
  rw [TaskState.progresses, getElem?_map, h]
  rfl

theorem progresses_set (c : Core T P) (l : List (Pc T P)) (i : ℕ) (pc : Pc T P) :
    (TaskState.mk c (l.set i pc)).progresses = (l.map Pc.progress).set i pc.progress := by
  rw [TaskState.progresses, map_set]

theorem Pc.progress_of_owners (h : pc.zone.owners = 0) : pc.progress = .outside := by
  cases pc with
  | finishSwap r k | finishStore old k | finishWake old k =>
    cases k <;> simp [Pc.zone, Zone.owners] at h
  | _ => first | rfl | simp [Pc.zone, Zone.owners] at h

theorem Pc.books_of_light
    (h : pc.step c ch = some (c', pc')) (hl : pc.zone.Light) : c'.books = c.books := by
  cases pc with
  | idle => cases ch <;> grind [Pc.step, Core.books]
  | wakeLoad =>
    obtain ⟨p, hp, -⟩ := wakePass_eq c
    rw [some.inj h] at hp
    obtain rfl : c' = _ := hp
    rfl
  | wakeCas st =>
    obtain ⟨w, p, hp, -⟩ := wakeExchange_eq c st
    rw [some.inj h] at hp
    obtain rfl : c' = _ := hp
    rfl
  | abortOr | runReturn =>
    obtain ⟨rfl, -⟩ := pair_of_some h
    rfl
  | unwoundReturn => simp [Pc.step] at h
  | finishSwap r k | finishStore old k | finishWake old k =>
    cases k <;> simp [Zone.Light, Pc.zone] at hl
  | _ => simp [Zone.Light, Pc.zone] at hl

/-- **The refinement.**  An operation of a thread that holds a token or runs the
task is a step of the books. -/
theorem Pc.step_settles
    (h : pc.step c ch = some (c', pc')) (hl : ¬ pc.zone.Light) (hb : c'.beginFailed = false) :
    Settles c.books pc.progress c'.books pc'.progress := by
  cases pc with
  | beginLoad =>
    rw [Pc.step, some.injEq, beginPollLoad] at h
    split at h <;> cases h
    · exact .keep c.books .outside
    · cases hb
  | beginCas st =>
    rw [Pc.step, some.injEq, beginPollExchange] at h
    split at h
    · split at h <;> cases h
      · exact .startAborted c.books (.err .cancelled)
      · exact .start c.books
    · cases h
      cases hb
  | abortedTake | abortTake =>
    obtain ⟨rfl, rfl | ⟨-, -, rfl⟩⟩ := dropFuture_eq_some h
    · exact .keep c.books (.due (.err .cancelled) true)
    · exact .unwind c.books (.inr ⟨_, rfl⟩)
  | isAborted =>
    rw [Pc.step] at h
    split at h <;> cases h
    · exact .decide c.books (.err .cancelled)
    · exact .keep c.books .before
  | takeSlot =>
    rw [Pc.step] at h
    split at h <;> cases h
    · exact .keep c.books .before
    · exact .keep c.books .before
  | poll =>
    rcases pollFuture_eq_some h with ⟨rfl, rfl⟩ | ⟨v, rfl, rfl⟩ | ⟨p, rfl, rfl⟩ | ⟨-, rfl, rfl⟩
    · exact .keep c'.books .before
    · exact .decide c.books (.ok v)
    · exact .decide c.books (.err (.panicked p))
    · exact .unwind c.books (.inl rfl)
  | endCas st =>
    rw [Pc.step] at h
    split at h <;> cases h
    · split <;> exact .pause c.books
    · exact .keep c.books .before
  | fireHook o =>
    rw [Pc.step, some.injEq] at h
    rcases fireAbnormalHook_cases c o ch with ⟨-, he⟩ | ⟨hh, he | ⟨-, -, he⟩⟩ <;>
      cases he.symm.trans h
    · exact .fire c.books (.err o.payload)
    · exact .skip c.books _ hh
    · exact .unwind c.books (.inr ⟨_, rfl⟩)
  | emptySlot =>
    cases h
    exact .decide c.books (.err .cancelled)
  | schedule | reschedule =>
    cases h
    exact .keep c.books .outside
  | putBack | endLoad =>
    cases h
    exact .keep c.books .before
  | clearSlot p =>
    cases h
    exact .keep c.books _
  | endOr e | endAnd e =>
    cases h
    cases e <;> exact .keep c.books _
  | dropHook =>
    obtain ⟨rfl, rfl | ⟨-, -, rfl⟩⟩ := releaseJoin_eq_some h
    · exact .dropHook c.books
    · exact .abandon c.books true false
  | hookReturn =>
    obtain ⟨rfl, rfl | ⟨-, -, rfl⟩⟩ := releaseJoin_eq_some h
    · exact .keep c'.books (.given false)
    · exact .abandon c'.books false c'.hook
  | finishSwap r k =>
    cases h
    cases k <;> exact .swap c.books r _
  | finishStore old k =>
    cases h
    cases k <;> exact .store c.books old _
  | finishWake old k =>
    cases h
    cases k <;> exact .wake c.books old _
  | markFinished =>
    cases h
    exact .mark c.books
  | unwound => simp [Pc.step] at h
  | _ => simp [Zone.Light, Pc.zone] at hl

theorem Pc.zone_ne_stuck (h : pc.step c ch = some (c', pc')) : pc.zone ≠ .stuck := by
  cases pc with
  | unwound => simp [Pc.step] at h
  | finishSwap r k | finishStore old k | finishWake old k => cases k <;> simp [Pc.zone]
  | _ => simp [Pc.zone]

theorem Pc.eq_unwound_of_progress (h : pc.progress = .broken) : pc = .unwound := by
  cases pc with
  | unwound => rfl
  | endOr e | endAnd e => cases e <;> simp [Pc.progress] at h
  | finishSwap r k | finishStore old k | finishWake old k =>
    cases k <;> simp [Pc.progress] at h
  | _ => simp [Pc.progress] at h

theorem Pc.progress_of_rests (h : pc.zone.Rests) :
    pc.progress = .outside ∨ pc.progress = .broken := by
  cases pc with
  | idle | unwoundReturn => exact .inl rfl
  | unwound => exact .inr rfl
  | finishSwap r k | finishStore old k | finishWake old k => cases k <;> exact h.elim
  | _ => exact h.elim

/-! ## Protocol and ledger together -/

structure Sound (s : TaskState T P) : Prop where
  protocol : Protocol s.core.view s.zones
  ledger : Ledger s.core.books s.progresses

theorem Protocol.alone (h : Protocol s.core.view s.zones)
    (hi : s.threads[i]? = some pc) (hl : ¬ pc.zone.Light) :
    (∀ j q, j ≠ i → s.progresses[j]? = some q → q = .outside) ∧ s.core.marks = 0 ∧
      (pc.zone ≠ .stuck → s.core.freed = false) := by
  have hz := getElem?_zones hi
  have hheavy : 0 < pc.zone.owners ∨ 0 < pc.zone.tokens := by
    by_contra hn
    exact hl (Zone.light_of_idle (by omega) (by omega))
  refine ⟨?_, ?_, ?_⟩
  · intro j q hji hj
    rw [TaskState.progresses, getElem?_map, map_eq_some_iff] at hj
    obtain ⟨pcj, hpcj, rfl⟩ := hj
    exact progress_of_owners
      (h.others_idle hz hheavy (fun e => hji e.symm) (getElem?_zones hpcj)).2
  · have hoe : s.core.marks + _ = _ := h.owners_eq
    have hle := le_total (f := Zone.owners) hz
    rcases hheavy with ho | ht
    · have hle1 := toNat_le ((flags s.core.view.word).running || (flags s.core.view.word).complete)
      omega
    · obtain ⟨hr, hc⟩ := h.excl (h.queued_of_token hz ht)
      rw [hr, hc, Bool.or_self, toNat_false] at hoe
      omega
  · intro hns
    by_contra hf
    have hrest := (h.gone (not_eq_false _ ▸ hf)).2 _ (mem_of_getElem? hz)
    cases hzone : pc.zone with
    | resting => exact hl (.inl hzone)
    | stuck => exact hns hzone
    | _ =>
      rw [hzone] at hrest
      exact hrest

theorem sound_spawned (active n : ℕ) : Sound (TaskState.spawned T P active n) := by
  have hout : ∀ p ∈ (TaskState.spawned T P active n).progresses, p = .outside := by
    intro p hp
    rw [TaskState.progresses, TaskState.spawned, map_cons, map_replicate] at hp
    rcases mem_cons.mp hp with rfl | hp
    · rfl
    · exact eq_of_mem_replicate hp
  refine ⟨protocol_spawned active n, ⟨rfl, by simp [Core.books, TaskState.spawned, Core.spawned]⟩,
    fun _ _ => ⟨rfl, rfl, fun _ => rfl⟩, fun hm => absurd hm (lt_irrefl 0), ?_⟩
  intro p hp
  rw [hout p hp]
  trivial

theorem sound_step (h : Sound s) (hs : s.step l = some t)
    (hb : t.core.beginFailed = false) : Sound t := by
  refine ⟨protocol_step h.protocol hs hb, ?_⟩
  cases steps_of_step hs with
  | @thread i ch pc c pc' hpc hstep =>
    rw [progresses_set]
    by_cases hl : pc.zone.Light
    · have hz : pc.zone.owners = 0 := by rcases hl with he | he <;> rw [he] <;> rfl
      have hp := progress_of_owners hz
      have hp' := progress_of_owners ((step_moves hstep hb).owners_of_light hl)
      have hset : (s.threads.map Pc.progress).set i .outside = s.progresses :=
        set_eq_self (hp ▸ getElem?_progresses hpc)
      rw [books_of_light hstep hl, hp', hset]
      exact h.ledger
    · obtain ⟨hout, hmk, hf⟩ := h.protocol.alone hpc hl
      exact h.ledger.settles (getElem?_progresses hpc) (step_settles hstep hl hb) hout hmk
        (hf (zone_ne_stuck hstep))
  | joinPoll hj => exact h.ledger.joinPoll hj
  | joinDrop => exact h.ledger.joinDrop
  | @free i panics pc pc' hpc hq hrest hcase =>
    have hp : pc.progress = .outside ∧ pc'.progress = .outside := by
      rcases hcase with ⟨rfl, rfl⟩ | ⟨rfl, rfl⟩
      · exact ⟨rfl, rfl⟩
      · exact ⟨rfl, by split <;> rfl⟩
    have hset : (s.threads.map Pc.progress).set i .outside = s.progresses :=
      set_eq_self (hp.1 ▸ getElem?_progresses hpc)
    rw [progresses_set, hp.2, hset]
    refine h.ledger.frees fun q hq => ?_
    obtain ⟨pcj, hmem, rfl⟩ := mem_map.mp hq
    obtain ⟨j, hj⟩ := mem_iff_getElem?.mp hmem
    obtain rfl | hji := eq_or_ne j i
    · cases hpc.symm.trans hj
      exact .inl hp.1
    · exact progress_of_rests (rests_of_othersRest hrest hji hj)

/-! ## What the books say -/

def Progress.isTerminal : Progress T P → Bool
  | .due _ _ => true
  | .handing _ _ => true
  | .given _ => true
  | _ => false

def Progress.isHanding : Progress T P → Bool
  | .handing _ _ => true
  | _ => false

def TaskState.ending (s : TaskState T P) : Bool := s.progresses.any Progress.isTerminal

def TaskState.handing (s : TaskState T P) : Bool := s.progresses.any Progress.isHanding

/-- No thread has unwound out of `run`, and the process has not ended. -/
structure Contained (s : TaskState T P) : Prop where
  unwound : Pc.unwound ∉ s.threads
  unwoundReturn : Pc.unwoundReturn ∉ s.threads
  crashed : s.core.crashed = false

namespace Sound

variable {s : TaskState T P}

theorem finishes_length (h : Sound s) : s.core.finishes.length ≤ 1 := by
  have hj := h.ledger.join
  unfold Books.JoinOk at hj
  have key : s.core.books.finishes.length ≤ 1 := by
    split at hj
    · rw [hj.1]
      exact Nat.zero_le 1
    · rw [hj.1]
      exact Nat.zero_le 1
    · rw [hj]
      exact le_refl 1
    · obtain ⟨⟨r, hr⟩, -⟩ := hj
      rw [hr]
      exact le_refl 1
  exact key

theorem marks_le (h : Sound s) : s.core.marks ≤ 1 := by
  have heq : s.core.marks + _ = _ := h.protocol.owners_eq
  have hle := toNat_le ((flags s.core.view.word).running || (flags s.core.view.word).complete)
  omega

theorem marks_of_progress (h : Sound s) (hmem : pc ∈ s.threads)
    (hne : pc.progress ≠ .outside) : s.core.marks = 0 := by
  obtain ⟨i, hi⟩ := mem_iff_getElem?.mp hmem
  refine (h.protocol.alone hi fun hl => hne (progress_of_owners ?_)).2.1
  rcases hl with he | he <;> rw [he] <;> rfl

theorem outside_or_exists (s : TaskState T P) :
    (∀ p ∈ s.progresses, p = .outside) ∨ ∃ pc ∈ s.threads, pc.progress ≠ .outside := by
  by_cases hall : ∀ p ∈ s.progresses, p = .outside
  · exact .inl hall
  · push Not at hall
    obtain ⟨p, hp, hne⟩ := hall
    obtain ⟨pc, hmem, rfl⟩ := mem_map.mp hp
    exact .inr ⟨pc, hmem, hne⟩

theorem ok_of_mem (h : Sound s) (hmem : pc ∈ s.threads) : pc.progress.Ok s.core.books :=
  h.ledger.ok _ (mem_map.mpr ⟨pc, hmem, rfl⟩)

theorem handed_of_marks (h : Sound s) (hm : 0 < s.core.marks) :
    s.core.finishes = s.core.terminals ∧ s.core.terminals.length = 1 := by
  obtain ⟨⟨r, ht, hf⟩, -⟩ := h.ledger.marked hm
  have ht' : s.core.terminals = [r] := ht
  have hf' : s.core.finishes = [r] := hf
  rw [ht', hf']
  exact ⟨rfl, rfl⟩

/-- **Between terminal paths everything is settled**: what was decided has been
handed over and marked. -/
theorem settled (h : Sound s) (hu : Pc.unwound ∉ s.threads) (he : s.ending = false) :
    s.core.finishes = s.core.terminals ∧ s.core.marks = s.core.terminals.length := by
  rcases Nat.eq_zero_or_pos s.core.marks with hm | hm
  · have hopen : s.core.terminals = [] ∧ s.core.finishes = [] := by
      rcases outside_or_exists s with hall | ⟨pc, hmem, hne⟩
      · obtain ⟨ht, hf, -⟩ := h.ledger.untouched hall hm
        exact ⟨ht, hf⟩
      · -- it runs the task and is not ending it
        have hnt : pc.progress.isTerminal = false := by
          by_contra hT
          have hany : s.ending :=
            any_eq_true.mpr ⟨_, mem_map.mpr ⟨pc, hmem, rfl⟩, by simpa using hT⟩
          simp [he] at hany
        have hok := h.ok_of_mem hmem
        cases hp : pc.progress with
        | outside => exact absurd hp hne
        | before =>
          rw [hp] at hok
          exact ⟨hok.1, hok.2.1⟩
        | broken => exact absurd hmem (eq_unwound_of_progress hp ▸ hu)
        | _ =>
          rw [hp] at hnt
          simp [Progress.isTerminal] at hnt
    rw [hopen.1, hopen.2, hm]
    exact ⟨rfl, rfl⟩
  · obtain ⟨hf, hl⟩ := h.handed_of_marks hm
    have hle := h.marks_le
    exact ⟨hf, by omega⟩

theorem undecided_of_poll (h : Sound s) (hmem : Pc.poll ∈ s.threads) :
    s.core.terminals = [] ∧ s.core.finishes = [] ∧ s.core.marks = 0 := by
  have hok := h.ok_of_mem hmem
  exact ⟨hok.1, hok.2.1, h.marks_of_progress hmem (by simp [Pc.progress])⟩

theorem awake_of_finished (h : Sound s) (hf : s.core.finishes ≠ []) (hh : s.handing = false) :
    s.core.handle ≠ .parked false := by
  rcases Nat.eq_zero_or_pos s.core.marks with hm | hm
  · rcases outside_or_exists s with hall | ⟨pc, hmem, hne⟩
    · exact absurd (h.ledger.untouched hall hm).2.1 hf
    · have hok := h.ok_of_mem hmem
      cases hp : pc.progress with
      | outside => exact absurd hp hne
      | given k =>
        rw [hp] at hok
        exact hok.2.2
      | handing old k =>
        have hany : s.handing :=
          any_eq_true.mpr ⟨_, mem_map.mpr ⟨pc, hmem, rfl⟩, by rw [hp]; rfl⟩
        simp [hh] at hany
      | before | due r k =>
        rw [hp] at hok
        exact absurd hok.2.1 hf
      | broken =>
        rw [hp] at hok
        exact hok.2.resolve_left hf
  · exact (h.ledger.marked hm).2

end Sound

/-! ## A terminal path comes to its end -/

def Pc.remaining : Pc T P → ℕ
  | .markFinished => 1
  | .hookReturn => 2
  | .finishWake _ .hook => 3
  | .finishStore _ .hook => 4
  | .finishSwap _ .hook => 5
  | .fireHook _ => 6
  | .endAnd (.abnormal _) => 7
  | .endOr (.abnormal _) => 8
  | .abortedTake => 7
  | .abortTake => 9
  | .clearSlot _ => 9
  | .dropHook => 2
  | .endAnd .ready => 3
  | .endOr .ready => 4
  | .finishWake _ .poll => 5
  | .finishStore _ .poll => 6
  | .finishSwap _ .poll => 7
  | _ => 0

/-- Thread `i` moves `k` times while all others stand still, and no destructor
panics. -/
def TaskState.alone (s : TaskState T P) (i : ℕ) : ℕ → Option (TaskState T P)
  | 0 => some s
  | k + 1 => (s.step (.thread i .go)).bind fun t => t.alone i k

theorem Pc.terminal_step (c : Core T P) (h : pc.progress.isTerminal) :
    ∃ c' pc', pc.step c .go = some (c', pc') ∧ c'.beginFailed = c.beginFailed ∧
      c'.crashed = c.crashed ∧ c'.terminals = c.terminals ∧
      ((pc'.progress.isTerminal ∧ pc'.remaining < pc.remaining) ∨
        (pc' = .idle ∧ c'.marks = c.marks + 1)) := by
  cases pc with
  | fireHook o =>
    rcases fireAbnormalHook_cases c o .go with ⟨-, he⟩ | ⟨-, he | ⟨-, hgo, -⟩⟩
    · exact ⟨_, _, congrArg some he, rfl, rfl, rfl, .inl ⟨rfl, by simp [Pc.remaining]⟩⟩
    · exact ⟨_, _, congrArg some he, rfl, rfl, rfl, .inl ⟨rfl, by simp [Pc.remaining]⟩⟩
    · cases hgo
  | markFinished => exact ⟨_, _, rfl, rfl, rfl, rfl, .inr ⟨rfl, rfl⟩⟩
  | endOr e => cases e <;> exact ⟨_, _, rfl, rfl, rfl, rfl, .inl ⟨rfl, by simp [Pc.remaining]⟩⟩
  | endAnd e =>
    cases e <;>
      exact ⟨_, _, rfl, rfl, rfl, rfl, .inl ⟨rfl, by simp [Pc.remaining, Ending.next]⟩⟩
  | finishSwap r k | finishStore old k =>
    cases k <;> exact ⟨_, _, rfl, rfl, rfl, rfl, .inl ⟨rfl, by simp [Pc.remaining]⟩⟩
  | finishWake old k =>
    cases k <;>
      exact ⟨_, _, rfl, rfl, rfl, rfl, .inl ⟨rfl, by simp [Pc.remaining, Resume.next]⟩⟩
  | abortedTake | abortTake | clearSlot p | dropHook | hookReturn =>
    exact ⟨_, _, rfl, rfl, rfl, rfl, .inl ⟨rfl, by simp [Pc.remaining]⟩⟩
  | _ => simp [Pc.progress, Progress.isTerminal] at h

/-- **A thread on a terminal path returns from `run`** by its own operations, and
then the result it decided has been handed over and marked, once. -/
theorem Sound.terminal_returns (h : Sound s) (hb : s.core.beginFailed = false)
    (hc : s.core.crashed = false) (hi : s.threads[i]? = some pc) (hT : pc.progress.isTerminal) :
    ∃ k t, s.alone i k = some t ∧ t.threads = s.threads.set i .idle ∧
      t.core.finishes = s.core.terminals ∧ t.core.finishes.length = 1 ∧ t.core.marks = 1 := by
  induction hn : pc.remaining using Nat.strongRecOn generalizing s pc with
  | ind n ih =>
    obtain ⟨c', pc', hstep, hb', hc', ht', hcase⟩ := terminal_step s.core hT
    have hs := step_thread hc hi hstep
    have hsound := sound_step h hs (hb'.trans hb)
    rcases hcase with ⟨hT', hlt⟩ | ⟨rfl, hm⟩
    · have hi' : (s.threads.set i pc')[i]? = some pc' :=
        getElem?_set_self (lt_of_some hi)
      obtain ⟨k, t, hk, hthr, hf, hl, hm⟩ :=
        ih pc'.remaining (hn ▸ hlt) hsound (hb'.trans hb) (hc'.trans hc) hi' hT' rfl
      refine ⟨k + 1, t, ?_, ?_, hf.trans ht', hl, hm⟩
      · rw [TaskState.alone, hs]
        exact hk
      · rw [hthr]
        exact set_set ..
    · have hmk : 0 < (TaskState.mk c' (s.threads.set i .idle)).core.marks := by
        change 0 < c'.marks
        omega
      obtain ⟨hf, hl⟩ := hsound.handed_of_marks hmk
      have hle := hsound.marks_le
      refine ⟨1, _, ?_, rfl, hf.trans ht', by rw [hf]; exact hl, by omega⟩
      rw [TaskState.alone, hs]
      rfl

/-! ## Unwinding -/

/-- A destructor panics where nothing catches it: the future's on an abort path or inside the
unwinding of a poll, or that of the output or of a panic's payload when the hook drops it. -/
def Pc.dropUnwinds (c : Core T P) : Pc T P → Choice T P → Bool
  | .abortedTake, .dropPanic => c.slot
  | .abortTake, .dropPanic => c.slot
  | .poll, .panicDropPanic => true
  | .dropHook, .dropPanic => c.dropsResult
  | .hookReturn, .dropPanic => c.dropsResult
  | .fireHook (.panicked _), .dropPanic => !c.hook
  | _, _ => false

/-- The same for a label: on top of the operations of a thread, the return of
`run` drops the task, its future with it, if it holds the last reference. -/
def dropUnwinds (s : TaskState T P) : Label T P → Bool
  | .thread i ch =>
    match s.threads[i]? with
    | some pc => pc.dropUnwinds s.core ch
    | none => false
  | .free i panics =>
    match s.threads[i]? with
    | some .runReturn => panics && s.core.slot
    | _ => false
  | _ => false

theorem Pc.step_contained (h : pc.step c ch = some (c', pc')) (hd : pc.dropUnwinds c ch = false)
    (hb : c'.beginFailed = false) :
    pc' ≠ .unwound ∧ pc' ≠ .unwoundReturn ∧ c'.crashed = c.crashed := by
  cases pc with
  | idle => cases ch <;> grind [Pc.step]
  | beginLoad => grind [Pc.step, beginPollLoad]
  | beginCas st => grind [Pc.step, beginPollExchange]
  | abortedTake | abortTake =>
    obtain ⟨rfl, rfl | ⟨rfl, hs, -⟩⟩ := dropFuture_eq_some h
    · simp
    · simp [Pc.dropUnwinds, hs] at hd
  | poll =>
    rcases pollFuture_eq_some h with ⟨rfl, rfl⟩ | ⟨v, rfl, rfl⟩ | ⟨p, rfl, rfl⟩ | ⟨rfl, -, -⟩
    · simp
    · simp
    · simp
    · simp [Pc.dropUnwinds] at hd
  | dropHook | hookReturn =>
    obtain ⟨rfl, rfl | ⟨rfl, hs, -⟩⟩ := releaseJoin_eq_some h
    · simp
    · rw [Pc.dropUnwinds] at hd
      cases hs.symm.trans hd
  | fireHook o =>
    rw [Pc.step, some.injEq] at h
    rcases fireAbnormalHook_cases c o ch with ⟨-, he⟩ | ⟨hh, he | ⟨⟨p, rfl⟩, rfl, -⟩⟩
    · cases he.symm.trans h
      simp
    · cases he.symm.trans h
      simp
    · simp [Pc.dropUnwinds, hh] at hd
  | endAnd e =>
    cases h
    cases e <;> simp [Ending.next]
  | finishWake old k =>
    cases h
    cases k <;> simp [Resume.next]
  | wakeLoad =>
    obtain ⟨p, hp, ha⟩ := wakePass_eq c
    rw [some.inj h] at hp ha
    obtain rfl : c' = _ := hp
    rcases ha with rfl | rfl | ⟨st, rfl⟩ <;> simp
  | wakeCas st =>
    obtain ⟨w, p, hp, ha⟩ := wakeExchange_eq c st
    rw [some.inj h] at hp ha
    obtain rfl : c' = _ := hp
    rcases ha with rfl | rfl | ⟨st, rfl⟩ <;> simp
  | _ => grind [Pc.step]

theorem Contained.step (h : Contained s)
    (hs : s.step l = some t) (hd : dropUnwinds s l = false) (hb : t.core.beginFailed = false) :
    Contained t := by
  cases steps_of_step hs with
  | @thread i ch pc c pc' hpc hstep =>
    have hd' : pc.dropUnwinds s.core ch = false := by
      rw [dropUnwinds, hpc] at hd
      exact hd
    obtain ⟨hu, hr, hc⟩ := step_contained hstep hd' hb
    refine ⟨fun hmem => ?_, fun hmem => ?_, hc.trans h.crashed⟩
    · rcases mem_set_cases hpc hmem with he | ⟨j, -, hj⟩
      · exact hu he.symm
      · exact h.unwound (mem_of_getElem? hj)
    · rcases mem_set_cases hpc hmem with he | ⟨j, -, hj⟩
      · exact hr he.symm
      · exact h.unwoundReturn (mem_of_getElem? hj)
  | joinPoll hj | joinDrop => exact ⟨h.unwound, h.unwoundReturn, h.crashed⟩
  | @free i panics pc pc' hpc hq hrest hcase =>
    have hidle : pc' = .idle := by
      rcases hcase with ⟨-, rfl⟩ | ⟨rfl, rfl⟩
      · rfl
      · rw [dropUnwinds, hpc] at hd
        simp only at hd
        rw [hd]
        rfl
    subst hidle
    refine ⟨fun hmem => ?_, fun hmem => ?_, h.crashed⟩
    · rcases mem_set_cases hpc hmem with he | ⟨j, -, hj⟩
      · cases he
      · exact h.unwound (mem_of_getElem? hj)
    · rcases mem_set_cases hpc hmem with he | ⟨j, -, hj⟩
      · cases he
      · exact h.unwoundReturn (mem_of_getElem? hj)

theorem contained_spawned (active n : ℕ) : Contained (TaskState.spawned T P active n) := by
  refine ⟨fun hmem => ?_, fun hmem => ?_, rfl⟩
  · rcases mem_cons.mp hmem with he | hmem
    · cases he
    · cases eq_of_mem_replicate hmem
  · rcases mem_cons.mp hmem with he | hmem
    · cases he
    · cases eq_of_mem_replicate hmem

end RustyTokio.Task

import RustyTokio.Task.Protocol
import RustyTokio.Task.Run

/-!
# The threads of a task follow the protocol

Every operation of a thread in `Task.Run` is one of the moves of `Task.Protocol`, so the protocol's
invariant holds in every state the threads reach, up to a `begin_poll` that panics.  That can happen
in one way only: a first abort between its load and its exchange.
-/

namespace RustyTokio.Task

open Transition List Option Bool Pool Pc

variable {T P : Type} {s t : TaskState T P} {i : ℕ} {pc pc' : Pc T P} {c c' : Core T P}
  {ch : Choice T P} {l : Label T P} {j n : ℕ} {st : Word}

/-! ## From the code to the protocol -/

def Pc.zone : Pc T P → Zone
  | .idle => .resting
  | .abortOr => .visiting
  | .wakeLoad => .visiting
  | .wakeCas _ => .visiting
  | .schedule => .token
  | .beginLoad => .token
  | .beginCas st => .begin st
  | .abortedTake => .stored
  | .isAborted => .stored
  | .abortTake => .stored
  | .takeSlot => .stored
  | .emptySlot => .lost
  | .poll => .taken
  | .putBack => .taken
  | .endLoad => .stored
  | .endCas _ => .stored
  | .reschedule => .token
  | .runReturn => .visiting
  | .clearSlot _ => .taken
  | .endOr _ => .taken
  | .endAnd _ => .closing
  | .dropHook => .ended
  | .fireHook _ => .ended
  | .finishSwap _ .poll => .taken
  | .finishSwap _ .hook => .ended
  | .finishStore _ .poll => .taken
  | .finishStore _ .hook => .ended
  | .finishWake _ .poll => .taken
  | .finishWake _ .hook => .ended
  | .hookReturn => .ended
  | .markFinished => .ended
  | .unwound => .stuck
  | .unwoundReturn => .resting

def Core.view (c : Core T P) : View where
  word := c.word
  queue := c.queue
  slot := c.slot
  freed := c.freed
  wakePending := c.wakePending
  marks := c.marks

def TaskState.zones (s : TaskState T P) : List Zone := s.threads.map Pc.zone

/-- Run-queue entries, callers that must still push the task, and runners that
popped it and have not begun the poll. -/
def TaskState.schedulingTokens (s : TaskState T P) : ℕ :=
  s.core.queue + Pool.total Zone.tokens s.zones

/-- Threads past a successful `begin_poll`, until their `end_poll(false)` or,
if they end the task, until they have marked it finished. -/
def TaskState.runners (s : TaskState T P) : ℕ := Pool.total Zone.owners s.zones

theorem getElem?_zones (h : s.threads[i]? = some pc) : s.zones[i]? = some pc.zone := by
  rw [TaskState.zones, getElem?_map, h]
  rfl

theorem zones_set (c : Core T P) (l : List (Pc T P)) (i : ℕ) (pc : Pc T P) :
    (TaskState.mk c (l.set i pc)).zones = (l.map Pc.zone).set i pc.zone := by
  rw [TaskState.zones, map_set]

/-! ## The refinement -/

theorem wakePass_moves (c : Core T P) :
    Moves c.view .visiting (wakePass c).1.view (wakePass c).2.zone := by
  rcases wakeAttempt_cases c.word with ⟨ha, h⟩ | ⟨ha, hc, hr⟩ | ⟨ha, hc, hr, hq⟩
  · rw [wakePass, ha]
    exact .wakeSeen c.view h
  · rw [wakePass, ha]
    exact .stay c.view .visiting
  · rw [wakePass, ha]
    exact .stay c.view .visiting

theorem wakeExchange_moves (c : Core T P) (st : Word) :
    Moves c.view .visiting (wakeExchange c st).1.view (wakeExchange c st).2.zone := by
  obtain rfl | hw := eq_or_ne c.word st
  · rcases wakeAttempt_cases c.word with ⟨ha, h⟩ | ⟨ha, hc, hr⟩ | ⟨ha, hc, hr, hq⟩
    · rw [wakeExchange, ha]
      exact .leave c.view
    · simp only [wakeExchange, ha, if_true]
      exact .wakeNotify c.view hc hr
    · simp only [wakeExchange, ha, if_true]
      exact .wakeQueue c.view hc hr hq
  · rcases wakeAttempt_cases st with ⟨ha, h⟩ | ⟨ha, hc, hr⟩ | ⟨ha, hc, hr, hq⟩
    · rw [wakeExchange, ha]
      exact .leave c.view
    · simp only [wakeExchange, ha, if_neg hw]
      exact wakePass_moves c
    · simp only [wakeExchange, ha, if_neg hw]
      exact wakePass_moves c

theorem dropFuture_moves {next : Pc T P}
    (h : dropFuture c next ch = some (c', pc')) (hn : next.zone = .taken ∨ next.zone = .ended) :
    Moves c.view .stored c'.view pc'.zone := by
  obtain ⟨rfl, rfl | ⟨-, -, rfl⟩⟩ := dropFuture_eq_some h
  · exact .take c.view (hn.imp_right .inl)
  · exact .take c.view (.inr (.inr rfl))

theorem pollFuture_moves
    (h : pollFuture c ch = some (c', pc')) : Moves c.view .taken c'.view pc'.zone := by
  rcases pollFuture_eq_some h with ⟨rfl, rfl⟩ | ⟨v, rfl, rfl⟩ | ⟨p, rfl, rfl⟩ | ⟨-, rfl, rfl⟩
  · exact .stay c'.view .taken
  · exact .stay c.view .taken
  · exact .stay c.view .taken
  · exact .crash c.view

/-- **The refinement.**  An operation of a thread is a move of the protocol,
unless it is a `begin_poll` that panics. -/
theorem Pc.step_moves (h : pc.step c ch = some (c', pc')) (hb : c'.beginFailed = false) :
    Moves c.view pc.zone c'.view pc'.zone := by
  cases pc with
  | idle =>
    cases ch with
    | wake | abort =>
      simp only [Pc.step, ite_none_left_eq_some, some.injEq, Prod.mk.injEq] at h
      obtain ⟨hf, rfl, rfl⟩ := h
      exact .enter c.view (not_eq_true _ ▸ hf)
    | pop =>
      simp only [Pc.step, ite_none_right_eq_some, some.injEq, Prod.mk.injEq] at h
      obtain ⟨hq, rfl, rfl⟩ := h
      exact .pop c.view hq
    | _ => simp [Pc.step] at h
  | wakeLoad =>
    rw [Pc.step, some.injEq] at h
    have hm := wakePass_moves c
    rwa [h] at hm
  | wakeCas st =>
    rw [Pc.step, some.injEq] at h
    have hm := wakeExchange_moves c st
    rwa [h] at hm
  | abortedTake => exact dropFuture_moves h (.inr rfl)
  | abortTake => exact dropFuture_moves h (.inl rfl)
  | poll => exact pollFuture_moves h
  | unwound | unwoundReturn => simp [Pc.step] at h
  | beginLoad =>
    rw [Pc.step, some.injEq, beginPollLoad] at h
    split at h <;> cases h
    · exact .load c.view
    · cases hb
  | beginCas st =>
    rw [Pc.step, some.injEq, beginPollExchange] at h
    split at h
    next hw =>
      subst hw
      split at h <;> cases h
      · exact .begin c.view
      · exact .begin c.view
    · cases h
      cases hb
  | isAborted =>
    rw [Pc.step] at h
    split at h <;> cases h
    · exact .stay c.view .stored
    · exact .stay c.view .stored
  | takeSlot =>
    rw [Pc.step] at h
    split at h <;> cases h
    · exact .take c.view (.inl rfl)
    next hs => exact .lose c.view (not_eq_true _ ▸ hs)
  | endCas st =>
    rw [Pc.step] at h
    split at h <;> cases h
    next hw =>
      subst hw
      have hz : (if (endAttempt c.word).2 then (Pc.reschedule : Pc T P) else .runReturn).zone =
          if (endAttempt c.word).2 then .token else .visiting := by
        split <;> rfl
      rw [hz]
      exact .endPending c.view
    · exact .stay c.view .stored
  | fireHook o =>
    rw [Pc.step, some.injEq] at h
    rcases fireAbnormalHook_cases c o ch with ⟨-, he⟩ | ⟨-, he | ⟨-, -, he⟩⟩ <;>
      cases he.symm.trans h
    · exact .stay c.view .ended
    · exact .stay c.view .ended
    · exact .abandon c.view
  | abortOr =>
    cases h
    refine .abort c.view ?_
    split
    · exact .inl rfl
    · exact .inr rfl
  | schedule =>
    cases h
    exact .push c.view (.inl rfl)
  | reschedule =>
    cases h
    exact .push c.view (.inr rfl)
  | emptySlot =>
    cases h
    exact .giveUp c.view
  | putBack =>
    cases h
    exact .put c.view
  | endLoad =>
    cases h
    exact .stay c.view .stored
  | runReturn =>
    cases h
    exact .leave c.view
  | clearSlot p =>
    cases h
    exact .clear c.view
  | endOr e =>
    cases h
    exact .complete c.view
  | endAnd e =>
    cases h
    cases e <;> exact .close c.view
  | dropHook =>
    obtain ⟨rfl, rfl | ⟨-, -, rfl⟩⟩ := releaseJoin_eq_some h
    · exact .stay c.view .ended
    · exact .abandon c.view
  | hookReturn =>
    obtain ⟨rfl, rfl | ⟨-, -, rfl⟩⟩ := releaseJoin_eq_some h
    · exact .stay c'.view .ended
    · exact .abandon c'.view
  | finishSwap r k | finishStore old k | finishWake old k =>
    cases h
    cases k <;> exact .stay c.view _
  | markFinished =>
    cases h
    exact .finish c.view

theorem Pc.rests_of_isResting (h : pc.isResting) : pc.zone.Rests := by
  cases pc <;> trivial

theorem Pc.step_beginFailed (h : pc.step c ch = some (c', pc')) :
    c'.beginFailed = c.beginFailed ∨ (c'.beginFailed ∧
      ((pc = .beginLoad ∧ beginAssert c.word = false) ∨
        ∃ st, pc = .beginCas st ∧ c.word ≠ st)) := by
  cases pc with
  | idle => cases ch <;> grind [Pc.step]
  | beginLoad => grind [Pc.step, beginPollLoad]
  | beginCas st => grind [Pc.step, beginPollExchange]
  | abortedTake | abortTake => exact .inl (by rw [(dropFuture_eq_some h).1])
  | poll =>
    rcases pollFuture_eq_some h with ⟨rfl, -⟩ | ⟨v, rfl, -⟩ | ⟨p, rfl, -⟩ | ⟨-, rfl, -⟩ <;>
      exact .inl rfl
  | dropHook | hookReturn => exact .inl (by rw [(releaseJoin_eq_some h).1])
  | fireHook o =>
    obtain ⟨k, hk⟩ := fireAbnormalHook_core c o ch
    rw [some.inj h] at hk
    obtain rfl : c' = _ := hk
    exact .inl rfl
  | _ => grind [Pc.step, wakePass, wakeExchange]

/-! ## The invariant along runs -/

theorem beginFailed_of_step (h : s.step l = some t)
    (hb : t.core.beginFailed = false) : s.core.beginFailed = false := by
  cases steps_of_step h with
  | thread hpc hs =>
    rcases step_beginFailed hs with he | ⟨ht, -⟩
    · exact he.symm.trans hb
    · simp [ht] at hb
  | joinPoll hj | joinDrop | free hpc hq hrest hcase => exact hb

theorem rests_of_othersRest {l : List (Pc T P)} (h : othersRest l i)
    (hji : j ≠ i) (hj : l[j]? = some pc) : pc.zone.Rests := by
  refine rests_of_isResting (all_eq_true.mp h pc ?_)
  refine mem_of_getElem? (i := j) ?_
  rw [getElem?_set, if_neg fun e => hji e.symm, hj]

theorem protocol_step (h : Protocol s.core.view s.zones) (hs : s.step l = some t)
    (hb : t.core.beginFailed = false) : Protocol t.core.view t.zones := by
  cases steps_of_step hs with
  | thread hpc hstep =>
    rw [zones_set]
    exact h.moves (getElem?_zones hpc) (step_moves hstep hb)
  | joinPoll hj | joinDrop => exact h
  | @free i panics pc pc' hpc hq hrest hcase =>
    have hlight : pc.zone.Light := by
      rcases hcase with ⟨rfl, -⟩ | ⟨rfl, -⟩
      · exact .inl rfl
      · exact .inr rfl
    have hz' : pc'.zone = .resting := by
      rcases hcase with ⟨-, rfl⟩ | ⟨-, rfl⟩
      · rfl
      · split <;> rfl
    rw [zones_set, hz']
    refine h.frees (getElem?_zones hpc) hlight hq fun j y hji hj => ?_
    rw [TaskState.zones, getElem?_map, map_eq_some_iff] at hj
    obtain ⟨pcj, hpcj, rfl⟩ := hj
    exact rests_of_othersRest hrest hji hpcj

theorem protocol_spawned (active n : ℕ) :
    Protocol (TaskState.spawned T P active n).core.view (TaskState.spawned T P active n).zones := by
  have hz : (TaskState.spawned T P active n).zones = .token :: List.replicate n .resting := by
    rw [TaskState.zones, TaskState.spawned, map_cons, map_replicate]
    rfl
  have hv : (flags (TaskState.spawned T P active n).core.view.word) =
      ⟨true, false, false, false, false⟩ := flags_newWord
  rw [hz]
  refine ⟨?_, ?_, ?_, ?_, ?_, ?_, ?_⟩
  · rw [hv, total_cons, total_replicate]
    rfl
  · rw [hv, total_cons, total_replicate]
    rfl
  · rw [hv]
    exact fun _ => ⟨rfl, rfl⟩
  · exact fun _ _ _ => rfl
  · exact fun hw => absurd hw Bool.false_ne_true
  · exact fun hf => absurd hf Bool.false_ne_true
  · intro z hmem
    rcases mem_cons.mp hmem with rfl | hmem
    · trivial
    · rw [eq_of_mem_replicate hmem]
      trivial

theorem protocol_of_reachable (h : (taskSystem T P n).Reachable s) :
    s.core.beginFailed = false → Protocol s.core.view s.zones :=
  System.inv_of_reachable (S := taskSystem T P n)
    (I := fun s => s.core.beginFailed = false → Protocol s.core.view s.zones)
    (fun _ => protocol_spawned 1 n)
    (fun _ _ _ hI hs hb => protocol_step (hI (beginFailed_of_step hs hb)) hs hb) h

/-- **The scheduling protocol.**  As long as no `begin_poll` has panicked: there is one scheduling
token if the word is queued and none otherwise; at most one runner is between `begin_poll` and
`end_poll`; a wake that took effect on the unfinished task is followed by a `begin_poll`; and no
runner finds the slot empty. -/
theorem scheduling_protocol (n : ℕ) {s : TaskState T P} (h : (taskSystem T P n).Reachable s)
    (hb : s.core.beginFailed = false) :
    (s.schedulingTokens = if has s.core.word queued then 1 else 0) ∧ s.runners ≤ 1 ∧
      (s.core.wakePending = true → 0 < s.schedulingTokens ∨
        (has s.core.word running = true ∧ has s.core.word notified = true)) ∧
      Pc.emptySlot ∉ s.threads := by
  have hp := protocol_of_reachable h hb
  have htok : s.schedulingTokens = (flags s.core.word).queued.toNat := hp.tokens_eq
  refine ⟨?_, ?_, ?_, ?_⟩
  · rw [htok, has_queued]
    cases (flags s.core.word).queued <;> rfl
  · have hle := toNat_le ((flags s.core.word).running || (flags s.core.word).complete)
    have heq : s.core.marks + s.runners = _ := hp.owners_eq
    have hle' : s.core.marks + s.runners ≤ 1 := heq ▸ hle
    omega
  · intro hw
    rcases (hp.served hw).2 with hq | hn
    · left
      have hq' : (flags s.core.word).queued := hq
      rw [htok, hq']
      exact Nat.one_pos
    · exact .inr hn
  · intro hmem
    exact hp.holds .lost (mem_map.mpr ⟨_, hmem, rfl⟩)

theorem scheduling_protocol_mid_poll :
    ∃ s : TaskState Unit Unit, (taskSystem Unit Unit 1).Reachable s ∧
      s.core.beginFailed = false ∧ s.core.wakePending = true ∧ s.schedulingTokens = 0 ∧
      (0 < s.schedulingTokens ∨
        (has s.core.word running = true ∧ has s.core.word notified = true)) := by
  have hr : (taskSystem Unit Unit 1).Reachable _ :=
    ⟨[.thread 0 .go, .thread 1 .pop, .thread 1 .go, .thread 1 .go,
      .thread 0 .wake, .thread 0 .go, .thread 0 .go], rfl⟩
  have hp := scheduling_protocol 1 hr rfl
  exact ⟨_, hr, rfl, rfl, hp.1, hp.2.2.1 rfl⟩

/-! ## The exchange of `begin_poll` -/

/-- A runner between the load and the exchange of `begin_poll`. -/
def Pc.isBeginCas : Pc T P → Bool
  | .beginCas _ => true
  | _ => false

/-- The first request to abort the task lands while a runner stands between the
load and the exchange of `begin_poll`. -/
def abortHitsBegin (s : TaskState T P) : Label T P → Bool
  | .thread i _ =>
    match s.threads[i]? with
    | some .abortOr => !has s.core.word aborted && s.threads.any Pc.isBeginCas
    | _ => false
  | _ => false

theorem abortHitsBegin_iff :
    abortHitsBegin s l ↔ ∃ i ch, l = .thread i ch ∧ s.threads[i]? = some .abortOr ∧
      (flags s.core.word).aborted = false ∧ ∃ st, Pc.beginCas st ∈ s.threads := by
  have hany : s.threads.any Pc.isBeginCas ↔ ∃ st, Pc.beginCas st ∈ s.threads := by
    rw [List.any_eq_true]
    constructor
    · rintro ⟨pc, hmem, hpc⟩
      cases pc with
      | beginCas st => exact ⟨st, hmem⟩
      | _ => simp [Pc.isBeginCas] at hpc
    · rintro ⟨st, hmem⟩
      exact ⟨_, hmem, rfl⟩
  cases l with
  | thread i ch =>
    rw [← hany]
    simp only [abortHitsBegin, Label.thread.injEq]
    constructor
    · intro h
      split at h
      next hpc =>
        rw [and_eq_true, not_eq_true', has_aborted] at h
        exact ⟨i, ch, ⟨rfl, rfl⟩, hpc, h.1, h.2⟩
      · cases h
    · rintro ⟨j, ch', ⟨rfl, rfl⟩, hpc, ha, hb⟩
      rw [hpc]
      simp only [has_aborted, ha, hb, Bool.not_false, Bool.and_self]
  | _ => simp [abortHitsBegin]

theorem wakePass_word (c : Core T P) : (wakePass c).1.word = c.word := by
  obtain ⟨p, hp, -⟩ := wakePass_eq c
  rw [hp]

theorem Pc.word_of_queued (h : pc.step c ch = some (c', pc')) (hl : pc.zone.Light)
    (hq : (flags c.word).queued) (hr : (flags c.word).running = false) :
    c'.word = c.word ∨ (pc = .abortOr ∧ c'.word = c.word ||| aborted) := by
  cases pc with
  | idle => cases ch <;> grind [Pc.step]
  | abortOr =>
    obtain ⟨rfl, -⟩ := pair_of_some h
    exact .inr ⟨rfl, rfl⟩
  | wakeLoad =>
    have hc : (wakePass c).1 = c' := by rw [some.inj h]
    exact .inl (by rw [← hc, wakePass_word])
  | wakeCas st =>
    have hc : (wakeExchange c st).1 = c' := by rw [some.inj h]
    refine .inl ?_
    rw [← hc, wakeExchange]
    split
    · split
      · -- the exchange cannot succeed: a queued word gives `wake` nothing to store
        rename_i new r ha hw
        subst hw
        rcases wakeAttempt_cases c.word with ⟨he, -⟩ | ⟨-, -, hrun⟩ | ⟨-, -, -, hnq⟩
        · cases he.symm.trans ha
        · simp [hr] at hrun
        · simp [hnq] at hq
      · exact wakePass_word c
    · rfl
  | runReturn =>
    obtain ⟨rfl, -⟩ := pair_of_some h
    exact .inl rfl
  | unwoundReturn => simp [Pc.step] at h
  | finishSwap r k | finishStore old k | finishWake old k =>
    cases k <;> simp [Zone.Light, Pc.zone] at hl
  | _ => simp [Zone.Light, Pc.zone] at hl

theorem Pc.eq_beginCas_of_zone (h : pc.zone = .begin st) : pc = .beginCas st := by
  cases pc with
  | beginCas st' => rw [Zone.begin.inj h]
  | finishSwap r k | finishStore old k | finishWake old k =>
    cases k <;> simp [Pc.zone] at h
  | _ => simp [Pc.zone] at h

/-- The word has not changed since `begin_poll` loaded it. -/
structure BeginInv (s : TaskState T P) : Prop where
  unfailed : s.core.beginFailed = false
  protocol : Protocol s.core.view s.zones
  loaded : ∀ st, Pc.beginCas st ∈ s.threads → s.core.word = st

theorem Zone.light_of_idle {z : Zone} (ht : z.tokens = 0) (ho : z.owners = 0) : z.Light := by
  cases z <;> simp [Zone.tokens, Zone.owners] at ht ho
  · exact .inl rfl
  · exact .inr rfl

theorem word_beside_begin (hp : Protocol s.core.view s.zones) (hji : j ≠ i)
    (hi : s.threads[i]? = some pc) (hj : s.threads[j]? = some (.beginCas st))
    (hstep : pc.step s.core ch = some (c, pc')) :
    c.word = s.core.word ∨ (pc = .abortOr ∧ c.word = s.core.word ||| aborted) := by
  have htok : 0 < (Pc.beginCas st : Pc T P).zone.tokens := Nat.one_pos
  have hq := hp.queued_of_token (getElem?_zones hj) htok
  obtain ⟨ht, ho⟩ := hp.others_idle (getElem?_zones hj) (.inr htok) hji (getElem?_zones hi)
  exact word_of_queued hstep (Zone.light_of_idle ht ho) hq (hp.excl hq).1

theorem BeginInv.unfailed_step (h : BeginInv s) (hi : s.threads[i]? = some pc)
    (hstep : pc.step s.core ch = some (c, pc')) : c.beginFailed = false := by
  rcases step_beginFailed hstep with he | ⟨-, ⟨rfl, hassert⟩ | ⟨st, rfl, hne⟩⟩
  · rw [he, h.unfailed]
  · have hq := h.protocol.queued_of_token (getElem?_zones hi) Nat.one_pos
    have hr := (h.protocol.excl hq).1
    have hq' : (flags s.core.word).queued := hq
    have hr' : (flags s.core.word).running = false := hr
    simp [beginAssert, hq', hr'] at hassert
  · exact absurd (h.loaded st (mem_of_getElem? hi)) hne

theorem BeginInv.step (h : BeginInv s)
    (hc : abortHitsBegin s l = false) (hs : s.step l = some t) : BeginInv t := by
  cases steps_of_step hs with
  | @thread i ch pc c pc' hpc hstep =>
    have hfail := h.unfailed_step hpc hstep
    refine ⟨hfail, protocol_step h.protocol hs hfail, ?_⟩
    intro st hst
    rcases mem_set_cases hpc hst with rfl | ⟨j, hji, hj⟩
    · -- the thread that moved: it has just loaded the word
      have hmv := step_moves hstep hfail
      rcases hmv.word_of_begin rfl with hw | ⟨hz, hv⟩
      · exact hw
      · have hw := h.loaded st (eq_beginCas_of_zone hz ▸ mem_of_getElem? hpc)
        rw [← hw]
        exact congrArg View.word hv
    · rw [← h.loaded st (mem_of_getElem? hj)]
      rcases word_beside_begin h.protocol hji hpc hj hstep with hw | ⟨rfl, hw⟩
      · exact hw
      · -- an abort, but not the first
        rw [hw]
        refine or_aborted_of_has ?_
        by_contra ha
        refine absurd hc (not_eq_false _ ▸ abortHitsBegin_iff.mpr ?_)
        exact ⟨i, ch, rfl, hpc, by simpa using ha, st, mem_of_getElem? hj⟩
  | joinPoll hj | joinDrop => exact ⟨h.unfailed, h.protocol, h.loaded⟩
  | free hpc hq hrest hcase =>
    refine ⟨h.unfailed, protocol_step h.protocol hs h.unfailed, ?_⟩
    intro st hst
    rcases mem_set_cases hpc hst with he | ⟨j, -, hj⟩
    · rcases hcase with ⟨-, rfl⟩ | ⟨-, rfl⟩
      · cases he
      · exact absurd he (by split <;> simp)
    · exact h.loaded st (mem_of_getElem? hj)

theorem beginInv_spawned (active n : ℕ) : BeginInv (TaskState.spawned T P active n) := by
  refine ⟨rfl, protocol_spawned active n, fun st hst => ?_⟩
  rcases mem_cons.mp hst with he | hmem
  · cases he
  · cases eq_of_mem_replicate hmem

theorem beginInv_of_reachableUnder
    (h : (taskSystem T P n).ReachableUnder (fun s l => abortHitsBegin s l = false) s) :
    BeginInv s :=
  System.inv_of_reachableUnder (beginInv_spawned 1 n) (fun _ _ _ hI hc hs => hI.step hc hs) h

theorem begin_poll_fails_of_abort (hp : Protocol s.core.view s.zones) (hs : s.step l = some t)
    (hhit : abortHitsBegin s l) : ∃ i u, t.step (.thread i .go) = some u ∧ u.core.beginFailed ∧
      Pc.unwound ∈ u.threads := by
  obtain ⟨j, ch, rfl, hj, ha, st, hst⟩ := abortHitsBegin_iff.mp hhit
  have hcr := (step_eq_some.mp hs).1
  obtain @⟨_, _, _, _, pc', hpc, hstep⟩ := steps_of_step hs
  cases hj.symm.trans hpc
  obtain ⟨rfl, -⟩ := pair_of_some hstep
  obtain ⟨i, hi⟩ := mem_iff_getElem?.mp hst
  have hij : j ≠ i := by
    rintro rfl
    cases hj.symm.trans hi
  have hi' : (s.threads.set j pc')[i]? = some (.beginCas st) := by
    rw [getElem?_set, if_neg hij, hi]
  -- the runner loaded a word without the flag
  have hne : s.core.word ||| aborted ≠ st := by
    rintro rfl
    rcases hp.holds (.begin _) (mem_map.mpr ⟨_, hst, rfl⟩) with hw | hw
    · have hf := congrArg (fun w => (flags w).aborted) hw
      simp [Core.view, ha] at hf
    · have hf := congrArg (fun w => (flags w).aborted) hw
      simp [Core.view, ha] at hf
  have hfail : (Pc.beginCas st).step { s.core with word := s.core.word ||| aborted } .go =
      some ({ s.core with word := s.core.word ||| aborted, beginFailed := true }, .unwound) := by
    rw [Pc.step, beginPollExchange, if_neg hne]
  refine ⟨i, _, step_thread hcr hi' hfail, rfl, ?_⟩
  exact mem_of_getElem? (getElem?_set_self (lt_of_some hi'))

/-- **When `begin_poll` panics.**  As long as no first abort lands between the load and the
exchange of a `begin_poll`, none panics, and every runner about to exchange the word finds the
value it loaded.  Such an abort, in any run, makes the runner's next operation panic. -/
theorem begin_poll_succeeds_unless_abort_lands (n : ℕ) : (∀ s : TaskState T P,
      (taskSystem T P n).ReachableUnder (fun s l => abortHitsBegin s l = false) s →
        s.core.beginFailed = false ∧
          ∀ (i : ℕ) (st : Word), s.threads[i]? = some (.beginCas st) → s.core.word = st) ∧
    (∀ (s t : TaskState T P) (l : Label T P), (taskSystem T P n).Reachable s →
      s.core.beginFailed = false → s.step l = some t → abortHitsBegin s l = true →
        ∃ i u, t.step (.thread i .go) = some u ∧ u.core.beginFailed = true) := by
  constructor
  · intro s h
    have hI := beginInv_of_reachableUnder h
    exact ⟨hI.unfailed, fun i st hi => hI.loaded st (mem_of_getElem? hi)⟩
  · intro s t l h hb hs hhit
    obtain ⟨i, u, hu, hf, -⟩ := begin_poll_fails_of_abort (protocol_of_reachable h hb) hs hhit
    exact ⟨i, u, hu, hf⟩

/-- One worker pops the task and loads the word, another thread aborts the task,
and the exchange of `begin_poll` fails. -/
theorem exists_begin_poll_panic : ∃ s : TaskState Unit Unit, (taskSystem Unit Unit 1).Reachable s ∧
      s.core.beginFailed = true ∧ Pc.unwound ∈ s.threads := by
  refine ⟨⟨{ Core.spawned Unit Unit 1 with word := queued ||| aborted, beginFailed := true },
    [.wakeLoad, .unwound]⟩, ⟨[.thread 0 .go, .thread 1 .pop, .thread 1 .go, .thread 0 .abort,
      .thread 0 .go, .thread 1 .go], rfl⟩, rfl, by simp⟩

theorem begin_poll_beside_abort : (∃ s : TaskState Unit Unit,
      (taskSystem Unit Unit 1).ReachableUnder (fun s l => abortHitsBegin s l = false) s ∧
        Pc.beginCas (queued ||| aborted) ∈ s.threads ∧ s.core.beginFailed = false ∧
        s.core.word = queued ||| aborted) ∧
    ∃ s t : TaskState Unit Unit, (taskSystem Unit Unit 1).Reachable s ∧
      s.step (.thread 0 .go) = some t ∧
      ∃ i u, t.step (.thread i .go) = some u ∧ u.core.beginFailed = true := by
  constructor
  · have hr : (taskSystem Unit Unit 1).ReachableUnder (fun s l => abortHitsBegin s l = false) _ :=
      ⟨[.thread 0 .go, .thread 0 .abort, .thread 0 .go, .thread 1 .pop, .thread 1 .go], rfl,
        by decide⟩
    have hp := (begin_poll_succeeds_unless_abort_lands 1).1 _ hr
    exact ⟨_, hr, mem_of_getElem? (i := 1) rfl, hp.1, hp.2 1 _ rfl⟩
  · have hr : (taskSystem Unit Unit 1).Reachable _ :=
      ⟨[.thread 0 .go, .thread 1 .pop, .thread 1 .go, .thread 0 .abort], rfl⟩
    exact ⟨_, _, hr, rfl,
      (begin_poll_succeeds_unless_abort_lands 1).2 _ _ (.thread 0 .go) hr rfl rfl rfl⟩

end RustyTokio.Task

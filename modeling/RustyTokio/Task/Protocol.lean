import RustyTokio.Task.State
import RustyTokio.Transition.Pool

/-!
# The scheduling protocol of a task

What the state word is for, without the code around it.  A party to the protocol is in a `Zone`: it
owes the task nothing, it holds a scheduling token, it runs the task, it is ending it.
-/

namespace RustyTokio.Task

open Transition Pool

/-! ## Zones -/

inductive Zone where
  | resting
  | visiting
  /-- It has to bring the task to its next `begin_poll`: a caller told to push
  it, or a runner that popped it. -/
  | token
  | begin (state : Word)
  | stored
  | taken
  | closing
  | ended
  | lost
  | stuck
  deriving DecidableEq

namespace Zone

def tokens : Zone → ℕ
  | .token => 1
  | .begin _ => 1
  | _ => 0

/-- One for a party past a successful `begin_poll`, until its `end_poll(false)`
or, if it ends the task, until it has marked it finished. -/
def owners : Zone → ℕ
  | .stored => 1
  | .taken => 1
  | .closing => 1
  | .ended => 1
  | .lost => 1
  | .stuck => 1
  | _ => 0

def Rests : Zone → Prop
  | .resting => True
  | .stuck => True
  | _ => False

def Light (z : Zone) : Prop := z = .resting ∨ z = .visiting

end Zone

structure View where
  word : Word
  queue : ℕ
  slot : Bool
  freed : Bool
  wakePending : Bool
  marks : ℕ

/-- What a thread in this zone knows of the word and the slot. -/
def Zone.Holds (v : View) : Zone → Prop
  | .begin st => v.word = st ∨ v.word = st ||| aborted
  | .stored =>
    (flags v.word).running = true ∧ (flags v.word).complete = false ∧ v.slot = true
  | .taken => (flags v.word).running = true ∧ (flags v.word).complete = false
  | .closing => (flags v.word).running = true ∧ (flags v.word).complete = true
  | .lost => False
  | _ => True

/-! ## Moves -/

inductive Moves : View → Zone → View → Zone → Prop
  | stay (v : View) (z : Zone) : Moves v z v z
  | enter (v : View) (h : v.freed = false) : Moves v .resting v .visiting
  | leave (v : View) : Moves v .visiting v .resting
  | pop (v : View) (h : 0 < v.queue) :
      Moves v .resting { v with queue := v.queue - 1 } .token
  | push (v : View) {z} (h : z.Light) :
      Moves v .token { v with queue := v.queue + 1 } z
  | abort (v : View) {z} (h : z.Light) :
      Moves v .visiting { v with word := v.word ||| aborted } z
  | wakeSeen (v : View)
      (h : (flags v.word).complete = true ∨ (flags v.word).queued = true ∨
        ((flags v.word).running = true ∧ (flags v.word).notified = true)) :
      Moves v .visiting
        { v with wakePending := v.wakePending || !(flags v.word).complete } .resting
  | wakeNotify (v : View) (hc : (flags v.word).complete = false)
      (hr : (flags v.word).running = true) :
      Moves v .visiting { v with word := v.word ||| notified, wakePending := true } .resting
  | wakeQueue (v : View) (hc : (flags v.word).complete = false)
      (hr : (flags v.word).running = false) (hq : (flags v.word).queued = false) :
      Moves v .visiting { v with word := v.word ||| queued, wakePending := true } .token
  | load (v : View) : Moves v .token v (.begin v.word)
  | begin (v : View) :
      Moves v (.begin v.word) { v with word := beginWord v.word, wakePending := false } .stored
  | take (v : View) {z} (h : z = .taken ∨ z = .ended ∨ z = .stuck) :
      Moves v .stored { v with slot := false } z
  | lose (v : View) (h : v.slot = false) : Moves v .stored v .lost
  | giveUp (v : View) : Moves v .lost v .taken
  | put (v : View) : Moves v .taken { v with slot := true } .stored
  | clear (v : View) : Moves v .taken { v with slot := false } .taken
  | crash (v : View) : Moves v .taken v .stuck
  | endPending (v : View) :
      Moves v .stored { v with word := (endAttempt v.word).1 }
        (if (endAttempt v.word).2 then .token else .visiting)
  | complete (v : View) :
      Moves v .taken { v with word := v.word ||| complete, wakePending := false } .closing
  | close (v : View) : Moves v .closing { v with word := v.word &&& ~~~running } .ended
  | finish (v : View) : Moves v .ended { v with marks := v.marks + 1 } .resting
  | abandon (v : View) : Moves v .ended v .stuck

/-! ## The invariant -/

/-- **The invariant of the protocol**, over any number of parties. -/
structure Protocol (v : View) (zs : List Zone) : Prop where
  tokens_eq : v.queue + Pool.total Zone.tokens zs = (flags v.word).queued.toNat
  owners_eq : v.marks + Pool.total Zone.owners zs =
    ((flags v.word).running || (flags v.word).complete).toNat
  excl : (flags v.word).queued = true →
    (flags v.word).running = false ∧ (flags v.word).complete = false
  slot : (flags v.word).running = false → (flags v.word).complete = false → v.freed = false →
    v.slot = true
  served : v.wakePending = true → (flags v.word).complete = false ∧
    ((flags v.word).queued = true ∨
      ((flags v.word).running = true ∧ (flags v.word).notified = true))
  gone : v.freed = true → (flags v.word).queued = false ∧ ∀ z ∈ zs, z.Rests
  holds : ∀ z ∈ zs, z.Holds v

namespace Protocol

variable {v : View} {zs : List Zone} {i : ℕ} {z : Zone}

section

variable (h : Protocol v zs) (hz : zs[i]? = some z)

include h hz

theorem queued_of_token (ht : 0 < z.tokens) : (flags v.word).queued := by
  have hle := le_total (f := Zone.tokens) hz
  have heq := h.tokens_eq
  by_contra hq
  rw [Bool.not_eq_true] at hq
  rw [hq] at heq
  simp only [Bool.toNat_false] at heq
  omega

theorem engaged_of_owner (ho : 0 < z.owners) :
    (flags v.word).running ∨ (flags v.word).complete := by
  have hle := le_total (f := Zone.owners) hz
  have heq := h.owners_eq
  by_contra hn
  rw [not_or, Bool.not_eq_true, Bool.not_eq_true] at hn
  rw [hn.1, hn.2] at heq
  simp only [Bool.or_self, Bool.toNat_false] at heq
  omega

theorem not_queued_of_owner (ho : 0 < z.owners) : (flags v.word).queued = false := by
  by_contra hq
  obtain ⟨hr, hc⟩ := h.excl (by simpa using hq)
  rcases h.engaged_of_owner hz ho with hr' | hc'
  · simp [hr] at hr'
  · simp [hc] at hc'

theorem others_idle (hh : 0 < z.owners ∨ 0 < z.tokens) {j : ℕ} {y : Zone} (hij : i ≠ j)
    (hy : zs[j]? = some y) : y.tokens = 0 ∧ y.owners = 0 := by
  have ht := h.tokens_eq
  have ho := h.owners_eq
  have hty := add_le_total (f := Zone.tokens) hij hz hy
  have hoy := add_le_total (f := Zone.owners) hij hz hy
  have hq1 := Bool.toNat_le (flags v.word).queued
  have hr1 := Bool.toNat_le ((flags v.word).running || (flags v.word).complete)
  rcases hh with hz0 | hz0
  · -- the word is not queued, so there is no token at all
    have hq := h.not_queued_of_owner hz hz0
    rw [hq, Bool.toNat_false] at ht
    omega
  · -- the word is queued, so there is no owner at all
    obtain ⟨hr, hc⟩ := h.excl (h.queued_of_token hz hz0)
    rw [hr, hc, Bool.or_self, Bool.toNat_false] at ho
    omega

end

end Protocol

variable {y : Zone}

theorem Zone.Holds.of_eq {v v' : View} (hy : y.Holds v)
    (hr : (flags v'.word).running = (flags v.word).running)
    (hc : (flags v'.word).complete = (flags v.word).complete) (hs : v'.slot = v.slot)
    (hb : ∀ st, y = .begin st → y.Holds v') : y.Holds v' := by
  cases y with
  | begin st => exact hb st rfl
  | stored => exact ⟨hr.trans hy.1, hc.trans hy.2.1, hs.trans hy.2.2⟩
  | taken | closing => exact ⟨hr.trans hy.1, hc.trans hy.2⟩
  | lost => exact hy.elim
  | _ => trivial

theorem Zone.tokens_of_rests (h : y.Rests) : y.tokens = 0 := by
  cases y <;> first | rfl | exact h.elim

theorem Zone.holds_of_idle {v : View} (ht : y.tokens = 0) (ho : y.owners = 0) : y.Holds v := by
  cases y <;> simp [Zone.tokens, Zone.owners] at ht ho <;> trivial

/-! ## One move -/

namespace Moves

variable {v v' : View} {z z' : Zone}

section

variable (h : Moves v z v' z')

include h

theorem tokens_eq (hz : z.Holds v) (hq : 0 < z.tokens → (flags v.word).queued)
    (hn : 0 < z.owners → (flags v.word).queued = false) :
    v'.queue + z'.tokens + (flags v.word).queued.toNat =
      v.queue + z.tokens + (flags v'.word).queued.toNat := by
  cases h with
  | pop hlt =>
    simp only [Zone.tokens]
    omega
  | push hl => rcases hl with rfl | rfl <;> rfl
  | abort hl => rcases hl with rfl | rfl <;> simp [Zone.tokens]
  | wakeQueue hc hr hnq => simp [Zone.tokens, hnq]
  | begin =>
    have hq := hq (by simp [Zone.tokens])
    simp [Zone.tokens, hq]
  | take ht => rcases ht with rfl | rfl | rfl <;> rfl
  | endPending =>
    obtain ⟨hnot, hfl⟩ := flags_endAttempt v.word
    have hn := hn (by simp [Zone.owners])
    rw [hfl, ← hnot, hn]
    by_cases hb : (flags v.word).notified <;> simp [Zone.tokens, hb]
  | _ => simp [Zone.tokens]

theorem owners_eq (hz : z.Holds v)
    (hb : 0 < z.tokens → (flags v.word).running = false ∧ (flags v.word).complete = false) :
    v'.marks + z'.owners + ((flags v.word).running || (flags v.word).complete).toNat =
      v.marks + z.owners + ((flags v'.word).running || (flags v'.word).complete).toNat := by
  cases h with
  | push hl => rcases hl with rfl | rfl <;> rfl
  | abort hl => rcases hl with rfl | rfl <;> simp [Zone.owners]
  | begin =>
    obtain ⟨hr, hc⟩ := hb (by simp [Zone.tokens])
    simp [Zone.owners, hr, hc]
  | take ht => rcases ht with rfl | rfl | rfl <;> rfl
  | endPending =>
    obtain ⟨-, hfl⟩ := flags_endAttempt v.word
    obtain ⟨hr, hc, -⟩ := hz
    rw [hfl, hr, hc]
    split <;> simp [Zone.owners]
  | complete =>
    obtain ⟨hr, hc⟩ := hz
    simp [Zone.owners, hr]
  | close =>
    obtain ⟨hr, hc⟩ := hz
    simp [Zone.owners, hc]
  | _ => simp [Zone.owners]

theorem excl (hz : z.Holds v) (he : (flags v.word).queued →
      (flags v.word).running = false ∧ (flags v.word).complete = false)
    (hn : 0 < z.owners → (flags v.word).queued = false) : (flags v'.word).queued →
      (flags v'.word).running = false ∧ (flags v'.word).complete = false := by
  cases h with
  | abort hl | wakeNotify hc hr => simpa using he
  | wakeQueue hc hr hq => simp [hc, hr]
  | begin => simp
  | endPending =>
    obtain ⟨-, hfl⟩ := flags_endAttempt v.word
    obtain ⟨-, hc, -⟩ := hz
    simp [hfl, hc]
  | complete | close =>
    have hn := hn (by simp [Zone.owners])
    simp [hn]
  | _ => exact he

theorem slot (hz : z.Holds v)
    (hs : (flags v.word).running = false → (flags v.word).complete = false →
      v.freed = false → v.slot) :
    (flags v'.word).running = false → (flags v'.word).complete = false →
      v'.freed = false → v'.slot := by
  cases h with
  | abort hl | wakeNotify hc hr | wakeQueue hc hr hq => simpa using hs
  | begin | put | complete => simp
  | take ht =>
    obtain ⟨hr, -, -⟩ := hz
    simp [hr]
  | clear =>
    obtain ⟨hr, -⟩ := hz
    simp [hr]
  | endPending =>
    obtain ⟨-, -, hs⟩ := hz
    exact fun _ _ _ => hs
  | close =>
    obtain ⟨-, hc⟩ := hz
    simp [hc]
  | _ => exact hs

theorem served (hz : z.Holds v)
    (hw : v.wakePending → (flags v.word).complete = false ∧ ((flags v.word).queued ∨
        ((flags v.word).running ∧ (flags v.word).notified))) :
    v'.wakePending → (flags v'.word).complete = false ∧ ((flags v'.word).queued ∨
        ((flags v'.word).running ∧ (flags v'.word).notified)) := by
  cases h with
  | abort hl => simpa using hw
  | wakeSeen h =>
    intro hp
    by_cases hc : (flags v.word).complete
    · exact absurd (hw (by simpa [hc] using hp)).1 (by simp [hc])
    · exact ⟨by simpa using hc, h.resolve_left hc⟩
  | wakeNotify hc hr => simp [hc, hr]
  | wakeQueue hc hr hq => simp [hc]
  | begin | complete => simp
  | endPending =>
    obtain ⟨-, hfl⟩ := flags_endAttempt v.word
    intro hp
    obtain ⟨hc, hq⟩ := hw hp
    rw [hfl]
    refine ⟨hc, .inl ?_⟩
    rcases hq with hq | ⟨-, hn⟩
    · simp [hq]
    · simp [hn]
  | close =>
    intro hp
    obtain ⟨-, hc⟩ := hz
    exact absurd (hw hp).1 (by simp [hc])
  | _ => exact hw

theorem holds_self (hz : z.Holds v)
    (hb : 0 < z.tokens → (flags v.word).running = false ∧ (flags v.word).complete = false ∧
      v.slot) : z'.Holds v' := by
  cases h with
  | stay | clear => exact hz
  | push hl | abort hl => rcases hl with rfl | rfl <;> trivial
  | load => exact .inl rfl
  | begin =>
    obtain ⟨-, hc, hs⟩ := hb (by simp [Zone.tokens])
    exact ⟨by simp, by simpa using hc, hs⟩
  | take ht =>
    rcases ht with rfl | rfl | rfl
    · exact ⟨hz.1, hz.2.1⟩
    · trivial
    · trivial
  | lose hl => exact absurd hz.2.2 (by simp [hl])
  | giveUp => exact hz.elim
  | put => exact ⟨hz.1, hz.2, rfl⟩
  | endPending => split <;> trivial
  | complete => exact ⟨by simpa using hz.1, by simp⟩
  | _ => trivial

/-- **A move does not disturb another party.**  Owners and runners about to
begin are alone; the others move the word only by setting flags that nobody
relies on. -/
theorem holds_other (hy : y.Holds v)
    (halone : 0 < z.owners ∨ 0 < z.tokens → y.tokens = 0 ∧ y.owners = 0)
    (hq : 0 < y.tokens → (flags v.word).queued ∧ (flags v.word).running = false) : y.Holds v' := by
  have hidle : 0 < z.owners ∨ 0 < z.tokens → y.Holds v' := fun hz =>
    Zone.holds_of_idle (halone hz).1 (halone hz).2
  cases h with
  | stay | enter hf | leave | load => exact hy
  | pop hlt | wakeSeen h => cases y <;> exact hy
  | abort hl =>
    refine hy.of_eq (by simp) (by simp) rfl ?_
    rintro st rfl
    rcases hy with rfl | hy
    · exact .inr rfl
    · exact .inr (by simp only [hy, or_aborted_idem])
  | wakeNotify hc hr =>
    refine hy.of_eq (by simp) (by simp) rfl ?_
    rintro st rfl
    exact absurd (hq (by simp [Zone.tokens])).2 (by simp [hr])
  | wakeQueue hc hr hnq =>
    refine hy.of_eq (by simp) (by simp) rfl ?_
    rintro st rfl
    exact absurd (hq (by simp [Zone.tokens])).1 (by simp [hnq])
  | push hl | begin => exact hidle (.inr (by simp [Zone.tokens]))
  | _ => exact hidle (.inl (by simp [Zone.owners]))

theorem rests (hf : v'.freed) (hr : z.Rests) (hq : v.queue = 0) : z'.Rests := by
  cases h with
  | stay => exact hr
  | enter hn => simp [hn] at hf
  | pop hlt => omega
  | _ => exact hr.elim

theorem freed_eq : v'.freed = v.freed := by
  cases h <;> rfl

theorem word_of_rests (hr : z.Rests) : v'.word = v.word := by
  cases h <;> first | rfl | exact hr.elim

theorem owners_of_light (hl : z.Light) : z'.owners = 0 := by
  cases h with
  | stay => rcases hl with rfl | rfl <;> rfl
  | push hl' | abort hl' => rcases hl' with rfl | rfl <;> rfl
  | enter hf | leave | pop hlt | wakeSeen h | wakeNotify hc hr | wakeQueue hc hr hq | load => rfl
  | _ => simp [Zone.Light] at hl

theorem word_of_begin {st : Word} (hz : .begin st = z') :
    v'.word = st ∨ (z = .begin st ∧ v' = v) := by
  cases h with
  | stay => exact .inr ⟨hz.symm, rfl⟩
  | load => exact .inl (Zone.begin.inj hz).symm
  | push hl | abort hl => rcases hl with rfl | rfl <;> cases hz
  | take ht => rcases ht with rfl | rfl | rfl <;> cases hz
  | endPending => exact absurd hz (by split <;> simp)
  | _ => cases hz

end

end Moves

/-! ## The invariant is kept -/

namespace Protocol

variable {v v' : View} {zs : List Zone} {i : ℕ} {z z' : Zone}

theorem moves (h : Protocol v zs) (hz : zs[i]? = some z) (hm : Moves v z v' z') :
    Protocol v' (zs.set i z') := by
  have hmem : z ∈ zs := List.mem_of_getElem? hz
  have hholds : z.Holds v := h.holds z hmem
  have hq : 0 < z.tokens → (flags v.word).queued := h.queued_of_token hz
  have hn : 0 < z.owners → (flags v.word).queued = false := h.not_queued_of_owner hz
  have htok := hm.tokens_eq hholds hq hn
  have hown := hm.owners_eq hholds fun ht => h.excl (hq ht)
  have hts := total_set (f := Zone.tokens) z' hz
  have hos := total_set (f := Zone.owners) z' hz
  have hte := h.tokens_eq
  have hoe := h.owners_eq
  refine ⟨by omega, by omega, hm.excl hholds h.excl hn, hm.slot hholds h.slot,
    hm.served hholds h.served, ?_, ?_⟩
  · intro hf
    have hf' : v.freed := by rw [← hm.freed_eq, hf]
    obtain ⟨hnq, hall⟩ := h.gone hf'
    have hqz : v.queue = 0 := by
      rw [hnq, Bool.toNat_false] at hte
      omega
    refine ⟨by rw [hm.word_of_rests (hall z hmem), hnq], ?_⟩
    intro y hy
    rcases mem_set_cases hz hy with rfl | ⟨j, -, hj⟩
    · exact hm.rests hf (hall z hmem) hqz
    · exact hall y (List.mem_of_getElem? hj)
  · intro y hy
    rcases mem_set_cases hz hy with rfl | ⟨j, hji, hj⟩
    · refine hm.holds_self hholds fun ht => ?_
      obtain ⟨hr, hc⟩ := h.excl (hq ht)
      refine ⟨hr, hc, h.slot hr hc ?_⟩
      by_contra hf
      exact absurd (hq ht) (by simp [(h.gone (by simpa using hf)).1])
    · refine hm.holds_other (h.holds y (List.mem_of_getElem? hj))
        (fun hz0 => h.others_idle hz hz0 (fun e => hji e.symm) hj) fun ht => ?_
      have hqy := h.queued_of_token hj ht
      exact ⟨hqy, (h.excl hqy).1⟩

theorem frees (h : Protocol v zs) (hz : zs[i]? = some z) (hl : z.Light) (hq : v.queue = 0)
    (hrest : ∀ j y, j ≠ i → zs[j]? = some y → y.Rests) :
    Protocol { v with freed := true, slot := false } (zs.set i .resting) := by
  have hrest' : ∀ y ∈ zs.set i .resting, y.Rests := by
    intro y hy
    rcases mem_set_cases hz hy with rfl | ⟨j, hji, hj⟩
    · trivial
    · exact hrest j y hji hj
  have htz : Pool.total Zone.tokens (zs.set i .resting) = 0 :=
    total_eq_zero fun y hy => Zone.tokens_of_rests (hrest' y hy)
  have hts := total_set (f := Zone.tokens) .resting hz
  have hos := total_set (f := Zone.owners) .resting hz
  have hzt : z.tokens = 0 ∧ z.owners = 0 := by rcases hl with rfl | rfl <;> exact ⟨rfl, rfl⟩
  have hrt : Zone.resting.tokens = 0 ∧ Zone.resting.owners = 0 := ⟨rfl, rfl⟩
  have hte := h.tokens_eq
  have hoe := h.owners_eq
  have hnq : (flags v.word).queued = false := by
    have h0 : (flags v.word).queued.toNat = 0 := by omega
    simpa using h0
  refine ⟨by dsimp only; omega, by dsimp only; omega, h.excl, by simp,
    h.served, fun _ => ⟨hnq, hrest'⟩, ?_⟩
  intro y hy
  have hy' := hrest' y hy
  cases y <;> trivial

end Protocol

end RustyTokio.Task

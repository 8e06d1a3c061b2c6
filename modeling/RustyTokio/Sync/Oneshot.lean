import RustyTokio.Task.Coop
import RustyTokio.Transition.Futures
import RustyTokio.Transition.System

/-!
# The oneshot channel

`src/sync/oneshot.rs`: one cell under a lock.  `send` consumes the sender, so its `drop` runs when
`send` is over, whatever became of the value; both wake the receiver after they have let go of the
lock.  The receiver can be polled again when it has answered, until it is dropped.
-/

namespace RustyTokio.Oneshot

open Transition List

inductive State (T : Type) where
  | empty
  | waiting (waker : ℕ)
  | value (v : T)
  | closed
  deriving DecidableEq

/-- Where the sender is. -/
inductive Sender where
  | live
  /-- The lock is let go, and the waker that was in the cell is woken next, by `send` or by
  `drop`. -/
  | wakes (waker : Option ℕ) (sending : Bool)
  /-- `send` is over. -/
  | dropping
  | gone
  deriving DecidableEq

variable {T : Type}

namespace State

def waker : State T → Option ℕ
  | .waiting k => some k
  | _ => none

def slot : State T → List T
  | .value v => [v]
  | _ => []

def isOpen : State T → Bool
  | .empty | .waiting _ => true
  | _ => false

theorem slot_of_isOpen {s : State T} (h : s.isOpen) : s.slot = [] := by
  cases s <;> first | rfl | cases h

end State

structure World (T : Type) where
  state : State T
  sender : Sender
  /-- The receiver, and the waker of its last poll. -/
  phase : Phase
  waker : ℕ
  /-- What `send` was called with, what it has handed back, what polls have returned (`none` is
  `RecvError`), and what went with the receiver. -/
  sent : Option T
  back : List T
  answers : List (Option T)
  destroyed : List T
  deriving DecidableEq

inductive Label (T : Type) where
  | send (v : T)
  | wake
  | dropSender
  | poll (waker : ℕ) (budget : Option ℕ)
  | dropReceiver
  deriving DecidableEq

namespace World

def delivered (w : World T) : List T := w.answers.filterMap id

def send (w : World T) (v : T) : World T :=
  match w.state with
  | .closed => { w with sender := .dropping, sent := some v, back := w.back ++ [v] }
  | s => { w with state := .value v, sender := .wakes s.waker true, sent := some v }

def wake (w : World T) : Option (World T) :=
  match w.sender with
  | .wakes k sending => some { w with
      sender := if sending then .dropping else .gone
      phase := if k = some w.waker then w.phase.wake else w.phase }
  | _ => none

def dropSender (w : World T) : World T :=
  if w.state.isOpen then { w with state := .closed, sender := .wakes w.state.waker false }
  else { w with sender := .gone }

def poll (w : World T) (k : ℕ) (budget : Option ℕ) : World T :=
  match Coop.pollProceed budget, w.state with
  | none, _ => { w with phase := .parked true, waker := k }
  | some _, .value v =>
    { w with state := .closed, phase := .finished, answers := w.answers ++ [some v] }
  | some _, .closed => { w with phase := .finished, answers := w.answers ++ [none] }
  | some _, _ => { w with state := .waiting k, phase := .parked false, waker := k }

def dropReceiver (w : World T) : World T :=
  { w with state := .closed, phase := .dropped, destroyed := w.state.slot ++ w.destroyed }

def step (w : World T) : Label T → Option (World T)
  | .send v => if w.sender = .live then some (w.send v) else none
  | .wake => w.wake
  | .dropSender => if w.sender = .live ∨ w.sender = .dropping then some w.dropSender else none
  | .poll k budget => if w.phase ≠ .dropped then some (w.poll k budget) else none
  | .dropReceiver => if w.phase ≠ .dropped then some w.dropReceiver else none

end World

/-- `channel`. -/
def channel (T : Type) : System (World T) (Label T) where
  init := ⟨.empty, .live, .fresh, 0, none, [], [], []⟩
  step := World.step

namespace World

variable {w v : World T} {l : Label T}

/-- The value has been delivered, or there will be none. -/
def Over (w : World T) : Prop := w.delivered ≠ [] ∨ (w.sent = none ∧ w.sender ≠ .live)

/-- Where the value is, what the cell tells of the two sides, and who wakes the receiver. -/
structure Kept (w : World T) : Prop where
  places : w.sent.toList = w.back ++ w.delivered ++ w.state.slot ++ w.destroyed
  unsent : w.sender = .live → w.sent = none
  isOpen : w.state.isOpen → w.sender = .live
  told : w.phase = .parked false →
    w.state = .waiting w.waker ∨ ∃ b, w.sender = .wakes (some w.waker) b
  ended : (w.state = .closed ∧ w.phase ≠ .dropped) ∨ none ∈ w.answers → w.Over
  refused : w.back ≠ [] → w.phase = .dropped

theorem Over.of_eq (h : w.Over) (hd : v.delivered = w.delivered) (hs : v.sent = w.sent)
    (hl : v.sender = .live → w.sender = .live) : v.Over := by
  unfold Over
  rw [hd, hs]
  exact h.imp_right fun ⟨hnil, hlive⟩ => ⟨hnil, fun hv => hlive (hl hv)⟩

section

variable (h : w.Kept)

include h

theorem Kept.nil (hlive : w.sender = .live) :
    (((w.back = [] ∧ w.delivered = []) ∧ w.state.slot = []) ∧ w.destroyed = []) ∧ ¬ w.Over := by
  have hp := h.places
  rw [h.unsent hlive, Option.toList_none, nil_eq] at hp
  simp only [append_eq_nil_iff] at hp
  exact ⟨hp, fun ho => ho.elim (fun hd => hd hp.1.1.2) fun hne => hne.2 hlive⟩

theorem Kept.waiting (hs : w.sender = .live ∨ w.sender = .dropping)
    (hsleep : w.phase = .parked false) : w.state = .waiting w.waker := by
  refine (h.told hsleep).resolve_right fun ⟨b, hb⟩ => ?_
  rcases hs with hs | hs <;> cases hs.symm.trans hb

theorem Kept.send (hlive : w.sender = .live) (x : T) : (w.send x).Kept := by
  obtain ⟨⟨⟨⟨hb, hd⟩, hslot⟩, hx⟩, hover⟩ := h.nil hlive
  have hno : none ∉ w.answers := fun hn => hover (h.ended (.inr hn))
  unfold World.send
  split
  next hc =>
    -- with the sender there, it is the receiver that has closed the cell
    have hdrop : w.phase = .dropped := by_contra fun hne => hover (h.ended (.inl ⟨hc, hne⟩))
    refine ⟨?_, nofun, by simp [hc, State.isOpen], by simp [hdrop], by simp [hdrop, hno],
      fun _ => hdrop⟩
    show [x] = w.back ++ [x] ++ w.delivered ++ w.state.slot ++ w.destroyed
    simp [hb, hd, hslot, hx]
  next =>
    refine ⟨?_, nofun, nofun, fun hsleep => ?_, by simp [hno], by simp [hb]⟩
    · show [x] = w.back ++ w.delivered ++ [x] ++ w.destroyed
      simp [hb, hd, hx]
    · exact .inr ⟨true, by rw [h.waiting (.inl hlive) hsleep]; rfl⟩

theorem Kept.wake (hs : w.wake = some v) : v.Kept := by
  unfold World.wake at hs
  split at hs
  next k sending hk =>
    cases hs
    have hgone : (if sending then Sender.dropping else .gone) ≠ .live := by split <;> nofun
    refine ⟨h.places, fun hl => absurd hl hgone, fun ho => ?_, fun hsleep => ?_,
      fun hc => ?_, fun hb => ?_⟩
    · cases hk.symm.trans (h.isOpen ho)
    · dsimp only at hsleep
      split at hsleep
      next => simp [← Phase.isAsleep_iff] at hsleep
      next hne =>
        refine (h.told hsleep).imp_right fun ⟨b, hb⟩ => absurd ?_ hne
        cases hk.symm.trans hb
        rfl
    · refine (h.ended (hc.imp_left fun ⟨hcl, hph⟩ => ⟨hcl, fun hd => hph ?_⟩)).of_eq rfl rfl
        fun hl => absurd hl hgone
      simp [hd, Phase.wake]
    · simp [h.refused hb, Phase.wake]
  · cases hs

theorem Kept.dropSender (hd : w.sender = .live ∨ w.sender = .dropping) : w.dropSender.Kept := by
  unfold World.dropSender
  split
  next ho =>
    have hlive := h.isOpen ho
    refine ⟨by rw [h.places, State.slot_of_isOpen ho]; rfl, nofun, nofun, fun hsleep => ?_,
      fun _ => .inr ⟨h.unsent hlive, nofun⟩, h.refused⟩
    exact .inr ⟨false, by rw [h.waiting hd hsleep]; rfl⟩
  next ho =>
    exact ⟨h.places, nofun, fun hv => absurd hv ho, fun hsleep => .inl (h.waiting hd hsleep),
      fun hc => (h.ended hc).of_eq rfl rfl nofun, h.refused⟩

theorem Kept.poll (hp : w.phase ≠ .dropped) (k : ℕ) (budget : Option ℕ) :
    (w.poll k budget).Kept := by
  have hback {p : Phase} : w.back ≠ [] → p = .dropped := fun hb => absurd (h.refused hb) hp
  unfold World.poll
  split
  next =>
    exact ⟨h.places, h.unsent, h.isOpen, nofun,
      fun hc => (h.ended (hc.imp_left fun hc => ⟨hc.1, hp⟩)).of_eq rfl rfl id, hback⟩
  next x hv =>
    have hpl := h.places
    exact ⟨by simp_all [delivered, State.slot], h.unsent, nofun, nofun,
      fun _ => .inl (by simp [delivered]), hback⟩
  next hcl =>
    have hd : (w.answers ++ [none]).filterMap id = w.delivered := by simp [delivered]
    exact ⟨by rw [h.places, ← hd]; rfl, h.unsent, h.isOpen, nofun,
      fun _ => (h.ended (.inl ⟨hcl, hp⟩)).of_eq hd rfl id, hback⟩
  next hv hcl =>
    have ho : w.state.isOpen := by cases hs : w.state <;> simp_all [State.isOpen]
    exact ⟨by rw [h.places, State.slot_of_isOpen ho]; rfl, h.unsent, fun _ => h.isOpen ho,
      fun _ => .inl rfl, fun hc => (h.ended (hc.imp_left fun hc => nomatch hc.1)).of_eq rfl rfl id,
      hback⟩

theorem Kept.dropReceiver : w.dropReceiver.Kept := by
  refine ⟨?_, h.unsent, nofun, nofun, fun hc => ?_, fun _ => rfl⟩
  · refine h.places.trans ?_
    simp [World.dropReceiver, delivered, State.slot]
  · exact (h.ended (hc.imp_left fun hc => absurd rfl hc.2)).of_eq rfl rfl id

theorem Kept.step (hs : w.step l = some v) : v.Kept := by
  cases l with
  | send x =>
    obtain ⟨hlive, rfl⟩ := of_guard hs
    exact h.send hlive x
  | wake => exact h.wake hs
  | dropSender =>
    obtain ⟨hd, rfl⟩ := of_guard hs
    exact h.dropSender hd
  | poll k budget =>
    obtain ⟨hp, rfl⟩ := of_guard hs
    exact h.poll hp k budget
  | dropReceiver =>
    obtain ⟨-, rfl⟩ := of_guard hs
    exact h.dropReceiver

end

theorem kept_of_reachable (h : (channel T).Reachable w) : w.Kept :=
  System.inv_of_reachable (I := Kept)
    ⟨rfl, fun _ => rfl, fun _ => rfl, by simp [channel], by simp [channel], absurd rfl⟩
    (fun _ _ _ hw hs => hw.step hs) h

/-- **The value is in one place.**  In every run a value that was sent has been handed back, been
delivered once, is in the cell, or went with the receiver, and only one of these; it is handed back
only when the receiver is gone; the receiver is told of an error only after the value or when no
sender is left to send one; and while it sleeps, its last waker is in the cell of a live
sender or about to be woken. -/
theorem sent_in_one_place (w : World T) (h : (channel T).Reachable w) :
    w.sent.toList = w.back ++ w.delivered ++ w.state.slot ++ w.destroyed ∧
    (w.back ≠ [] → w.phase = .dropped) ∧
    (none ∈ w.answers → w.delivered ≠ [] ∨ (w.sent = none ∧ w.sender ≠ .live)) ∧
    (w.phase = .parked false → (w.state = .waiting w.waker ∧ w.sender = .live) ∨
      ∃ sending, w.sender = .wakes (some w.waker) sending) := by
  have hk := kept_of_reachable h
  refine ⟨hk.places, hk.refused, fun hn => hk.ended (.inr hn), fun hsleep => ?_⟩
  exact (hk.told hsleep).imp_left fun hw => ⟨hw, hk.isOpen (by rw [hw]; rfl)⟩

theorem sent_in_one_place_of_asleep : ∃ w, (channel ℕ).Reachable w ∧
    w.state = .value 7 ∧ ∃ sending, w.sender = .wakes (some 3) sending := by
  have hr : (channel ℕ).Reachable _ := ⟨[.poll 3 none, .send 7], rfl⟩
  exact ⟨_, hr, rfl, ((sent_in_one_place _ hr).2.2.2 rfl).resolve_left nofun⟩

end World
end RustyTokio.Oneshot

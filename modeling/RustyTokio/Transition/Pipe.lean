import RustyTokio.Transition.Futures

/-!
# A queue with its history and both of its ends

Values go in at one end as long as somebody is left to send, and one taker at a time takes them out
at the other.  A taker that finds nothing stores its waker and parks; whoever puts something in, and
the last sender to leave, wakes it.
-/

namespace RustyTokio.Transition

open List Option Table

/-- A queue with its history, its senders and its takers. -/
structure Pipe (α : Type*) where
  queue : List α
  sent : List α
  taken : List α
  senders : ℕ
  waker : Option ℕ
  takers : List (Future Unit)

namespace Pipe

variable {α : Type*}

def wakeTaker (p : Pipe α) : List (Future Unit) :=
  match p.waker with
  | none => p.takers
  | some i => Table.wake p.takers i

def answer (p : Pipe α) : Poll (Option α) :=
  match p.queue with
  | x :: _ => .ready (some x)
  | [] => if p.senders = 0 then .ready none else .pending

inductive Moves (p : Pipe α) : Pipe α → Prop where
  | quiet : Moves p p
  | push (h : 0 < p.senders) (x : α) :
      Moves p { p with
        queue := p.queue ++ [x], sent := p.sent ++ [x], waker := none, takers := p.wakeTaker }
  | join (h : 0 < p.senders) : Moves p { p with senders := p.senders + 1 }
  | leave (h : 1 < p.senders) : Moves p { p with senders := p.senders - 1 }
  | last (h : p.senders = 1) :
      Moves p { p with senders := 0, waker := none, takers := p.wakeTaker }
  | start (h : ∀ f ∈ p.takers, f.phase.isLive = false) :
      Moves p { p with takers := p.takers ++ [⟨(), .fresh⟩] }
  | take {i x rest} (hq : p.queue = x :: rest) :
      Moves p { p with
        queue := rest, taken := p.taken ++ [x], takers := Table.setPhase p.takers i .finished }
  | finish {i} (hq : p.queue = []) (hs : p.senders = 0) :
      Moves p { p with takers := Table.setPhase p.takers i .finished }
  | park {i f} (hi : p.takers[i]? = some f) (hp : f.phase.isLive)
      (hq : p.queue = []) (hs : p.senders ≠ 0) :
      Moves p { p with waker := some i, takers := Table.setPhase p.takers i (.parked false) }
  | yield {i f} (hi : p.takers[i]? = some f) (hp : f.phase.isLive) :
      Moves p { p with takers := Table.setPhase p.takers i (.parked true) }
  | drop {i} : Moves p { p with takers := Table.setPhase p.takers i .dropped }

/-- Nothing is lost, one taker at a time, and whoever sleeps is watched. -/
structure Sound (p : Pipe α) : Prop where
  fifo : p.taken ++ p.queue = p.sent
  single : ∀ (i j : ℕ) (f g : Future Unit), p.takers[i]? = some f → p.takers[j]? = some g →
    f.phase.isLive = true → g.phase.isLive = true → i = j
  watched : ∀ (i : ℕ) (f : Future Unit), p.takers[i]? = some f → f.phase = .parked false →
    p.waker = some i ∧ p.queue = [] ∧ p.senders ≠ 0

/-- Nobody is left to send and nothing is left to take. -/
structure Closed (p : Pipe α) : Prop where
  senders : p.senders = 0
  queue : p.queue = []

theorem Closed.moves {p q : Pipe α} (h : p.Closed) (hm : p.Moves q) : q.Closed := by
  have hs := h.senders
  cases hm with
  | push hp x | join hp | leave hp | last hp => omega
  | take hq => cases h.queue.symm.trans hq
  | _ => exact ⟨hs, h.queue⟩

theorem answer_eq_none_iff {p : Pipe α} : p.answer = .ready none ↔ p.Closed := by
  rw [answer]
  cases hq : p.queue with
  | cons x rest =>
    refine iff_of_false (by simp) fun h => ?_
    cases h.queue.symm.trans hq
  | nil =>
    refine ⟨fun h => ⟨?_, hq⟩, fun h => if_pos h.senders⟩
    by_contra hs
    rw [if_neg hs] at h
    cases h

/-! ## Changing one taker -/

variable {t : List (Future Unit)} {i j : ℕ} {g : Future Unit}

theorem takers_setPhase {p : Phase} (h : (Table.setPhase t i p)[j]? = some g) :
    ∃ f, t[j]? = some f ∧ (i = j → g.phase = p) ∧ (i ≠ j → g = f) := by
  rw [getElem?_setPhase] at h
  obtain ⟨f, hf, rfl⟩ := map_eq_some_iff.mp h
  refine ⟨f, hf, fun hij => ?_, fun hij => ?_⟩ <;> simp [hij]

theorem takers_wake (h : (Table.wake t i)[j]? = some g) :
    ∃ f, t[j]? = some f ∧ g.phase.isLive = f.phase.isLive ∧
      (g.phase = .parked false → j ≠ i ∧ f.phase = .parked false) := by
  rw [getElem?_wake] at h
  obtain ⟨f, hf, rfl⟩ := map_eq_some_iff.mp h
  refine ⟨f, hf, ?_, fun hp => ?_⟩
  · by_cases hij : i = j
    · simp only [hij, if_true]
      cases f.phase <;> rfl
    · simp only [if_neg hij]
  · by_cases hij : i = j
    · simp only [hij, if_true] at hp
      have hs := Phase.isAsleep_wake f.phase
      rw [Phase.isAsleep_iff.mpr hp] at hs
      cases hs
    · simp only [if_neg hij] at hp
      exact ⟨fun he => hij he.symm, hp⟩

namespace Sound

variable {p : Pipe α} {j k : ℕ} {g : Future Unit} {q : Phase}

theorem awake (h : p.Sound) (hg : p.wakeTaker[j]? = some g) : g.phase ≠ .parked false := by
  intro hp
  unfold wakeTaker at hg
  cases hw : p.waker with
  | none =>
    rw [hw] at hg
    cases (h.watched j g hg hp).1.symm.trans hw
  | some i =>
    rw [hw] at hg
    obtain ⟨f, hf, -, hold⟩ := takers_wake hg
    obtain ⟨hne, hfp⟩ := hold hp
    exact hne (some.inj ((h.watched j f hf hfp).1.symm.trans hw))

theorem single_wakeTaker (h : p.Sound) (i j : ℕ) (f g : Future Unit)
    (hi : p.wakeTaker[i]? = some f) (hj : p.wakeTaker[j]? = some g)
    (hf : f.phase.isLive) (hg : g.phase.isLive) : i = j := by
  unfold wakeTaker at hi hj
  cases hw : p.waker with
  | none =>
    rw [hw] at hi hj
    exact h.single i j f g hi hj hf hg
  | some k =>
    rw [hw] at hi hj
    obtain ⟨f', hf', hlf, -⟩ := takers_wake hi
    obtain ⟨g', hg', hlg, -⟩ := takers_wake hj
    exact h.single i j f' g' hf' hg' (hlf ▸ hf) (hlg ▸ hg)

theorem single_setPhase (h : p.Sound)
    (hq : q.isLive → ∃ f, p.takers[k]? = some f ∧ f.phase.isLive) (i j : ℕ)
    (f g : Future Unit) (hi : (Table.setPhase p.takers k q)[i]? = some f)
    (hj : (Table.setPhase p.takers k q)[j]? = some g) (hf : f.phase.isLive)
    (hg : g.phase.isLive) : i = j := by
  -- whoever is live after the change was live before it
  have hlive : ∀ (m : ℕ) (e : Future Unit), (Table.setPhase p.takers k q)[m]? = some e →
      e.phase.isLive → ∃ e', p.takers[m]? = some e' ∧ e'.phase.isLive := by
    intro m e he hl
    obtain ⟨e', he', heq, hne⟩ := takers_setPhase he
    by_cases hkm : k = m
    · rw [heq hkm] at hl
      rw [← hkm]
      exact hq hl
    · rw [hne hkm] at hl
      exact ⟨e', he', hl⟩
  obtain ⟨f', hf', hlf⟩ := hlive i f hi hf
  obtain ⟨g', hg', hlg⟩ := hlive j g hj hg
  exact h.single i j f' g' hf' hg' hlf hlg

theorem asleep_of_setPhase {t : List (Future Unit)}
    (hq : q ≠ .parked false) (hg : (Table.setPhase t k q)[j]? = some g)
    (hp : g.phase = .parked false) : t[j]? = some g := by
  obtain ⟨f, hf, heq, hne⟩ := takers_setPhase hg
  by_cases hkj : k = j
  · exact absurd ((heq hkj).symm.trans hp) hq
  · rw [hne hkj]
    exact hf

theorem park (h : p.Sound) {i : ℕ} {f : Future Unit} (hi : p.takers[i]? = some f)
    (hp : f.phase.isLive) (hq : p.queue = []) (hs : p.senders ≠ 0) :
    Sound { p with waker := some i, takers := Table.setPhase p.takers i (.parked false) } where
  fifo := h.fifo
  single := h.single_setPhase fun _ => ⟨f, hi, hp⟩
  watched j g hg hgp := by
    obtain ⟨g', hg', -, hne⟩ := takers_setPhase hg
    by_cases hij : i = j
    · exact ⟨by rw [hij], hq, hs⟩
    · -- another taker that sleeps would be live beside this one
      rw [hne hij] at hgp
      have hlive : g'.phase.isLive := by rw [hgp]; rfl
      exact absurd (h.single i j f g' hi hg' hp hlive) hij

theorem start (h : p.Sound) (hn : ∀ f ∈ p.takers, f.phase.isLive = false) :
    Sound { p with takers := p.takers ++ [⟨(), .fresh⟩] } := by
  -- a taker that is live is the new one
  have hnew : ∀ (i : ℕ) (f : Future Unit), (p.takers ++ [⟨(), .fresh⟩])[i]? = some f →
      f.phase.isLive → i = p.takers.length ∧ f.phase = .fresh := by
    intro i f hf hl
    rcases of_snoc hf with hf | ⟨hi, rfl⟩
    · cases (hn f (mem_of_getElem? hf)).symm.trans hl
    · exact ⟨hi, rfl⟩
  refine ⟨h.fifo, fun i j f g hi hj hf hg => ?_, fun i f hf hp => ?_⟩
  · rw [(hnew i f hi hf).1, (hnew j g hj hg).1]
  · have hl : f.phase.isLive := by rw [hp]; rfl
    cases (hnew i f hf hl).2.symm.trans hp

theorem moves {q : Pipe α} (h : p.Sound) (hm : p.Moves q) : q.Sound := by
  cases hm with
  | quiet => exact h
  | push hs x =>
    refine ⟨?_, h.single_wakeTaker, fun i f hf hp => absurd hp (h.awake hf)⟩
    change p.taken ++ (p.queue ++ [x]) = p.sent ++ [x]
    rw [← append_assoc, h.fifo]
  | join hs =>
    refine ⟨h.fifo, h.single, fun i f hf hp => ?_⟩
    obtain ⟨hw, hq, -⟩ := h.watched i f hf hp
    exact ⟨hw, hq, Nat.succ_ne_zero _⟩
  | leave hs =>
    refine ⟨h.fifo, h.single, fun i f hf hp => ?_⟩
    obtain ⟨hw, hq, -⟩ := h.watched i f hf hp
    exact ⟨hw, hq, by change p.senders - 1 ≠ 0; omega⟩
  | last hs =>
    exact ⟨h.fifo, h.single_wakeTaker, fun i f hf hp => absurd hp (h.awake hf)⟩
  | start hn => exact h.start hn
  | @take i x rest hq =>
    refine ⟨?_, h.single_setPhase (fun hl => absurd hl (by decide)), fun j g hg hp => ?_⟩
    · change (p.taken ++ [x]) ++ rest = p.sent
      rw [append_assoc, singleton_append, ← hq]
      exact h.fifo
    · -- nobody sleeps beside a queue with something in it
      have hold := asleep_of_setPhase (by simp) hg hp
      cases (h.watched j g hold hp).2.1.symm.trans hq
  | finish hq hs | drop =>
    refine ⟨h.fifo, h.single_setPhase (fun hl => absurd hl (by decide)), fun j g hg hp => ?_⟩
    exact h.watched j g (asleep_of_setPhase (by simp) hg hp) hp
  | park hi hp hq hs => exact h.park hi hp hq hs
  | @yield i f hi hp =>
    refine ⟨h.fifo, h.single_setPhase (fun _ => ⟨f, hi, hp⟩), fun j g hg hgp => ?_⟩
    exact h.watched j g (asleep_of_setPhase (by simp) hg hgp) hgp

theorem awake_of_senders (h : p.Sound) (hs : p.senders = 0) : ∀ f ∈ p.takers,
    f.phase ≠ .parked false := by
  intro f hf hp
  obtain ⟨i, hi⟩ := getElem?_of_mem hf
  exact (h.watched i f hi hp).2.2 hs

end Sound

def new (senders : ℕ) : Pipe α := ⟨[], [], [], senders, none, []⟩

theorem sound_new (senders : ℕ) : (new senders : Pipe α).Sound where
  fifo := rfl
  single _ _ _ _ h := by simp [new] at h
  watched _ _ h := by simp [new] at h

end Pipe
end RustyTokio.Transition

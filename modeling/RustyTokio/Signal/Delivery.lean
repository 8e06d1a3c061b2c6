import RustyTokio.Transition.Futures
import RustyTokio.Transition.System

/-!
# Signals on their way to a listener

The handler of a signal writes one byte to a pipe and does nothing else.  A task reads the pipe, up
to 64 bytes at a time, and for each byte visits the listeners of that signal under the lock of its
slot: it sets the flag of each and takes its waker.
-/

namespace RustyTokio.Signal

open Transition List Option Table

def nsig : ℕ := 64

inductive Use where
  | idle
  | swapped (waker : ℕ)
  | registered
  deriving DecidableEq

structure Listener where
  signum : ℕ
  alive : Bool
  /-- The slot has an entry for it. -/
  listed : Bool
  pending : Bool
  waker : Option ℕ
  use : Use
  /-- The signal was handled since the flag was last found set, or since the listener was made. -/
  owed : Bool
  deriving DecidableEq

structure Dispatch where
  signum : ℕ
  rest : List ℕ
  /-- The listener whose flag it has set, and whose waker it has yet to take. -/
  waking : Option ℕ
  deriving DecidableEq

structure World where
  capacity : ℕ
  pipe : List ℕ
  buf : List ℕ
  dispatch : Option Dispatch
  installed : List ℕ
  listeners : List Listener
  woken : List ℕ
  deriving DecidableEq

inductive Label where
  | handle (signum : ℕ)
  | signal (signum : ℕ) (fails : Bool)
  | drop (i : ℕ)
  | read (n : ℕ)
  | dispatch
  | visit
  | wake
  | release
  | poll (i waker : ℕ)
  | register (i : ℕ)
  | recheck (i : ℕ)
  deriving DecidableEq

namespace Listener

def new (signum : ℕ) : Listener := ⟨signum, true, true, false, none, .idle, false⟩

def owe (signum : ℕ) (l : Listener) : Listener :=
  { l with owed := l.owed || (l.alive && l.signum == signum) }

def receive (l : Listener) : Listener := { l with pending := false, use := .idle, owed := false }

end Listener

namespace World

/-- The entries of a slot, in the order in which they were pushed. -/
def slot (w : World) (signum : ℕ) : List ℕ :=
  (List.range w.listeners.length).filter fun i =>
    w.listeners[i]?.any fun l => l.listed && l.signum == signum

def unlocked (w : World) (signum : ℕ) : Bool := w.dispatch.all fun d => d.signum != signum

def modify (w : World) (i : ℕ) (f : Listener → Listener) : World :=
  { w with listeners := w.listeners.modify i f }

/-- `handle_signal`: what `write` returns is thrown away. -/
def handle (w : World) (signum : ℕ) : World :=
  { w with
    pipe := if w.pipe.length < w.capacity then w.pipe ++ [signum] else w.pipe
    listeners := w.listeners.map (Listener.owe signum) }

def signal (w : World) (signum : ℕ) (fails : Bool) : World :=
  if signum ∈ w.installed then { w with listeners := w.listeners ++ [.new signum] }
  else if fails then w
  else
    { w with
      installed := signum :: w.installed
      listeners := w.listeners ++ [.new signum] }

def visit (w : World) (signum i : ℕ) (rest : List ℕ) : World :=
  if w.listeners[i]?.any Listener.alive then
    { w.modify i fun l => { l with pending := true } with dispatch := some ⟨signum, rest, some i⟩ }
  else { w.modify i fun l => { l with listed := false } with dispatch := some ⟨signum, rest, none⟩ }

def step (w : World) : Label → Option World
  | .handle signum => if signum ∈ w.installed then some (w.handle signum) else none
  | .signal signum fails =>
    if signum < nsig ∧ w.unlocked signum then some (w.signal signum fails) else none
  | .drop i =>
    match w.listeners[i]? with
    | some ⟨_, true, _, _, _, .idle, _⟩ => some (w.modify i fun l => { l with alive := false })
    | _ => none
  | .read n =>
    if w.buf = [] ∧ w.dispatch = none ∧ 0 < n ∧ n ≤ min 64 w.pipe.length then
      some { w with buf := w.pipe.take n, pipe := w.pipe.drop n }
    else none
  | .dispatch =>
    match w.buf, w.dispatch with
    | signum :: buf, none =>
      some { w with buf := buf, dispatch := some ⟨signum, w.slot signum, none⟩ }
    | _, _ => none
  | .visit =>
    match w.dispatch with
    | some ⟨signum, i :: rest, none⟩ => some (w.visit signum i rest)
    | _ => none
  | .wake =>
    match w.dispatch with
    | some ⟨signum, rest, some i⟩ =>
      some
        { w.modify i fun l => { l with waker := none } with
          dispatch := some ⟨signum, rest, none⟩
          woken := w.woken ++ (w.listeners[i]?.bind Listener.waker).toList }
    | _ => none
  | .release =>
    match w.dispatch with
    | some ⟨_, [], none⟩ => some { w with dispatch := none }
    | _ => none
  | .poll i waker =>
    match w.listeners[i]? with
    | some ⟨_, true, _, true, _, .idle, _⟩ => some (w.modify i Listener.receive)
    | some ⟨_, true, _, false, _, .idle, _⟩ =>
      some (w.modify i fun l => { l with use := .swapped waker })
    | _ => none
  | .register i =>
    match w.listeners[i]? with
    | some ⟨_, _, _, _, _, .swapped waker, _⟩ =>
      some (w.modify i fun l => { l with waker := some waker, use := .registered })
    | _ => none
  | .recheck i =>
    match w.listeners[i]? with
    | some ⟨_, _, _, true, _, .registered, _⟩ => some (w.modify i Listener.receive)
    | some ⟨_, _, _, false, _, .registered, _⟩ =>
      some (w.modify i fun l => { l with use := .idle })
    | _ => none

end World

def signals (capacity : ℕ) : System World Label where
  init := ⟨capacity, [], [], none, [], [], []⟩
  step := World.step

namespace World

/-- A byte of the signal is on its way: in the pipe, or read and not dispatched. -/
def onItsWay (w : World) (signum : ℕ) : Bool := w.pipe.contains signum || w.buf.contains signum

def toVisit (w : World) (signum i : ℕ) : Bool :=
  w.dispatch.any fun d => d.signum == signum && d.rest.contains i

/-- A listener is owed a signal, its flag is clear, and no byte of that signal is on its way or
being dispatched. -/
def Lost (w : World) : Prop :=
  ∃ (i : ℕ) (l : Listener), w.listeners[i]? = some l ∧ l.alive = true ∧ l.owed = true ∧
    l.pending = false ∧ w.onItsWay l.signum = false ∧ w.unlocked l.signum = true

def expects (w : World) (signum i : ℕ) : Bool :=
  match w.listeners[i]? with
  | some l => !l.alive || l.signum != signum || l.pending || w.toVisit signum i
  | none => true

/-- A signal comes to a full pipe while no byte of it is on its way, and some listener for it has
nothing coming. -/
def drops (w : World) : Label → Bool
  | .handle signum =>
    decide (w.capacity ≤ w.pipe.length) && !w.onItsWay signum &&
      !(List.range w.listeners.length).all (w.expects signum)
  | _ => false

/-! ## What a step does -/

inductive Steps (w : World) : Label → World → Prop where
  | handle {signum} (hs : signum ∈ w.installed) : Steps w (.handle signum) (w.handle signum)
  | signal {signum fails installed} :
      Steps w (.signal signum fails)
        { w with installed := installed, listeners := w.listeners ++ [.new signum] }
  | refused {signum} : Steps w (.signal signum true) w
  | drop {i l} (hi : w.listeners[i]? = some l) :
      Steps w (.drop i) (w.modify i fun l => { l with alive := false })
  | read {n} (hb : w.buf = []) (hd : w.dispatch = none) :
      Steps w (.read n) { w with buf := w.pipe.take n, pipe := w.pipe.drop n }
  | dispatch {signum buf} (hb : w.buf = signum :: buf) (hd : w.dispatch = none) :
      Steps w .dispatch { w with buf := buf, dispatch := some ⟨signum, w.slot signum, none⟩ }
  | visit {signum i rest l}
      (hd : w.dispatch = some ⟨signum, i :: rest, none⟩) (hi : w.listeners[i]? = some l) :
      Steps w .visit
        { w.modify i fun l => { l with pending := true } with
          dispatch := some ⟨signum, rest, some i⟩ }
  | skip {signum i rest} (hd : w.dispatch = some ⟨signum, i :: rest, none⟩)
      (hdead : ∀ l, w.listeners[i]? = some l → l.alive = false) :
      Steps w .visit
        { w.modify i fun l => { l with listed := false } with
          dispatch := some ⟨signum, rest, none⟩ }
  | wake {signum i rest woken} (hd : w.dispatch = some ⟨signum, rest, some i⟩) :
      Steps w .wake
        { w.modify i fun l => { l with waker := none } with
          dispatch := some ⟨signum, rest, none⟩
          woken := woken }
  | release {signum} (hd : w.dispatch = some ⟨signum, [], none⟩) :
      Steps w .release { w with dispatch := none }
  | receive {i label l} (hi : w.listeners[i]? = some l)
      (hl : (∃ waker, label = .poll i waker) ∨ label = .recheck i) :
      Steps w label (w.modify i Listener.receive)
  | swap {i waker l} (hi : w.listeners[i]? = some l) (hp : l.pending = false) :
      Steps w (.poll i waker) (w.modify i fun l => { l with use := .swapped waker })
  | register {i waker l} (hi : w.listeners[i]? = some l) :
      Steps w (.register i)
        (w.modify i fun l => { l with waker := some waker, use := .registered })
  | recheck {i l} (hi : w.listeners[i]? = some l) (hp : l.pending = false) :
      Steps w (.recheck i) (w.modify i fun l => { l with use := .idle })

variable {w v : World} {signum i j capacity : ℕ} {rest : List ℕ} {l : Listener}
  {f : Listener → Listener} {waking : Option ℕ} {label : Label}

theorem steps_visit (hd : w.dispatch = some ⟨signum, i :: rest, none⟩) :
    w.Steps .visit (w.visit signum i rest) := by
  rw [World.visit]
  split
  next halive =>
    obtain ⟨l, hi, -⟩ := (any_eq_true _ _).mp halive
    exact .visit hd hi
  next hdead =>
    refine .skip hd fun l hi => ?_
    simpa [hi] using hdead

theorem steps_of_step {l : Label} (hs : w.step l = some v) : w.Steps l v := by
  cases l with
  | handle signum =>
    obtain ⟨hi, rfl⟩ := of_guard hs
    exact .handle hi
  | signal signum fails =>
    obtain ⟨-, hs⟩ := ite_none_right_eq_some.mp hs
    rw [← some.inj hs, World.signal]
    split
    · exact .signal
    · split
      next hf => exact hf ▸ .refused
      · exact .signal
  | drop i =>
    simp only [step] at hs
    split at hs
    next hi => exact some.inj hs ▸ .drop hi
    · cases hs
  | read n =>
    obtain ⟨⟨hb, hd, -⟩, rfl⟩ := of_guard hs
    exact .read hb hd
  | dispatch =>
    simp only [step] at hs
    split at hs
    next hb hd => exact some.inj hs ▸ .dispatch hb hd
    · cases hs
  | visit =>
    simp only [step] at hs
    split at hs
    next hd => exact some.inj hs ▸ steps_visit hd
    · cases hs
  | wake =>
    simp only [step] at hs
    split at hs
    next hd => exact some.inj hs ▸ .wake hd
    · cases hs
  | release =>
    simp only [step] at hs
    split at hs
    next hd => exact some.inj hs ▸ .release hd
    · cases hs
  | poll i waker =>
    simp only [step] at hs
    split at hs
    next hi => exact some.inj hs ▸ .receive hi (.inl ⟨waker, rfl⟩)
    next hi => exact some.inj hs ▸ .swap hi rfl
    · cases hs
  | register i =>
    simp only [step] at hs
    split at hs
    next hi => exact some.inj hs ▸ .register hi
    · cases hs
  | recheck i =>
    simp only [step] at hs
    split at hs
    next hi => exact some.inj hs ▸ .receive hi (.inr rfl)
    next hi => exact some.inj hs ▸ .recheck hi rfl
    · cases hs

/-! ## Without a drop -/

/-- A signal owed to a live listener is pending, on its way, or about to be told. -/
def Accounted (w : World) (i : ℕ) (l : Listener) : Prop :=
  l.alive = true → l.listed = true ∧
    (l.owed = true → l.pending = true ∨ w.onItsWay l.signum = true ∨ w.toVisit l.signum i = true)

def Kept (w : World) : Prop :=
  ∀ (i : ℕ) (l : Listener), w.listeners[i]? = some l → w.Accounted i l

theorem onItsWay_iff : w.onItsWay signum ↔ signum ∈ w.pipe ∨ signum ∈ w.buf := by
  simp [onItsWay]

theorem toVisit_iff :
    w.toVisit signum i ↔ ∃ d, w.dispatch = some d ∧ d.signum = signum ∧ i ∈ d.rest := by
  simp [toVisit, Option.any_eq_true]

theorem mem_slot (hi : w.listeners[i]? = some l) (hl : l.listed) : i ∈ w.slot l.signum := by
  refine mem_filter.mpr ⟨mem_range.mpr (lt_of_some hi), ?_⟩
  simp [hi, hl]

theorem Accounted.mono (h : w.Accounted i l) (hc : w.onItsWay l.signum ∨ w.toVisit l.signum i →
      v.onItsWay l.signum ∨ v.toVisit l.signum i) : v.Accounted i l := by
  intro ha
  refine ⟨(h ha).1, fun ho => ?_⟩
  exact ((h ha).2 ho).imp_right hc

theorem Kept.modify (h : w.Kept) (hi : w.listeners[i]? = some l) (hf : w.Accounted i (f l)) :
    (w.modify i f).Kept :=
  forall_modify (P := fun i l => w.Accounted i l) hi hf h

theorem Kept.touch (h : w.Kept) (i : ℕ)
    (hf : ∀ l, (f l).signum = l.signum ∧ (f l).alive = l.alive ∧ (f l).listed = l.listed ∧
      (f l).pending = l.pending ∧ (f l).owed = l.owed) : (w.modify i f).Kept := by
  intro j l' hj
  rcases of_modify hj with ⟨-, l, hl, rfl⟩ | ⟨-, hj⟩
  · obtain ⟨h1, h2, h3, h4, h5⟩ := hf l
    rw [Accounted, h1, h2, h3, h4, h5]
    exact h j l hl
  · exact h j l' hj

theorem toVisit_of_dispatch {t : ℕ} {rest' : List ℕ}
    {waking' : Option ℕ} (hw : w.dispatch = some ⟨signum, rest, waking⟩)
    (hv : v.dispatch = some ⟨signum, rest', waking'⟩) (hsub : j ∈ rest → j ∈ rest')
    (h : w.toVisit t j) : v.toVisit t j := by
  obtain ⟨d, hd, hsig, hmem⟩ := toVisit_iff.mp h
  cases hw.symm.trans hd
  exact toVisit_iff.mpr ⟨_, hv, hsig, hsub hmem⟩

theorem Kept.handle (h : w.Kept)
    (hl : w.drops (.handle signum) = false) : (w.handle signum).Kept := by
  have hmono : ∀ t, w.onItsWay t → (w.handle signum).onItsWay t := by
    intro t ht
    rw [onItsWay_iff] at ht ⊢
    refine ht.imp_left fun hp => ?_
    simp only [World.handle]
    split
    · exact mem_append_left _ hp
    · exact hp
  intro i l' hi
  rw [World.handle, getElem?_map, map_eq_some_iff] at hi
  obtain ⟨l, hi, rfl⟩ := hi
  intro ha
  refine ⟨(h i l hi ha).1, fun ho => ?_⟩
  by_cases hold : l.owed
  · rcases (h i l hi ha).2 hold with hp | hw | hv
    · exact .inl hp
    · exact .inr (.inl (hmono _ hw))
    · exact .inr (.inr hv)
  · -- the listener is owed this very signal
    have hsig : l.signum = signum := by
      simp only [Listener.owe, Bool.or_eq_true, Bool.and_eq_true, beq_iff_eq] at ho
      exact (ho.resolve_left hold).2
    subst hsig
    by_cases hroom : w.pipe.length < w.capacity
    · refine .inr (.inl (onItsWay_iff.mpr (.inl ?_)))
      simp only [World.handle, if_pos hroom]
      exact mem_append_right _ (mem_singleton.mpr rfl)
    · by_cases hw : w.onItsWay l.signum
      · exact .inr (.inl (hmono _ hw))
      · -- the pipe is full, but the listener expects it anyway
        simp only [drops, Nat.le_of_not_lt hroom, decide_true, Bool.not_eq_true] at hl hw
        rw [hw, Bool.not_false, Bool.true_and, Bool.true_and, Bool.not_eq_false',
          List.all_eq_true] at hl
        have hexp := hl i (mem_range.mpr (lt_of_some hi))
        have halive : l.alive := ha
        simp only [expects, hi, halive, bne_self_eq_false, Bool.not_true, Bool.false_or,
          Bool.or_eq_true] at hexp
        exact hexp.imp_right .inr

theorem kept_of_steps (h : w.Kept) (hl : w.drops label = false)
    (hs : w.Steps label v) : v.Kept := by
  cases hs with
  | handle hi => exact h.handle hl
  | @signal signum fails installed =>
    intro i l hi
    rcases of_snoc hi with hi | ⟨-, rfl⟩
    · exact h i l hi
    · exact fun _ => ⟨rfl, fun ho => absurd ho Bool.false_ne_true⟩
  | refused => exact h
  | drop hi => exact h.modify hi fun ha => absurd ha Bool.false_ne_true
  | @read n hb hd =>
    intro i l hi
    refine (h i l hi).mono fun hc => hc.imp_left fun hw => ?_
    rw [onItsWay_iff, hb] at hw
    rw [onItsWay_iff]
    have hmem := hw.resolve_right not_mem_nil
    rw [← take_append_drop n w.pipe, mem_append] at hmem
    exact hmem.symm
  | @dispatch signum buf hb hd =>
    intro i l hi ha
    obtain ⟨hlisted, howed⟩ := h i l hi ha
    refine ⟨hlisted, fun ho => (howed ho).imp_right fun hc => ?_⟩
    rcases hc with hw | hv
    · rw [onItsWay_iff, hb, mem_cons] at hw
      rcases hw with hp | rfl | hbuf
      · exact .inl (onItsWay_iff.mpr (.inl hp))
      · -- the byte that is taken brings the dispatch
        exact .inr (toVisit_iff.mpr ⟨_, rfl, rfl, mem_slot hi hlisted⟩)
      · exact .inl (onItsWay_iff.mpr (.inr hbuf))
    · rw [toVisit, hd] at hv
      cases hv
  | @visit signum i rest l hd hi =>
    intro j l' hj
    rcases of_modify hj with ⟨rfl, m, hm, rfl⟩ | ⟨hij, hj⟩
    · exact fun ha => ⟨(h i m hm ha).1, fun _ => .inl rfl⟩
    · exact (h j l' hj).mono fun hc => hc.imp_right (toVisit_of_dispatch hd rfl
        fun hmem => (mem_cons.mp hmem).resolve_left fun he => hij he.symm)
  | @skip signum i rest hd hdead =>
    intro j l' hj
    rcases of_modify hj with ⟨rfl, m, hm, rfl⟩ | ⟨hij, hj⟩
    · exact fun ha => absurd ((hdead m hm).symm.trans ha) Bool.false_ne_true
    · exact (h j l' hj).mono fun hc => hc.imp_right (toVisit_of_dispatch hd rfl
        fun hmem => (mem_cons.mp hmem).resolve_left fun he => hij he.symm)
  | @wake signum i rest woken hd =>
    have ht : (w.modify i fun l => { l with waker := none }).Kept :=
      h.touch i fun _ => ⟨rfl, rfl, rfl, rfl, rfl⟩
    intro j l hj
    refine (ht j l hj).mono fun hc => hc.imp_right fun hv => ?_
    exact toVisit_of_dispatch hd rfl id hv
  | release hd =>
    intro i l hi
    refine (h i l hi).mono fun hc => hc.imp_right fun hv => ?_
    obtain ⟨d, hd', -, hmem⟩ := toVisit_iff.mp hv
    cases hd.symm.trans hd'
    cases hmem
  | receive hi _ =>
    exact h.modify hi fun ha => ⟨(h _ _ hi ha).1, fun ho => absurd ho Bool.false_ne_true⟩
  | swap hi hp | register hi | recheck hi hp => exact h.touch _ fun _ => ⟨rfl, rfl, rfl, rfl, rfl⟩

theorem kept_of_reachableUnder
    (h : (signals capacity).ReachableUnder (fun w l => w.drops l = false) w) : w.Kept :=
  System.inv_of_reachableUnder (I := Kept) (fun i l hi => by simp [signals] at hi)
    (fun _ _ _ hI hl hs => kept_of_steps hI hl (steps_of_step hs)) h

/-! ## After a drop -/

/-- The listener is owed its signal and was not told. -/
structure Untold (w : World) (signum i : ℕ) (l : Listener) : Prop where
  here : w.listeners[i]? = some l
  signum : l.signum = signum
  alive : l.alive
  owed : l.owed
  clear : l.pending = false

theorem Untold.modify (h : w.Untold signum i l) (hv : v.listeners = w.listeners.modify j f)
    (hf : j = i → (f l).signum = l.signum ∧ (f l).alive = l.alive ∧ (f l).owed = l.owed ∧
      (f l).pending = l.pending) : ∃ l', v.Untold signum i l' := by
  by_cases hij : j = i
  · obtain ⟨h1, h2, h3, h4⟩ := hf hij
    subst hij
    exact ⟨f l, by rw [hv, modify_self h.here], h1.trans h.signum, h2.trans h.alive,
      h3.trans h.owed, h4.trans h.clear⟩
  · exact ⟨l, by rw [hv, modify_of_ne hij, h.here], h.signum, h.alive, h.owed, h.clear⟩

def dispatching (l : Label) : Prop := l = .visit ∨ l = .wake ∨ l = .release

theorem leadsTo_lost : ∀ {rest : List ℕ} {w : World} {l : Listener}, w.Untold signum i l →
      w.onItsWay signum = false → w.dispatch = some ⟨signum, rest, none⟩ → i ∉ rest →
      (signals capacity).LeadsTo dispatching Lost w
  | [], w, l, h, haway, hd, _ => by
    have hstep : (signals capacity).step w .release = some { w with dispatch := none } := by
      simp [signals, step, hd]
    exact .of_step (.inr (.inr rfl)) hstep
      (.now ⟨i, l, h.here, h.alive, h.owed, h.clear, h.signum ▸ haway, rfl⟩)
  | j :: rest, w, l, h, haway, hd, hi => by
    have hstep : (signals capacity).step w .visit = some (w.visit signum j rest) := by
      simp [signals, step, hd]
    refine .of_step (.inl rfl) hstep ?_
    have hij : j ≠ i := fun he => hi (he ▸ mem_cons_self)
    have hrest : i ∉ rest := fun hmem => hi (mem_cons_of_mem _ hmem)
    rw [World.visit]
    split
    · -- its flag is set, and then its waker taken
      refine .of_step (.inr (.inl rfl)) rfl ?_
      obtain ⟨l', h'⟩ := h.modify (v := w.modify j fun l => { l with pending := true }) rfl
        fun he => absurd he hij
      obtain ⟨l'', h''⟩ := h'.modify (f := fun l => { l with waker := none })
        (v := (w.modify j fun l => { l with pending := true }).modify j
          fun l => { l with waker := none }) rfl fun _ => ⟨rfl, rfl, rfl, rfl⟩
      exact leadsTo_lost (l := l'') ⟨h''.here, h''.signum, h''.alive, h''.owed, h''.clear⟩ haway rfl
        hrest
    · obtain ⟨l', h'⟩ := h.modify (v := w.modify j fun l => { l with listed := false }) rfl
        fun he => absurd he hij
      exact leadsTo_lost (l := l') ⟨h'.here, h'.signum, h'.alive, h'.owed, h'.clear⟩ haway rfl hrest

theorem leadsTo_lost_of_waking (h : w.Untold signum i l) (haway : w.onItsWay signum = false)
    (hd : w.dispatch = some ⟨signum, rest, waking⟩) (hi : i ∉ rest) :
    (signals capacity).LeadsTo dispatching Lost w := by
  cases waking with
  | none => exact leadsTo_lost h haway hd hi
  | some j =>
    have hstep : (signals capacity).step w .wake = some
        { w.modify j fun l => { l with waker := none } with
          dispatch := some ⟨signum, rest, none⟩
          woken := w.woken ++ (w.listeners[j]?.bind Listener.waker).toList } := by
      simp [signals, step, hd]
    obtain ⟨l', h'⟩ := h.modify (f := fun l => { l with waker := none })
      (v := w.modify j fun l => { l with waker := none }) rfl fun _ => ⟨rfl, rfl, rfl, rfl⟩
    exact .of_step (.inr (.inl rfl)) hstep
      (leadsTo_lost (l := l') ⟨h'.here, h'.signum, h'.alive, h'.owed, h'.clear⟩ haway rfl hi)

theorem untold_of_drops (h : w.drops (.handle signum)) : (w.handle signum).onItsWay signum = false ∧
      ∃ i l, (w.handle signum).Untold signum i l ∧ w.toVisit signum i = false := by
  simp only [drops, Bool.and_eq_true, decide_eq_true_eq, Bool.not_eq_true'] at h
  obtain ⟨⟨hfull, haway⟩, hall⟩ := h
  refine ⟨?_, ?_⟩
  · rw [onItsWay, World.handle, if_neg (Nat.not_lt.mpr hfull)]
    exact haway
  · obtain ⟨i, -, hi⟩ := List.all_eq_false.mp hall
    cases hl : w.listeners[i]? with
    | none => simp [expects, hl] at hi
    | some l =>
      simp only [expects, hl, Bool.or_eq_true, Bool.not_eq_true', bne_iff_ne, not_or,
        Bool.not_eq_false, Bool.not_eq_true, not_not] at hi
      obtain ⟨⟨⟨halive, hsig⟩, hclear⟩, hpassed⟩ := hi
      refine ⟨i, l.owe signum, ⟨?_, hsig, halive, ?_, hclear⟩, hpassed⟩
      · rw [World.handle, List.getElem?_map, hl]
        rfl
      · simp [Listener.owe, halive, hsig]

theorem leadsTo_lost_of_drops {l : Label} (hl : w.drops l)
    (hs : w.step l = some v) : (signals capacity).LeadsTo dispatching Lost v := by
  cases l with
  | handle signum =>
    obtain ⟨-, rfl⟩ := of_guard hs
    obtain ⟨haway, i, l, hu, hpassed⟩ := untold_of_drops hl
    cases hd : w.dispatch with
    | none =>
      refine .now ⟨i, l, hu.here, hu.alive, hu.owed, hu.clear, hu.signum ▸ haway, ?_⟩
      simp [unlocked, World.handle, hd]
    | some d =>
      by_cases hsig : d.signum = signum
      · have hi : i ∉ d.rest := fun hmem =>
          absurd (hpassed.symm.trans (toVisit_iff.mpr ⟨d, hd, hsig, hmem⟩)) Bool.false_ne_true
        subst hsig
        exact leadsTo_lost_of_waking hu haway hd hi
      · refine .now ⟨i, l, hu.here, hu.alive, hu.owed, hu.clear, hu.signum ▸ haway, ?_⟩
        rw [hu.signum]
        simp [unlocked, World.handle, hd, hsig]
  | _ => cases hl

/-- **No signal is lost, unless one is dropped.**  As long as every signal that comes to a full
pipe finds a byte of its own on its way, or its listeners told or about to be visited, no listener
that is owed a signal is left with nothing coming.  After one that finds neither, the dispatch that
is going on, if there is one, only has to end. -/
theorem not_lost_unless_drops (capacity : ℕ) (w : World) :
    ((signals capacity).ReachableUnder (fun w l => w.drops l = false) w → ¬ w.Lost) ∧
    ∀ l v, w.drops l = true → w.step l = some v →
      (signals capacity).LeadsTo dispatching Lost v := by
  refine ⟨fun h => ?_, fun l v => leadsTo_lost_of_drops⟩
  rintro ⟨i, l, hi, halive, howed, hclear, haway, hfree⟩
  rcases (kept_of_reachableUnder h i l hi halive).2 howed with hp | hw | hv
  · cases hclear.symm.trans hp
  · cases haway.symm.trans hw
  · obtain ⟨d, hd, hsig, -⟩ := toVisit_iff.mp hv
    simp [unlocked, hd, hsig] at hfree

theorem not_lost_after_burst : (∃ w, (signals 2).ReachableUnder (fun w l => w.drops l = false) w ∧
      w.woken = [7] ∧ w.pipe = [2] ∧ ¬ w.Lost) ∧
    ∃ w v : World, w.step (.handle 2) = some v ∧ (signals 1).LeadsTo dispatching Lost v := by
  constructor
  · have hr : (signals 2).ReachableUnder (fun w l => w.drops l = false) _ :=
      ⟨[.signal 2 false, .poll 0 7, .register 0, .recheck 0, .handle 2, .handle 2, .handle 2,
        .read 1, .dispatch, .visit, .wake, .release, .poll 0 7], rfl, by decide⟩
    exact ⟨_, hr, rfl, rfl, (not_lost_unless_drops 2 _).1 hr⟩
  · have hw : ∃ w v : World, w.drops (.handle 2) ∧ w.step (.handle 2) = some v :=
      ⟨⟨1, [15], [], none, [15, 2], [.new 2, .new 15], []⟩, _, rfl, rfl⟩
    obtain ⟨w, v, hl, hs⟩ := hw
    exact ⟨w, v, hs, (not_lost_unless_drops 1 w).2 (.handle 2) v hl hs⟩

def flooded (capacity n : ℕ) (owed : Bool) : World :=
  ⟨capacity, List.replicate n 15, [], none, [15, 2],
    [⟨2, true, true, false, none, .idle, owed⟩, ⟨15, true, true, false, none, .idle, true⟩], []⟩

theorem run_flood : ∀ {m n : ℕ}, n + m ≤ capacity →
    (signals capacity).run (flooded capacity n false) (List.replicate m (.handle 15)) =
      some (flooded capacity (n + m) false)
  | 0, _, _ => rfl
  | m + 1, n, h => by
    have hroom : (List.replicate n 15).length < capacity := by
      rw [length_replicate]
      omega
    have hstep : (signals capacity).step (flooded capacity n false) (.handle 15) =
        some (flooded capacity (n + 1) false) := by
      simp only [signals, step, flooded, World.handle, if_pos hroom, replicate_succ']
      rfl
    rw [replicate_succ, System.run_cons, hstep, bind_some, run_flood (by omega)]
    congr 2
    omega

/-- Whatever the capacity of the pipe, a burst of one signal that fills it makes the next signal
of another kind lost: its listener is never told. -/
theorem exists_lost_signal : ∃ f : ℕ → World, ∀ n,
    (signals (n + 1)).run (signals (n + 1)).init ([.signal 2 false, .signal 15 false, .handle 15] ++
      List.replicate n (.handle 15) ++ [.handle 2]) = some (f n) ∧ (f n).Lost := by
  refine ⟨fun n => flooded (n + 1) (n + 1) true, fun n => ⟨?_, 0, _, rfl, rfl, rfl, rfl, ?_, rfl⟩⟩
  · have hfirst : (signals (n + 1)).run (signals (n + 1)).init
        [.signal 2 false, .signal 15 false, .handle 15] = some (flooded (n + 1) 1 false) := rfl
    have hfull : (signals (n + 1)).run (signals (n + 1)).init
        ([.signal 2 false, .signal 15 false, .handle 15] ++ List.replicate n (.handle 15)) =
          some (flooded (n + 1) (1 + n) false) :=
      (System.run_append hfirst).trans (run_flood (by omega))
    rw [System.run_append hfull, Nat.add_comm 1 n]
    have hstep : (signals (n + 1)).step (flooded (n + 1) (n + 1) false) (.handle 2) =
        some (flooded (n + 1) (n + 1) true) := by
      have hno : ¬ (List.replicate (n + 1) 15).length < n + 1 := by simp
      simp only [signals, step, flooded, World.handle, if_neg hno]
      rfl
    rw [System.run_cons, hstep]
    rfl
  · rw [← Bool.not_eq_true, onItsWay_iff]
    simp [flooded]

end World

end RustyTokio.Signal

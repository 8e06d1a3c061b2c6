import RustyTokio.Sync.Mpsc
import RustyTokio.Transition.Pool
import RustyTokio.Transition.Slots

/-!
# The slots of a bounded channel

A slot of the channel is free, holds a value, or is reserved for a permit, for what is
left of an iterator, or for a call of `send_timeout` that is about to fill it.  The sum
in `poll_reserve` wraps around; as long as it does not, no slot is lost or made up.
-/

namespace RustyTokio.Mpsc

open Transition Coop List Option Profile

variable {T : Type}

/-! ## What the calls do while the slots are in bounds -/

namespace Inner

theorem dropSender_eq (c : Inner T) : ∃ r, c.dropSender.1 =
    { c with sendersAlive := c.sendersAlive - 1, recvWaker := r } := by
  rw [dropSender]
  split
  · exact ⟨none, rfl⟩
  · exact ⟨c.recvWaker, rfl⟩

/-- The queue and the reservations are within the capacity. -/
structure Fits (c : Inner T) : Prop where
  bounded : c.queue.length + c.reserved ≤ c.capacity
  capacity : c.capacity < 2 ^ 64

namespace Fits

variable {c : Inner T}

theorem used_eq (h : c.Fits) : c.used = c.queue.length + c.reserved :=
  uadd_eq (Nat.lt_of_le_of_lt h.bounded h.capacity)

theorem pollSend_cases (h : c.Fits) (value : T) (me : ℕ) :
    (c.receiverAlive = false ∧ c.pollSend value me = (c, .ready false, none)) ∨
      (c.receiverAlive ∧ c.queue.length + c.reserved < c.capacity ∧
        c.pollSend value me = (c.push value, .ready true, c.recvWaker)) ∨
      (c.receiverAlive ∧ c.queue.length + c.reserved = c.capacity ∧ c.pollSend value me =
          ({ c with sendWaiters := c.sendWaiters ++ [me] }, .pending, none)) := by
  have hb := h.bounded
  rw [pollSend, h.used_eq]
  cases ha : c.receiverAlive with
  | false => exact .inl ⟨rfl, rfl⟩
  | true =>
    rcases Nat.lt_or_ge (c.queue.length + c.reserved) c.capacity with hlt | hge
    · exact .inr (.inl ⟨rfl, hlt, by simp [hlt]⟩)
    · exact .inr (.inr ⟨rfl, by omega, by simp [Nat.not_lt.mpr hge]⟩)

theorem trySend_cases (h : c.Fits) (value : T) : (∃ e, c.trySend value = (c, .error e, none)) ∨
      (c.receiverAlive ∧ c.queue.length + c.reserved < c.capacity ∧
        c.trySend value = (c.push value, .ok (), c.recvWaker)) := by
  rw [trySend, h.used_eq]
  cases ha : c.receiverAlive with
  | false => exact .inl ⟨_, rfl⟩
  | true =>
    rcases Nat.lt_or_ge (c.queue.length + c.reserved) c.capacity with hlt | hge
    · exact .inr ⟨rfl, hlt, by simp [hlt]⟩
    · exact .inl ⟨.full value, by simp [Nat.not_lt.mpr hge]⟩

theorem tryReserve_cases (h : c.Fits) : (∃ e, c.tryReserve = (c, .error e)) ∨
      (c.queue.length + c.reserved < c.capacity ∧
        c.tryReserve = ({ c with reserved := c.reserved + 1 }, .ok ())) := by
  have hcap := h.capacity
  rw [tryReserve, h.used_eq]
  cases ha : c.receiverAlive with
  | false => exact .inl ⟨_, rfl⟩
  | true =>
    rcases Nat.lt_or_ge (c.queue.length + c.reserved) c.capacity with hlt | hge
    · refine .inr ⟨hlt, ?_⟩
      have hsum : uadd c.reserved 1 = c.reserved + 1 := uadd_eq (by omega)
      simp [hlt, hsum]
    · exact .inl ⟨.full (), by simp [Nat.not_lt.mpr hge]⟩

theorem pollReserve_cases (h : c.Fits) {n : ℕ} (me : ℕ)
    (hn : c.queue.length + c.reserved + n < 2 ^ 64) :
    (c.receiverAlive = false ∧ c.pollReserve n me = (c, .ready false)) ∨
      (c.receiverAlive ∧ c.queue.length + c.reserved + n ≤ c.capacity ∧
        c.pollReserve n me = ({ c with reserved := c.reserved + n }, .ready true)) ∨
      (c.receiverAlive ∧ c.capacity < c.queue.length + c.reserved + n ∧
        c.pollReserve n me = ({ c with sendWaiters := c.sendWaiters ++ [me] }, .pending)) := by
  have hsum : uadd c.reserved n = c.reserved + n := uadd_eq (by omega)
  rw [pollReserve, h.used_eq, uadd_eq hn, hsum]
  cases ha : c.receiverAlive with
  | false => exact .inl ⟨rfl, rfl⟩
  | true =>
    rcases Nat.lt_or_ge c.capacity (c.queue.length + c.reserved + n) with hlt | hge
    · exact .inr (.inr ⟨rfl, hlt, by simp [Nat.not_le.mpr hlt]⟩)
    · exact .inr (.inl ⟨rfl, hge, by simp [hge]⟩)

theorem pollSend_ready (h : c.Fits) (value : T) (me : ℕ) (ha : c.receiverAlive)
    (hlt : c.queue.length + c.reserved < c.capacity) :
    c.pollSend value me = (c.push value, .ready true, c.recvWaker) := by
  rcases h.pollSend_cases value me with ⟨hd, -⟩ | ⟨-, -, hp⟩ | ⟨-, heq, -⟩
  · cases hd.symm.trans ha
  · exact hp
  · omega

theorem pollReserve_ready (h : c.Fits) (me : ℕ) (ha : c.receiverAlive)
    (hlt : c.queue.length + c.reserved < c.capacity) :
    c.pollReserve 1 me = ({ c with reserved := c.reserved + 1 }, .ready true) := by
  have hcap := h.capacity
  have hn : c.queue.length + c.reserved + 1 < 2 ^ 64 := by omega
  rcases h.pollReserve_cases me hn with ⟨hd, -⟩ | ⟨-, -, hp⟩ | ⟨-, hgt, -⟩
  · cases hd.symm.trans ha
  · exact hp
  · omega

end Fits

theorem releaseReserved_eq (c : Inner T) {n : ℕ} (hn : n ≤ c.reserved) : c.releaseReserved n =
      ({ c with reserved := c.reserved - n, sendWaiters := c.sendWaiters.drop n },
        c.sendWaiters.take n) := by
  rw [releaseReserved, usub_eq hn]

theorem fillReserved_eq (c : Inner T) (value : T) (hn : 1 ≤ c.reserved) : c.fillReserved value =
      ({ c with reserved := c.reserved - 1 }.push value, c.recvWaker) := by
  rw [fillReserved, usub_eq hn]

end Inner

/-! ## The accounts -/

namespace World

/-- The slots that permits and iterators stand for. -/
def held (w : World T) : ℕ :=
  w.permits + w.ownedPermits + w.timeouts.length + w.iterators.sum

theorem held_hold (w : World T) {k : Sending T} (hk : ∀ value, k ≠ .send value) :
    (w.hold k).held = w.held + k.slots := by
  cases k with
  | send value => exact absurd rfl (hk value)
  | _ =>
    simp only [hold, held, Sending.slots, sum_append, sum_singleton, length_append,
      length_singleton]
    omega

/-- The reserved slots are those that are held, and all is in bounds. -/
structure Accounted (w : World T) : Prop where
  fits : w.inner.Fits
  reserved : w.inner.reserved = w.held

def room (w : World T) : Room (Sending T) :=
  ⟨w.inner.capacity - (w.inner.queue.length + w.inner.reserved), w.sends, w.inner.sendWaiters⟩

def frees (w : World T) : Label T → ℕ
  | .pollRecv _ budget =>
    match pollProceed budget, w.inner.queue with
    | some _, _ :: _ => 1
    | _, _ => 0
  | .permitDrop => 1
  | .ownedRelease => 1
  | .ownedDrop => 1
  | .iteratorDrop k => w.iterators[k]?.getD 0
  | _ => 0

def overflows (w : World T) : Label T → Bool
  | .poll i => w.sends[i]?.any fun f =>
    match f.kind with
    | .send _ => false
    | k => decide (2 ^ 64 ≤ w.inner.queue.length + w.inner.reserved + k.slots)
  | .pollElapsed _ => decide (2 ^ 64 ≤ w.inner.queue.length + w.inner.reserved + 1)
  | _ => false

def quiet (w : World T) (l : Label T) : Bool :=
  w.frees l == 0 && match l with
    | .drop _ => false
    | _ => true

inductive Effect (w : World T) (l : Label T) (v : World T) : Prop where
  | claim (m : ℕ) (hl : w.quiet l)
      (hr : v.room = { w.room with free := w.room.free - m })
  | create (k : Sending T) (hl : w.quiet l)
      (hr : v.room = { w.room with futures := w.room.futures ++ [⟨k, .fresh⟩] })
  | finish (i : ℕ) (f : Future (Sending T)) (hl : w.quiet l)
      (hi : w.room.futures[i]? = some f)
      (hr : v.room = { w.room.setPhase i .finished with free := w.room.free - f.kind.slots })
  | park (i : ℕ) (f : Future (Sending T)) (hl : w.quiet l)
      (hi : w.room.futures[i]? = some f) (hfull : w.room.free < f.kind.slots)
      (hr : v.room = { w.room.setPhase i (.parked false) with waiters := w.room.waiters ++ [i] })
  | expire (i : ℕ) (hl : w.quiet l) (hfull : w.room.free = 0)
      (hr : v.room = { w.room.setPhase i .finished with waiters := w.room.waiters ++ [i] })
  | drop (i : ℕ) (f : Future (Sending T)) (hl : l = .drop i) (hi : w.room.futures[i]? = some f)
      (hr : v.room = w.room.setPhase i .dropped)
  | release (hl : ∀ i, l ≠ .drop i) (hr : v.room = w.room.release (w.frees l))

structure Lawful (w : World T) (l : Label T) (v : World T) : Prop where
  accounted : v.Accounted
  effect : v.inner.receiverAlive = true → w.inner.receiverAlive = true ∧ w.Effect l v

section Lawful

variable {w v : World T} {l : Label T} {n i : ℕ} {f : Future (Sending T)} {value : T} {c : Inner T}

theorem lawful_of_claim {m : ℕ} (h : w.Accounted) (hl : w.quiet l)
    (hroom : w.inner.queue.length + w.inner.reserved + m ≤ w.inner.capacity)
    (hcap : v.inner.capacity = w.inner.capacity) (hused : v.inner.queue.length + v.inner.reserved =
      w.inner.queue.length + w.inner.reserved + m)
    (hres : v.inner.reserved = v.held) (halive : v.inner.receiverAlive = w.inner.receiverAlive)
    (hsends : v.sends = w.sends) (hwait : v.inner.sendWaiters = w.inner.sendWaiters) :
    Lawful w l v := by
  refine ⟨⟨⟨by omega, hcap ▸ h.fits.capacity⟩, hres⟩, fun ha => ⟨halive ▸ ha, .claim m hl ?_⟩⟩
  simp only [room, hcap, hused, hsends, hwait, Nat.sub_add_eq]

theorem lawful_of_same {k : ℕ} {r : Option ℕ} (h : w.Accounted) (hl : w.quiet l)
    (hinner : v.inner = { w.inner with sendersAlive := k, recvWaker := r })
    (hsends : v.sends = w.sends) (hheld : v.held = w.held) : Lawful w l v := by
  have hb : w.inner.queue.length + w.inner.reserved + 0 ≤ w.inner.capacity := h.fits.bounded
  refine lawful_of_claim h hl hb ?_ ?_ ?_ ?_ hsends ?_
  · rw [hinner]
  · rw [hinner]
    rfl
  · rw [hinner, hheld]
    exact h.reserved
  · rw [hinner]
  · rw [hinner]

theorem lawful_of_release (h : w.Accounted) (hl : ∀ i, l ≠ .drop i)
    (hn : w.frees l = n) (hcap : v.inner.capacity = w.inner.capacity)
    (hused : v.inner.queue.length + v.inner.reserved + n = w.inner.queue.length + w.inner.reserved)
    (hres : v.inner.reserved = v.held) (halive : v.inner.receiverAlive = w.inner.receiverAlive)
    (hsends : v.sends = Table.wakeAll w.sends (w.inner.sendWaiters.take n))
    (hwait : v.inner.sendWaiters = w.inner.sendWaiters.drop n) : Lawful w l v := by
  have hb := h.fits.bounded
  refine ⟨⟨⟨by omega, hcap ▸ h.fits.capacity⟩, hres⟩, fun ha => ⟨halive ▸ ha, .release hl ?_⟩⟩
  have hfree : v.inner.capacity - (v.inner.queue.length + v.inner.reserved) =
      w.inner.capacity - (w.inner.queue.length + w.inner.reserved) + n := by omega
  simp only [room, Room.release, hn, hfree, hsends, hwait]

theorem Effect.congr {v' : World T} (h : w.Effect l v) (hr : v'.room = v.room) : w.Effect l v' := by
  cases h with
  | claim m hl h => exact .claim m hl (hr.trans h)
  | create k hl h => exact .create k hl (hr.trans h)
  | finish i f hl hi h => exact .finish i f hl hi (hr.trans h)
  | park i f hl hi hfull h => exact .park i f hl hi hfull (hr.trans h)
  | expire i hl hfull h => exact .expire i hl hfull (hr.trans h)
  | drop i f hl hi h => exact .drop i f hl hi (hr.trans h)
  | release hl h => exact .release hl (hr.trans h)

theorem Lawful.loseSender (h : Lawful w l v) : Lawful w l v.loseSender := by
  obtain ⟨r, hr⟩ := v.inner.dropSender_eq
  have hinner : v.loseSender.inner =
      { v.inner with sendersAlive := v.inner.sendersAlive - 1, recvWaker := r } := hr
  have hroom : v.loseSender.room = v.room := by
    simp only [room, hinner]
    rfl
  obtain ⟨⟨⟨hb, hc⟩, hres⟩, he⟩ := h
  refine ⟨⟨⟨?_, ?_⟩, ?_⟩, fun ha => ?_⟩
  · rw [hinner]
    exact hb
  · rw [hinner]
    exact hc
  · rw [hinner]
    exact hres
  · rw [hinner] at ha
    exact ⟨(he ha).1, (he ha).2.congr hroom⟩

section

variable (h : w.Accounted)

include h

theorem lawful_of_reserve (hl : w.quiet l) (hi : w.sends[i]? = some f) (hslots : f.kind.slots = n)
    (hn : w.inner.queue.length + w.inner.reserved + n < 2 ^ 64)
    (hinner : v.inner = (w.inner.pollReserve n i).1) (hsends : v.sends = (w.reserve i n).sends)
    (hheld : v.held = w.held + if (w.inner.pollReserve n i).2 = .ready true then n else 0) :
    Lawful w l v := by
  have hb := h.fits.bounded
  have hcap := h.fits.capacity
  have hres := h.reserved
  rcases h.fits.pollReserve_cases i hn with ⟨ha, hp⟩ | ⟨ha, hle, hp⟩ | ⟨ha, hlt, hp⟩
  · simp only [hp, reserve] at hinner hsends hheld
    refine ⟨⟨hinner ▸ h.fits, ?_⟩, fun hv => absurd (hinner ▸ hv) (by simp [ha])⟩
    rw [hinner, hres, hheld]
    simp
  · simp only [hp, reserve] at hinner hsends hheld
    refine ⟨⟨⟨?_, ?_⟩, ?_⟩, fun _ => ⟨ha, .finish i f hl hi ?_⟩⟩
    · simp only [hinner]
      omega
    · simp only [hinner]
      omega
    · simp only [hinner, hheld, hres, if_true]
    · simp only [room, Room.setPhase, hinner, hsends, hslots, phaseOf, Room.mk.injEq, and_true]
      omega
  · simp only [hp, reserve] at hinner hsends hheld
    refine ⟨⟨⟨?_, ?_⟩, ?_⟩, fun _ => ⟨ha, .park i f hl hi ?_ ?_⟩⟩
    · simp only [hinner]
      exact hb
    · simp only [hinner]
      exact hcap
    · simp only [hinner, hheld, hres, reduceCtorEq, if_false, add_zero]
    · simp only [room, hslots]
      omega
    · simp only [room, Room.setPhase, hinner, hsends, phaseOf]

theorem lawful_of_send (hl : w.quiet l) (hi : w.sends[i]? = some f) (hk : f.kind = .send value) :
    Lawful w l (w.pollSending i (.send value)) := by
  have hb := h.fits.bounded
  have hcap := h.fits.capacity
  have hres := h.reserved
  have hslots : f.kind.slots = 1 := by
    rw [hk]
    rfl
  rcases h.fits.pollSend_cases value i with ⟨ha, hp⟩ | ⟨ha, hlt, hp⟩ | ⟨ha, heq, hp⟩
  · simp only [pollSending, hp]
    exact ⟨⟨h.fits, hres⟩, fun hv => absurd (hv.symm.trans ha) (by simp)⟩
  · simp only [pollSending, hp]
    refine ⟨⟨⟨?_, hcap⟩, hres⟩, fun _ => ⟨ha, .finish i f hl hi ?_⟩⟩
    · simp only [Inner.push, length_append, length_singleton]
      omega
    · simp only [room, Room.setPhase, Inner.push, phaseOf, hslots, length_append,
        length_singleton, Room.mk.injEq, and_true]
      omega
  · simp only [pollSending, hp]
    refine ⟨⟨⟨hb, hcap⟩, hres⟩, fun _ => ⟨ha, .park i f hl hi ?_ rfl⟩⟩
    simp only [room, hslots]
    omega

theorem lawful_pollReserving (hl : w.quiet l) (hi : w.sends[i]? = some f)
    (hk : ∀ value, f.kind ≠ .send value)
    (hn : w.inner.queue.length + w.inner.reserved + f.kind.slots < 2 ^ 64) :
    Lawful w l (w.pollReserving i f.kind) := by
  have hreserve : (w.inner.pollReserve f.kind.slots i).2 ≠ .ready true →
      Lawful w l (w.reserve i f.kind.slots) := fun hp =>
    lawful_of_reserve h hl hi rfl hn rfl rfl (by rw [if_neg hp]; rfl)
  rw [pollReserving]
  split <;> rename_i hp
  · refine lawful_of_reserve h hl hi rfl hn (hold_inner _ _) (hold_sends _ _) ?_
    rw [if_pos hp, held_hold _ hk]
    rfl
  · have hfail := hreserve (by simp [hp])
    split
    · exact hfail.loseSender
    · exact hfail
  · exact hreserve (by simp [hp])

theorem lawful_pollSending (hi : w.sends[i]? = some f) (hn : w.overflows (.poll i) = false) :
    Lawful w (.poll i) (w.pollSending i f.kind) := by
  simp only [overflows, hi, any_some] at hn
  cases hk : f.kind with
  | send value => exact lawful_of_send h rfl hi hk
  | _ =>
    rw [← hk, pollSending_eq _ (by simp [hk])]
    refine lawful_pollReserving h rfl hi (by simp [hk]) ?_
    rw [hk] at hn ⊢
    simpa using hn

theorem lawful_pollElapsed {p : Phase}
    (hi : w.sends[i]? = some ⟨.sendTimeout value, p⟩) (hn : w.overflows (.pollElapsed i) = false) :
    Lawful w (.pollElapsed i) (w.pollElapsed i value) := by
  have hsum : w.inner.queue.length + w.inner.reserved + 1 < 2 ^ 64 :=
    Nat.lt_of_not_le (of_decide_eq_false hn)
  rw [pollElapsed]
  split <;> rename_i hp
  · rcases h.fits.pollReserve_cases i hsum with ⟨-, hp'⟩ | ⟨-, -, hp'⟩ | ⟨ha, hlt, hp'⟩
    · simp [hp'] at hp
    · simp [hp'] at hp
    · rw [hp']
      refine ⟨⟨⟨h.fits.bounded, h.fits.capacity⟩, h.reserved⟩, fun _ => ⟨ha, .expire i rfl ?_ rfl⟩⟩
      simp only [room]
      omega
  · exact lawful_pollReserving h rfl hi nofun hsum

theorem lawful_dropSending
    (hi : w.sends[i]? = some f) : Lawful w (.drop i) (w.dropSending i f.kind) := by
  have hdrop : Lawful w (.drop i) { w with sends := Table.setPhase w.sends i .dropped } :=
    ⟨⟨h.fits, h.reserved⟩, fun ha => ⟨ha, .drop i f rfl hi rfl⟩⟩
  unfold dropSending
  split
  · exact hdrop.loseSender
  · exact hdrop

theorem lawful_pollRecv (i : ℕ) (budget : Option ℕ) :
    Lawful w (.pollRecv i budget) (w.pollRecv i budget) := by
  rw [World.pollRecv]
  cases hp : pollProceed budget with
  | none =>
    have hl : w.quiet (.pollRecv i budget) := by simp [quiet, frees, hp]
    exact lawful_of_same h hl rfl rfl rfl
  | some left =>
    cases hq : w.inner.queue with
    | cons value rest =>
      have hlen : w.inner.queue.length = rest.length + 1 := by simp [hq]
      have hrecv : w.inner.pollRecv i =
          ({ w.inner with queue := rest, sendWaiters := w.inner.sendWaiters.drop 1 },
            .ready (some value), w.inner.sendWaiters.take 1) := by
        rw [Inner.pollRecv, hq]
      have hfrees : w.frees (.pollRecv i budget) = 1 := by simp only [frees, hp, hq]
      simp only [hrecv]
      refine lawful_of_release h (by simp) hfrees rfl ?_ h.reserved rfl rfl rfl
      simp only [hlen]
      omega
    | nil =>
      have hrecv : ∃ r b, w.inner.pollRecv i = ({ w.inner with recvWaker := r }, b, []) := by
        rw [Inner.pollRecv, hq]
        dsimp only
        split
        · exact ⟨w.inner.recvWaker, _, rfl⟩
        · exact ⟨some i, _, by rw [hq]⟩
      obtain ⟨r, b, hrecv⟩ := hrecv
      simp only [hrecv]
      have hl : w.quiet (.pollRecv i budget) := by simp [quiet, frees, hp, hq]
      exact lawful_of_same h hl rfl rfl rfl

theorem lawful_of_releaseReserved (hl : ∀ i, l ≠ .drop i)
    (hf : w.frees l = n) (hinner : v.inner = (w.release n).inner)
    (hsends : v.sends = (w.release n).sends) (hheld : v.held + n = w.held) : Lawful w l v := by
  have hres := h.reserved
  have hn : n ≤ w.inner.reserved := by omega
  simp only [release, Inner.releaseReserved_eq _ hn] at hinner hsends
  refine lawful_of_release h hl hf ?_ ?_ ?_ ?_ hsends ?_
  all_goals simp only [hinner]
  all_goals omega

theorem lawful_of_fill (hl : w.quiet l) (hinner : v.inner = (w.fill value).inner)
    (hsends : v.sends = w.sends) (hheld : v.held + 1 = w.held) : Lawful w l v := by
  have hres := h.reserved
  have hn : 1 ≤ w.inner.reserved := by omega
  simp only [fill, Inner.fillReserved_eq _ value hn, Inner.push] at hinner
  have hb : w.inner.queue.length + w.inner.reserved + 0 ≤ w.inner.capacity := h.fits.bounded
  refine lawful_of_claim h hl hb ?_ ?_ ?_ ?_ hsends ?_
  all_goals simp only [hinner, length_append, length_singleton]
  all_goals omega

theorem lawful_trySend : Lawful w (.trySend value) { w with
      inner := (w.inner.trySend value).1
      recvs := wakeRecv w.recvs (w.inner.trySend value).2.2 } := by
  rcases h.fits.trySend_cases value with ⟨e, hp⟩ | ⟨-, hlt, hp⟩
  · simp only [hp]
    exact lawful_of_same h rfl rfl rfl rfl
  · have hle : w.inner.queue.length + w.inner.reserved + 1 ≤ w.inner.capacity := hlt
    simp only [hp]
    refine lawful_of_claim h rfl hle rfl ?_ h.reserved rfl rfl rfl
    simp only [Inner.push, length_append, length_singleton]
    omega

end

theorem lawful_of_tryReserve (h : w.Accounted) (hl : w.quiet l)
    (hc : w.inner.tryReserve = (c, .ok ())) (hinner : v.inner = c)
    (hsends : v.sends = w.sends) (hheld : v.held = w.held + 1) : Lawful w l v := by
  have hres := h.reserved
  rcases h.fits.tryReserve_cases with ⟨e, hp⟩ | ⟨hlt, hp⟩
  · cases hc.symm.trans hp
  · cases hc.symm.trans hp
    have hle : w.inner.queue.length + w.inner.reserved + 1 ≤ w.inner.capacity := hlt
    refine lawful_of_claim h hl hle ?_ ?_ ?_ ?_ hsends ?_
    all_goals simp only [hinner]
    all_goals omega

theorem lawful_of_tryReserveFails {e : TrySendError Unit} (h : w.Accounted)
    (hl : w.quiet l) (hc : w.inner.tryReserve = (c, .error e)) :
    Lawful w l { w with inner := c } := by
  rcases h.fits.tryReserve_cases with ⟨e, hp⟩ | ⟨hlt, hp⟩
  · cases hc.symm.trans hp
    exact lawful_of_same h hl rfl rfl rfl
  · cases hc.symm.trans hp

theorem lawful_of_step (h : w.Accounted) (hn : w.overflows l = false)
    (hs : w.step l = some v) : Lawful w l v := by
  have hb : w.inner.queue.length + w.inner.reserved + 0 ≤ w.inner.capacity := h.fits.bounded
  have hres := h.reserved
  cases steps_of_step hs with
  | start hk hh | startOwned hh => exact ⟨⟨h.fits, hres⟩, fun ha => ⟨ha, .create _ rfl rfl⟩⟩
  | poll hi hp => exact lawful_pollSending h hi hn
  | pollElapsed hi hp => exact lawful_pollElapsed h hi hn
  | drop hi hp => exact lawful_dropSending h hi
  | timeoutSend hk =>
    refine lawful_of_fill h rfl rfl rfl ?_
    have hlen := Pool.length_eraseIdx_add_one hk
    simp only [held, fill]
    omega
  | trySend hh => exact lawful_trySend h
  | tryReserve hh hc | tryReserveOwned hh hc =>
    refine lawful_of_tryReserve h rfl hc rfl rfl ?_
    simp only [held]
    omega
  | tryReserveFails hc | tryReserveOwnedFails hc => exact lawful_of_tryReserveFails h rfl hc
  | permitSend h0 | ownedSend h0 =>
    refine lawful_of_fill h rfl rfl rfl ?_
    simp only [held, fill]
    omega
  | permitDrop h0 =>
    have hone : w.frees .permitDrop = 1 := rfl
    refine lawful_of_releaseReserved h (by simp) hone rfl rfl ?_
    simp only [held, release]
    omega
  | ownedRelease h0 =>
    have hone : w.frees .ownedRelease = 1 := rfl
    refine lawful_of_releaseReserved h (by simp) hone rfl rfl ?_
    simp only [held, release]
    omega
  | ownedDrop h0 =>
    have hone : w.frees .ownedDrop = 1 := rfl
    refine Lawful.loseSender (lawful_of_releaseReserved h (by simp) hone rfl rfl ?_)
    simp only [held, release]
    omega
  | @iteratorNext k n hk =>
    refine lawful_of_claim h rfl hb rfl rfl ?_ rfl rfl rfl
    have hsum := Pool.sum_set_add n hk
    simp only [held] at hres ⊢
    omega
  | iteratorEnd | startRecv hr | dropRecv hi hp | cloneSender hh | upgrade h0 | upgradeFails h0 =>
    exact lawful_of_same h rfl rfl rfl rfl
  | iteratorDrop hk =>
    refine lawful_of_releaseReserved h (by simp) (by simp [frees, hk]) rfl rfl ?_
    have hsum := Pool.sum_eraseIdx_add hk
    simp only [held, release]
    omega
  | pollRecv hi hp => exact lawful_pollRecv h _ _
  | dropSender hh =>
    have hsame : Lawful w .dropSender { w with handles := w.handles - 1 } :=
      lawful_of_same h rfl rfl rfl rfl
    exact hsame.loseSender
  | dropReceiver =>
    refine ⟨⟨⟨h.fits.bounded, h.fits.capacity⟩, hres⟩, fun ha => absurd ha ?_⟩
    simp [Inner.dropReceiver]

end Lawful

variable {capacity : UInt64} {c : Inner T}

theorem accounted_init (hc : channel T capacity = some c) : (mpsc c).init.Accounted := by
  obtain ⟨-, rfl⟩ := of_guard hc
  exact ⟨⟨Nat.zero_le _, capacity.toNat_lt⟩, rfl⟩

theorem accounted_of_reachableUnder (hc : channel T capacity = some c) {w : World T}
    (hw : (mpsc c).ReachableUnder (fun w l => w.overflows l = false) w) : w.Accounted :=
  System.inv_of_reachableUnder (I := Accounted) (accounted_init hc)
    (fun _ _ _ h hn hs => (lawful_of_step h hn hs).accounted) hw

end World

/-! ## The sums of `poll_reserve` -/

namespace Inner

/-- `poll_reserve` in either profile; `none` is a panic with the lock held. -/
def pollReserveIn (p : Profile) (c : Inner T) (n me : ℕ) : Option (Inner T × Poll Bool) :=
  if !c.receiverAlive then some (c, .ready false)
  else
    (p.add c.queue.length c.reserved).bind fun used =>
      (p.add used n).bind fun wanted =>
        if wanted ≤ c.capacity then
          (p.add c.reserved n).map fun reserved => ({ c with reserved := reserved }, .ready true)
        else some ({ c with sendWaiters := c.sendWaiters ++ [me] }, .pending)

def reserveOverflows (c : Inner T) (n : ℕ) : Bool :=
  c.receiverAlive && decide (2 ^ 64 ≤ c.queue.length + c.reserved + n)

variable {c : Inner T} {n : ℕ}

theorem pollReserveIn_release (c : Inner T) (n me : ℕ) :
    c.pollReserveIn .release n me = some (c.pollReserve n me) := by
  simp only [pollReserveIn, pollReserve, used, release_add, bind_some, map_some]
  cases c.receiverAlive with
  | false => rfl
  | true =>
    by_cases hle : uadd (uadd c.queue.length c.reserved) n ≤ c.capacity <;> simp [hle]

theorem pollReserveIn_debug (me : ℕ) (h : c.reserveOverflows n) :
    c.pollReserveIn .debug n me = none := by
  obtain ⟨ha, hsum⟩ := (Bool.and_eq_true _ _).mp h
  have hsum := of_decide_eq_true hsum
  rw [pollReserveIn, if_neg (by simp [ha])]
  rcases Nat.lt_or_ge (c.queue.length + c.reserved) (2 ^ 64) with hlt | hge
  · rw [add_eq _ hlt, bind_some, debug_add hsum, Option.bind_none]
  · rw [debug_add hge, Option.bind_none]

/-- Without an overflow both profiles answer alike, and grant what there is room for. -/
theorem pollReserveIn_exact (p : Profile) (me : ℕ) (h : c.reserveOverflows n = false) :
    c.pollReserveIn p n me = some (c.pollReserve n me) ∧
      ((c.pollReserve n me).2 = .ready true → c.queue.length + c.reserved + n ≤ c.capacity) := by
  cases ha : c.receiverAlive with
  | false => simp [pollReserveIn, pollReserve, ha]
  | true =>
    have hsum : c.queue.length + c.reserved + n < 2 ^ 64 := by
      simpa [reserveOverflows, ha] using h
    have hused : c.queue.length + c.reserved < 2 ^ 64 := by omega
    have hreserved : c.reserved + n < 2 ^ 64 := by omega
    simp only [pollReserveIn, pollReserve, used, p.add_eq hused, p.add_eq hsum,
      p.add_eq hreserved, uadd_eq hused, uadd_eq hsum, uadd_eq hreserved, bind_some, map_some, ha]
    by_cases hle : c.queue.length + c.reserved + n ≤ c.capacity <;> simp [hle]

/-- **A reservation is exact unless its sum overflows.**  Without an overflow no profile panics, and
`Ready(true)` means that there is room.  With one there is none: the debug profile panics with the
lock held, and the release profile grants the slots if the wrapped sum is within the capacity. -/
theorem reserve_exact_unless_overflows (c : Inner T) (hcap : c.capacity < 2 ^ 64) (n : UInt64)
    (me : ℕ) : (c.reserveOverflows n.toNat = false → ∀ p, ∃ r,
        c.pollReserveIn p n.toNat me = some r ∧
          (r.2 = .ready true → c.queue.length + c.reserved + n.toNat ≤ c.capacity)) ∧
      (c.reserveOverflows n.toNat = true → c.capacity < c.queue.length + c.reserved + n.toNat ∧
        c.pollReserveIn .debug n.toNat me = none ∧ ∃ r,
          c.pollReserveIn .release n.toNat me = some r ∧
            (r.2 = .ready true ↔ uadd (uadd c.queue.length c.reserved) n.toNat ≤ c.capacity)) := by
  refine ⟨fun h p => ⟨_, pollReserveIn_exact p me h⟩, fun h => ?_⟩
  obtain ⟨ha, hsum⟩ := (Bool.and_eq_true _ _).mp h
  refine ⟨Nat.lt_of_lt_of_le hcap (of_decide_eq_true hsum), pollReserveIn_debug me h, _,
    pollReserveIn_release c _ me, ?_⟩
  rw [pollReserve, if_neg (by simp [ha]), used]
  split <;> simp_all

theorem reserve_exact_when_wrapped : ∃ c : Inner ℕ, c.capacity = 2 ∧ c.reserved = 1 ∧
    (c.pollReserveIn .debug 1 0).isSome ∧ c.pollReserveIn .debug (2 ^ 64 - 1) 0 = none := by
  obtain ⟨hexact, -⟩ := reserve_exact_unless_overflows
    (⟨[], 2, 1, [], none, 1, true⟩ : Inner ℕ) (by decide) 1 0
  obtain ⟨-, hbad⟩ := reserve_exact_unless_overflows
    (⟨[], 2, 1, [], none, 1, true⟩ : Inner ℕ) (by decide) (-1) 0
  obtain ⟨r, hr, -⟩ := hexact (by decide) .debug
  exact ⟨_, rfl, rfl, Option.isSome_iff_exists.mpr ⟨r, hr⟩, (hbad (by decide)).2.1⟩

/-- One slot of two is reserved, and all `usize::MAX` more are granted. -/
theorem exists_wrapped_reservation : ∃ (c : Inner ℕ) (w v : World ℕ), channel ℕ 2 = some c ∧
    (mpsc c).Reachable w ∧ w.inner.reserved = 1 ∧ w.inner.capacity = 2 ∧
    w.step (.poll 0) = some v ∧ v.iterators = [2 ^ 64 - 1] ∧
    w.inner.pollReserveIn .debug (2 ^ 64 - 1) 0 = none :=
  ⟨_, ⟨⟨[], 2, 1, [], none, 1, true⟩, [⟨.reserveMany 18446744073709551615, .fresh⟩], [], 1, 1, 0,
      [], [], []⟩,
    ⟨⟨[], 2, 0, [], none, 1, true⟩, [⟨.reserveMany 18446744073709551615, .finished⟩], [], 1, 1, 0,
      [18446744073709551615], [], []⟩, rfl,
    ⟨[.tryReserve, .start (.reserveMany 18446744073709551615)], rfl⟩, rfl, rfl, rfl, rfl, by decide⟩

end Inner

end RustyTokio.Mpsc

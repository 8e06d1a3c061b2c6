import RustyTokio.Sync.MpscUnbounded

/-!
# The end of a channel

`recv` returns `None` when the queue is empty and no `Sender` is left.  That is final: the count of
the senders can only grow from a `Sender` or from a `WeakSender` that still finds one, and without a
`Sender` nothing is sent.
-/

namespace RustyTokio.Mpsc

open Transition Coop List UnboundedWorld

variable {T : Type}

/-! ## The argument -/

structure Channel (σ ε T : Type) where
  system : System σ ε
  pipe : σ → Pipe T
  senders : σ → ℕ
  reserved : σ → ℕ
  recvReply : σ → ε → Option (Poll (Option T))
  upgradeReply : σ → ε → Option Bool

/-- **The end of a channel is final, and nothing is lost in it.** -/
structure ClosureFinal {σ ε : Type} (C : Channel σ ε T) : Prop where
  counted : ∀ s, C.system.Reachable s → (C.pipe s).senders = C.senders s
  /-- `recv` returns `None` only when no `Sender` is left, no slot is reserved and everything
  that was committed has been received. -/
  lossless : ∀ s l, C.system.Reachable s → C.recvReply s l = some (.ready none) →
    C.senders s = 0 ∧ C.reserved s = 0 ∧ (C.pipe s).taken = (C.pipe s).sent
  /-- After that no `upgrade` hands a `Sender` back and every `recv` returns `None`. -/
  final : ∀ s l t ls u, C.system.Reachable s → C.recvReply s l = some (.ready none) →
    C.system.step s l = some t → C.system.run t ls = some u →
    ∀ k, C.upgradeReply u k ≠ some true ∧ ∀ r, C.recvReply u k = some r → r = .ready none
  /-- A receiver that is parked when no `Sender` is left has been woken. -/
  woken : ∀ s, C.system.Reachable s → C.senders s = 0 →
    ∀ f ∈ (C.pipe s).takers, f.phase ≠ .parked false

section Argument

variable {σ ε : Type} {C : Channel σ ε T}

/-- What a channel has to keep for its closure to be final. -/
structure Invariant (C : Channel σ ε T) (I : σ → Prop) : Prop where
  init : I C.system.init
  step : ∀ s l t, I s → C.system.step s l = some t → I t
  moves : ∀ s l t, I s → C.system.step s l = some t → (C.pipe s).Moves (C.pipe t)
  sound : ∀ s, I s → (C.pipe s).Sound
  counted : ∀ s, I s → (C.pipe s).senders = C.senders s
  unreserved : ∀ s, I s → C.senders s = 0 → C.reserved s = 0
  answered : ∀ s l r, C.recvReply s l = some r → r = (C.pipe s).answer
  upgraded : ∀ s l, C.upgradeReply s l = some true → (C.pipe s).senders ≠ 0

theorem Invariant.closureFinal {I : σ → Prop} (h : Invariant C I) : ClosureFinal C := by
  have hinv : ∀ s, C.system.Reachable s → I s := fun s hs =>
    System.inv_of_reachable h.init h.step hs
  have hclosed : ∀ s l, C.recvReply s l = some (.ready none) → (C.pipe s).Closed :=
    fun s l hr => Pipe.answer_eq_none_iff.mp (h.answered s l _ hr).symm
  refine ⟨fun s hs => h.counted s (hinv s hs), fun s l hs hr => ?_, ?_, fun s hs h0 => ?_⟩
  · have hI := hinv s hs
    have h0 : C.senders s = 0 := (h.counted s hI).symm.trans (hclosed s l hr).senders
    refine ⟨h0, h.unreserved s hI h0, ?_⟩
    rw [← (h.sound s hI).fifo, (hclosed s l hr).queue, append_nil]
  · intro s l t ls u hs hr hstep hrun k
    -- from the step on the pipe is closed
    have hstay : I u ∧ (C.pipe u).Closed := by
      refine System.inv_of_any_run (I := fun s => I s ∧ (C.pipe s).Closed)
        (fun a e b hab hb => ?_) ?_ hrun
      · exact ⟨h.step a e b hab.1 hb, hab.2.moves (h.moves a e b hab.1 hb)⟩
      · exact ⟨h.step s l t (hinv s hs) hstep,
          (hclosed s l hr).moves (h.moves s l t (hinv s hs) hstep)⟩
    refine ⟨fun hup => h.upgraded u k hup hstay.2.senders, fun r hk => ?_⟩
    rw [h.answered u k r hk]
    exact Pipe.answer_eq_none_iff.mpr hstay.2
  · have hI := hinv s hs
    exact (h.sound s hI).awake_of_senders ((h.counted s hI).trans h0)

end Argument

/-! ## The unbounded channel -/

def unbounded (T : Type) : Channel (UnboundedWorld T) (UnboundedLabel T) T where
  system := unboundedMpsc T
  pipe := UnboundedWorld.pipe
  senders w := w.handles
  reserved _ := 0
  recvReply w
    | .pollRecv i budget => (pollProceed budget).map fun _ => (w.inner.pollRecv i).2
    | _ => none
  upgradeReply w
    | .upgrade => some (w.inner.sendersAlive != 0)
    | _ => none

theorem UnboundedInner.pollRecv_answer (w : UnboundedWorld T) (me : ℕ) :
    (w.inner.pollRecv me).2 = w.pipe.answer := by
  rw [UnboundedInner.pollRecv, Pipe.answer, UnboundedWorld.pipe]
  cases w.inner.queue with
  | cons x rest => rfl
  | nil =>
    by_cases h0 : w.inner.sendersAlive = 0
    · simp only [h0, if_true]
    · simp only [h0, if_false]

theorem invariant_unbounded (T : Type) :
    Invariant (unbounded T) fun w => w.Counted ∧ w.pipe.Sound where
  init := ⟨rfl, Pipe.sound_new 1⟩
  step _ _ _ h hs :=
    ⟨(moves_of_step h.1 hs).1, h.2.moves (moves_of_step h.1 hs).2⟩
  moves _ _ _ h hs := (moves_of_step h.1 hs).2
  sound _ h := h.2
  counted _ h := h.1
  unreserved _ _ _ := rfl
  answered w l r hr := by
    cases l with
    | pollRecv i budget =>
      obtain ⟨-, -, rfl⟩ := Option.map_eq_some_iff.mp hr
      exact UnboundedInner.pollRecv_answer w i
    | _ => simp [unbounded] at hr
  upgraded w l hr := by
    cases l with
    | upgrade => simpa [unbounded, UnboundedWorld.pipe] using hr
    | _ => simp [unbounded] at hr

/-! ## The reserved slots, with the wrap -/

namespace World

/-- The reserved slots are those that are held, up to the wrap. -/
structure Wrapped (w : World T) : Prop where
  reserved : w.inner.reserved = w.held % 2 ^ 64
  iterators : ∀ n ∈ w.iterators, n < 2 ^ 64

section Wrapped

variable {w v : World T} {l : Label T} {n i : ℕ} {c : Inner T}

theorem Wrapped.of_same (h : w.Wrapped) (hinner : v.inner.reserved = w.inner.reserved)
    (hheld : v.held = w.held) (hiter : ∀ n ∈ v.iterators, n < 2 ^ 64) : v.Wrapped :=
  ⟨by rw [hinner, hheld, h.reserved], hiter⟩

theorem Wrapped.claim (h : w.Wrapped) (hn : n < 2 ^ 64)
    (hinner : v.inner.reserved = uadd w.inner.reserved n) (hheld : v.held = w.held + n)
    (hiter : ∀ n ∈ v.iterators, n < 2 ^ 64) : v.Wrapped :=
  ⟨by rw [hinner, hheld, h.reserved, uadd_mod _ hn], hiter⟩

theorem Wrapped.release (h : w.Wrapped) (hn : n < 2 ^ 64)
    (hinner : v.inner.reserved = usub w.inner.reserved n) (hheld : v.held + n = w.held)
    (hiter : ∀ n ∈ v.iterators, n < 2 ^ 64) : v.Wrapped :=
  ⟨by rw [hinner, h.reserved, ← hheld, usub_mod _ hn], hiter⟩

theorem Wrapped.loseSender (h : v.Wrapped) : v.loseSender.Wrapped := by
  obtain ⟨r, hr⟩ := v.inner.dropSender_eq
  refine ⟨?_, h.iterators⟩
  rw [World.loseSender, hr]
  exact h.reserved

theorem Wrapped.of_reserve (h : w.Wrapped) (hn : n < 2 ^ 64)
    (hinner : v.inner = (w.inner.pollReserve n i).1)
    (hheld : v.held = w.held + if (w.inner.pollReserve n i).2 = .ready true then n else 0)
    (hiter : ∀ n ∈ v.iterators, n < 2 ^ 64) : v.Wrapped := by
  rcases w.inner.pollReserve_outcome n i with ⟨s, b, hb, hp⟩ | hp
  · simp only [hp, if_neg hb] at hinner hheld
    exact h.of_same (by rw [hinner]) hheld hiter
  · simp only [hp, if_true] at hinner hheld
    exact h.claim hn (by rw [hinner]) hheld hiter

theorem slots_lt (k : Sending T) : k.slots < 2 ^ 64 := by
  cases k with
  | reserveMany n => exact n.toNat_lt
  | _ => exact Nat.one_lt_two_pow (by decide)

theorem iterators_hold (w : World T) (h : ∀ n ∈ w.iterators, n < 2 ^ 64) (k : Sending T) :
    ∀ n ∈ (w.hold k).iterators, n < 2 ^ 64 := by
  cases k with
  | reserveMany n =>
    intro m hm
    rcases mem_append.mp hm with hm | hm
    · exact h m hm
    · rw [mem_singleton.mp hm]
      exact n.toNat_lt
  | _ => exact h

theorem wrapped_pollSending (h : w.Wrapped) (k : Sending T) : (w.pollSending i k).Wrapped := by
  by_cases hk : ∃ value, k = .send value
  · obtain ⟨value, rfl⟩ := hk
    refine h.of_same ?_ rfl h.iterators
    rcases w.inner.pollSend_outcome value i with ⟨s, b, -, hp⟩ | hp
    · simp only [pollSending, hp]
    · simp only [pollSending, hp, Inner.push]
  · have hk := not_exists.mp hk
    have hreserve : (w.inner.pollReserve k.slots i).2 ≠ .ready true →
        (w.reserve i k.slots).Wrapped := fun hb =>
      h.of_reserve (slots_lt k) rfl (by rw [if_neg hb]; rfl) h.iterators
    rw [pollSending_eq _ hk, pollReserving]
    split <;> rename_i hb
    · refine h.of_reserve (slots_lt k) (hold_inner _ _) ?_
        (iterators_hold (w.reserve i k.slots) h.iterators k)
      rw [if_pos hb, held_hold _ hk]
      rfl
    · have hfail := hreserve (by simp [hb])
      split
      · exact hfail.loseSender
      · exact hfail
    · exact hreserve (by simp [hb])

theorem wrapped_pollElapsed {value : T} (h : w.Wrapped) : (w.pollElapsed i value).Wrapped := by
  rw [pollElapsed]
  split
  next hb => exact h.of_reserve (n := 1) (i := i) (by decide) rfl (by rw [hb]; rfl) h.iterators
  · exact wrapped_pollSending h _

theorem wrapped_dropSending {k : Sending T} (h : w.Wrapped) : (w.dropSending i k).Wrapped := by
  have hdrop : ({ w with sends := Table.setPhase w.sends i .dropped } : World T).Wrapped :=
    h.of_same rfl rfl h.iterators
  unfold dropSending
  split
  · exact hdrop.loseSender
  · exact hdrop

theorem wrapped_of_tryReserve (h : w.Wrapped)
    (hc : w.inner.tryReserve = (c, .ok ())) (hinner : v.inner = c) (hheld : v.held = w.held + 1)
    (hiter : v.iterators = w.iterators) : v.Wrapped := by
  rcases w.inner.tryReserve_outcome with ⟨e, hp⟩ | hp
  · cases hc.symm.trans hp
  · cases hc.symm.trans hp
    exact h.claim (by decide) (by rw [hinner]) hheld (by rw [hiter]; exact h.iterators)

theorem wrapped_of_tryReserveFails {e : TrySendError Unit} (h : w.Wrapped)
    (hc : w.inner.tryReserve = (c, .error e)) : ({ w with inner := c } : World T).Wrapped := by
  rcases w.inner.tryReserve_outcome with ⟨e, hp⟩ | hp
  · cases hc.symm.trans hp
    exact h
  · cases hc.symm.trans hp

theorem wrapped_pollRecv {budget : Option ℕ} (h : w.Wrapped) : (w.pollRecv i budget).Wrapped := by
  obtain ⟨-, -, howned, hpermits, hiter, htimeouts⟩ := w.pollRecv_frame i budget
  refine h.of_same ?_ (by simp only [held, howned, hpermits, hiter, htimeouts])
    (by rw [hiter]; exact h.iterators)
  rw [World.pollRecv]
  split
  · rfl
  · rw [Inner.pollRecv]
    split
    · rfl
    · split <;> rfl

theorem wrapped_of_step (h : w.Wrapped) (hs : w.step l = some v) : v.Wrapped := by
  have hone : 1 < 2 ^ 64 := by decide
  cases steps_of_step hs with
  | start hk hh | startOwned hh | startRecv hr | dropRecv hi hp | cloneSender hh | upgrade h0
  | dropReceiver => exact h.of_same rfl rfl h.iterators
  | poll hi hp => exact wrapped_pollSending h _
  | pollElapsed hi hp => exact wrapped_pollElapsed h
  | drop hi hp => exact wrapped_dropSending h
  | timeoutSend hk =>
    have hlen := Pool.length_eraseIdx_add_one hk
    refine h.release hone rfl ?_ h.iterators
    simp only [held, fill]
    omega
  | @trySend value hh =>
    refine h.of_same ?_ rfl h.iterators
    rcases w.inner.trySend_outcome value with ⟨e, -, hp⟩ | hp
    · simp only [hp]
    · simp only [hp, Inner.push]
  | tryReserve hh hc | tryReserveOwned hh hc =>
    refine wrapped_of_tryReserve h hc rfl ?_ rfl
    simp only [held]
    omega
  | tryReserveFails hc | tryReserveOwnedFails hc => exact wrapped_of_tryReserveFails h hc
  | permitSend h0 | ownedSend h0 =>
    refine h.release hone rfl ?_ h.iterators
    simp only [held, fill]
    omega
  | permitDrop h0 | ownedRelease h0 =>
    refine h.release hone rfl ?_ h.iterators
    simp only [held, World.release]
    omega
  | ownedDrop h0 =>
    refine Wrapped.loseSender (h.release hone rfl ?_ h.iterators)
    simp only [held, World.release]
    omega
  | @iteratorNext k n hk =>
    have hsum := Pool.sum_set_add n hk
    refine h.of_same rfl ?_ fun m hm => ?_
    · simp only [held]
      omega
    · have hlt := h.iterators _ (mem_of_getElem? hk)
      rcases mem_or_eq_of_mem_set hm with hm | rfl
      · exact h.iterators m hm
      · omega
  | iteratorEnd | upgradeFails h0 => exact h
  | iteratorDrop hk =>
    have hsum := Pool.sum_eraseIdx_add hk
    refine h.release (h.iterators _ (mem_of_getElem? hk)) rfl ?_ fun m hm => ?_
    · simp only [held, World.release]
      omega
    · exact h.iterators m (mem_of_mem_eraseIdx hm)
  | pollRecv hi hp => exact wrapped_pollRecv h
  | dropSender hh =>
    have hdrop : ({ w with handles := w.handles - 1 } : World T).Wrapped :=
      h.of_same rfl rfl h.iterators
    exact hdrop.loseSender

theorem Wrapped.unreserved (h : w.Wrapped) (ho : w.Owners) (h0 : w.senders = 0) :
    w.inner.reserved = 0 := by
  have hloans : w.loans = 0 := by
    have hlent := ho.lent
    simp only [senders] at h0
    omega
  simp only [senders, loans] at h0 hloans
  have hiter : w.iterators = [] := eq_nil_of_length_eq_zero (by omega)
  have hheld : w.held = 0 := by
    simp only [held, hiter, sum_nil]
    omega
  rw [h.reserved, hheld, Nat.zero_mod]

end Wrapped

end World

/-! ## The bounded channel -/

def bounded (c : Inner T) : Channel (World T × List T) (Label T) T where
  system := ledger c
  pipe s := s.1.pipe s.2
  senders s := s.1.senders
  reserved s := s.1.inner.reserved
  recvReply s
    | .pollRecv i budget => (pollProceed budget).map fun _ => (s.1.inner.pollRecv i).2.1
    | _ => none
  upgradeReply s
    | .upgrade => some (s.1.inner.sendersAlive != 0)
    | _ => none

theorem Inner.pollRecv_answer (w : World T) (log : List T) (me : ℕ) :
    (w.inner.pollRecv me).2.1 = (w.pipe log).answer := by
  rw [Inner.pollRecv, Pipe.answer, World.pipe]
  cases w.inner.queue with
  | cons x rest => rfl
  | nil =>
    by_cases h0 : w.inner.sendersAlive = 0
    · simp only [h0, if_true]
    · simp only [h0, if_false]

theorem invariant_bounded {capacity : UInt64} {c : Inner T} (hc : channel T capacity = some c) :
    Invariant (bounded c) fun s => Kept s ∧ s.1.Wrapped where
  init := by
    refine ⟨kept_init hc, ?_⟩
    obtain ⟨-, rfl⟩ := of_guard hc
    exact ⟨rfl, fun _ hn => absurd hn not_mem_nil⟩
  step _ _ _ h hs := ⟨kept_of_step h.1 hs, World.wrapped_of_step h.2 (ledger_step hs).1⟩
  moves s l t h hs := by
    obtain ⟨hstep, hlog⟩ := ledger_step hs
    have hmove := World.moves_of_step h.1.1 hstep s.2
    rw [← hlog] at hmove
    exact hmove
  sound _ h := h.1.2
  counted _ h := h.1.1.count
  unreserved _ h h0 := h.2.unreserved h.1.1 h0
  answered s l r hr := by
    cases l with
    | pollRecv i budget =>
      obtain ⟨-, -, rfl⟩ := Option.map_eq_some_iff.mp hr
      exact Inner.pollRecv_answer s.1 s.2 i
    | _ => simp [bounded] at hr
  upgraded s l hr := by
    cases l with
    | upgrade => simpa [bounded, World.pipe] using hr
    | _ => simp [bounded] at hr

/-- **The closure of both channels is final and lossless.** -/
theorem closure_final {capacity : UInt64} {c : Inner T} (hc : channel T capacity = some c) :
    ClosureFinal (bounded c) ∧ ClosureFinal (unbounded T) :=
  ⟨(invariant_bounded hc).closureFinal, (invariant_unbounded T).closureFinal⟩

theorem closed_after_owned_permit : ∃ (c : Inner ℕ) (w : World ℕ), channel ℕ 1 = some c ∧
    (ledger c).Reachable (w, [7]) ∧ w.received = [7] ∧
    (bounded c).recvReply (w, [7]) (.pollRecv 1 none) = some (.ready none) ∧
    w.senders = 0 ∧ w.inner.reserved = 0 ∧ ClosureFinal (unbounded ℕ) := by
  have hc : channel ℕ 1 = some ⟨[], 1, 0, [], none, 1, true⟩ := rfl
  obtain ⟨hbounded, hunbounded⟩ := closure_final hc
  have hw : (ledger ⟨[], 1, 0, [], none, 1, true⟩).Reachable _ :=
    ⟨[.startRecv, .pollRecv 0 none, .tryReserveOwned, .ownedSend 7, .dropSender, .pollRecv 0 none,
      .startRecv], rfl⟩
  obtain ⟨hsenders, hreserved, -⟩ := hbounded.lossless _ (.pollRecv 1 none) hw rfl
  exact ⟨_, _, hc, hw, rfl, rfl, hsenders, hreserved, hunbounded⟩

end RustyTokio.Mpsc

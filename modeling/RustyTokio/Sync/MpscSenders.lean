import RustyTokio.Sync.MpscAccounts

/-!
# Who holds a `Sender` of a bounded channel

The channel counts its `Sender`s.  Those are handles in the open, or they are inside of an
`OwnedPermit` or of a future of `reserve_owned`; everything else on the sending side borrows
a handle in the open, which cannot be moved or dropped in the meantime.
-/

namespace RustyTokio.Mpsc

open Transition Coop List Bool Table

variable {T : Type}

/-! ## What the calls leave alone -/

namespace Inner

theorem pollSend_outcome (c : Inner T) (value : T) (me : ℕ) : (∃ s r, r ≠ .ready true ∧
        c.pollSend value me = ({ c with sendWaiters := s }, r, none)) ∨
      c.pollSend value me = (c.push value, .ready true, c.recvWaker) := by
  rw [pollSend]
  split
  · exact .inl ⟨c.sendWaiters, .ready false, by simp, rfl⟩
  · split
    · exact .inr rfl
    · exact .inl ⟨c.sendWaiters ++ [me], .pending, by simp, rfl⟩

theorem trySend_outcome (c : Inner T) (value : T) :
    (∃ e, e.intoInner = value ∧ c.trySend value = (c, .error e, none)) ∨
      c.trySend value = (c.push value, .ok (), c.recvWaker) := by
  rw [trySend]
  split
  · exact .inl ⟨.closed value, rfl, rfl⟩
  · split
    · exact .inr rfl
    · exact .inl ⟨.full value, rfl, rfl⟩

theorem pollReserve_outcome (c : Inner T) (n me : ℕ) :
    (∃ s r, r ≠ .ready true ∧ c.pollReserve n me = ({ c with sendWaiters := s }, r)) ∨
      c.pollReserve n me = ({ c with reserved := uadd c.reserved n }, .ready true) := by
  rw [pollReserve]
  split
  · exact .inl ⟨c.sendWaiters, .ready false, by simp, rfl⟩
  · split
    · exact .inr rfl
    · exact .inl ⟨c.sendWaiters ++ [me], .pending, by simp, rfl⟩

theorem tryReserve_outcome (c : Inner T) : (∃ e, c.tryReserve = (c, .error e)) ∨
      c.tryReserve = ({ c with reserved := uadd c.reserved 1 }, .ok ()) := by
  rw [tryReserve]
  split
  · exact .inl ⟨_, rfl⟩
  · split
    · exact .inr rfl
    · exact .inl ⟨_, rfl⟩

end Inner

/-! ## Who holds a `Sender` -/

namespace World

def ownedFutures (w : World T) : ℕ := Table.live Sending.isOwned w.sends

/-- The live `Sender`s: those in the open, in permits and in futures. -/
def senders (w : World T) : ℕ := w.handles + w.ownedPermits + w.ownedFutures

def lentFutures (w : World T) : ℕ := Table.live (fun k => !k.isOwned) w.sends

def loans (w : World T) : ℕ :=
  w.permits + w.iterators.length + w.timeouts.length + w.lentFutures

theorem borrowed_iff (w : World T) : w.borrowed ↔ 0 < w.loans := by
  have hany : (w.sends.any fun f => f.phase.isLive && !f.kind.isOwned) ↔
      0 < w.lentFutures := by
    rw [lentFutures, Table.live, countP_pos_iff, any_eq_true]
  have hsame : w.borrowed = (decide (0 < w.permits) || !w.iterators.isEmpty ||
      !w.timeouts.isEmpty || w.sends.any fun f => f.phase.isLive && !f.kind.isOwned) := by
    rw [borrowed]
    congr 2
    funext f
    cases f.kind <;> rfl
  rw [hsame, or_eq_true, hany, or_eq_true, or_eq_true,
    decide_eq_true_iff, not_eq_true', not_eq_true', isEmpty_eq_false_iff,
    isEmpty_eq_false_iff, ← length_pos_iff, ← length_pos_iff, loans]
  omega

theorem spare_iff (w : World T) : w.spare ↔ 0 < w.handles ∧ (w.handles = 1 → w.loans = 0) := by
  have hb := w.borrowed_iff
  rw [spare, or_eq_true, and_eq_true, decide_eq_true_iff, decide_eq_true_iff,
    not_eq_true', ← not_eq_true, hb]
  omega

/-- `senders_alive` counts the senders, and a lent one has a handle. -/
structure Owners (w : World T) : Prop where
  count : w.inner.sendersAlive = w.senders
  lent : 0 < w.loans → 0 < w.handles

section Owners

variable {w v : World T} {l : Label T} {i : ℕ} {f : Future (Sending T)} {p : Phase}

theorem Owners.of_same (h : w.Owners) (hinner : v.inner.sendersAlive = w.inner.sendersAlive)
    (hsenders : v.senders = w.senders) (hlent : 0 < v.loans → 0 < v.handles) : v.Owners :=
  ⟨by rw [hinner, hsenders, h.count], hlent⟩

theorem owners_loseSender (hcount : v.inner.sendersAlive = v.senders + 1)
    (hlent : 0 < v.loans → 0 < v.handles) : v.loseSender.Owners := by
  obtain ⟨r, hr⟩ := v.inner.dropSender_eq
  refine ⟨?_, hlent⟩
  have hinner : v.loseSender.inner.sendersAlive = v.inner.sendersAlive - 1 := by
    rw [loseSender, hr]
  have hsenders : v.loseSender.senders = v.senders := rfl
  omega

theorem counts_of_lent (hi : w.sends[i]? = some f)
    (hp : f.phase.isLive) (hk : f.kind.isOwned = false) (p : Phase) :
    Table.live Sending.isOwned (Table.setPhase w.sends i p) = w.ownedFutures ∧
      0 < w.lentFutures := by
  have hown := live_setPhase Sending.isOwned hi hp p
  have hlent := live_pos (fun k : Sending T => !k.isOwned) hi hp (by simp [hk])
  simp only [hk, Bool.and_false, toNat_false, add_zero] at hown
  exact ⟨hown, hlent⟩

theorem counts_of_owned (hi : w.sends[i]? = some f)
    (hp : f.phase.isLive) (hk : f.kind.isOwned) (p : Phase) :
    Table.live Sending.isOwned (Table.setPhase w.sends i p) + 1 = w.ownedFutures + p.isLive.toNat ∧
      Table.live (fun k => !k.isOwned) (Table.setPhase w.sends i p) = w.lentFutures := by
  have hown := live_setPhase Sending.isOwned hi hp p
  have hlent := live_setPhase (fun k : Sending T => !k.isOwned) hi hp p
  simp only [hk, Bool.not_true, Bool.and_false, Bool.and_true, toNat_false,
    toNat_true, add_zero] at hown hlent
  exact ⟨hown, hlent⟩

theorem reserve_sendersAlive (w : World T) (i n : ℕ) :
    (w.reserve i n).inner.sendersAlive = w.inner.sendersAlive := by
  rcases w.inner.pollReserve_outcome n i with ⟨s, b, -, hp⟩ | hp <;> simp only [reserve, hp]

theorem owners_of_lent (h : w.Owners)
    (hi : w.sends[i]? = some f) (hp : f.phase.isLive) (hk : f.kind.isOwned = false)
    (hinner : v.inner.sendersAlive = w.inner.sendersAlive)
    (hsends : v.sends = Table.setPhase w.sends i p) (hhandles : v.handles = w.handles)
    (howned : v.ownedPermits = w.ownedPermits) : v.Owners := by
  obtain ⟨hown, hlent⟩ := counts_of_lent hi hp hk p
  refine h.of_same hinner ?_ fun _ => ?_
  · rw [senders, ownedFutures, hsends, hown, hhandles, howned, senders]
  · rw [hhandles]
    exact h.lent (Nat.lt_of_lt_of_le hlent (Nat.le_add_left _ _))

theorem owners_of_owned (h : w.Owners) (hi : w.sends[i]? = some f) (hp : f.phase.isLive)
    (hk : f.kind = .reserveOwned) : (w.pollReserving i .reserveOwned).Owners := by
  have hinner := w.reserve_sendersAlive i 1
  have hcount := h.count
  have hloans := h.lent
  obtain ⟨hown, hlent⟩ :=
    counts_of_owned hi hp (by rw [hk]; rfl) (phaseOf (w.inner.pollReserve 1 i).2)
  -- what is lent does not change
  have hlent : 0 < (w.reserve i 1).loans → 0 < w.handles := by
    simp only [reserve, loans, lentFutures, hlent] at hloans ⊢
    exact hloans
  rw [pollReserving]
  split <;> rename_i hb
  all_goals
    simp only [Sending.slots] at hb ⊢
    simp only [hb, phaseOf, Phase.isLive, toNat_false, toNat_true, ownedFutures] at hown
    simp only [senders, ownedFutures] at hcount
  · refine ⟨?_, hlent⟩
    simp only [hold, reserve, senders, ownedFutures, hb, phaseOf] at hinner ⊢
    omega
  · refine owners_loseSender ?_ hlent
    simp only [reserve, senders, ownedFutures, hb, phaseOf] at hinner ⊢
    omega
  · refine ⟨?_, hlent⟩
    simp only [reserve, senders, ownedFutures, hb, phaseOf] at hinner ⊢
    omega

theorem owners_pollReserving (h : w.Owners) (hi : w.sends[i]? = some f) (hp : f.phase.isLive) :
    (w.pollReserving i f.kind).Owners := by
  cases hk : f.kind.isOwned with
  | true =>
    have hkind : f.kind = .reserveOwned := by
      cases hf : f.kind <;> simp [hf, Sending.isOwned] at hk
      rfl
    rw [hkind]
    exact owners_of_owned h hi hp hkind
  | false =>
    have halive := w.reserve_sendersAlive i f.kind.slots
    rw [pollReserving, hk]
    split
    · refine owners_of_lent h hi hp hk ?_ (hold_sends _ _) ?_ ?_
      · rw [hold_inner, halive]
      · cases f.kind <;> rfl
      · cases hf : f.kind <;> first | rfl | simp [hf, Sending.isOwned] at hk
    · exact owners_of_lent h hi hp hk halive rfl rfl rfl
    · exact owners_of_lent h hi hp hk halive rfl rfl rfl

theorem owners_pollSending (h : w.Owners) (hi : w.sends[i]? = some f) (hp : f.phase.isLive) :
    (w.pollSending i f.kind).Owners := by
  cases hk : f.kind with
  | send value =>
    refine owners_of_lent h hi hp (by rw [hk]; rfl) ?_ rfl rfl rfl
    rcases w.inner.pollSend_outcome value i with ⟨s, b, -, hb⟩ | hb
    · simp only [pollSending, hb]
    · simp only [pollSending, hb, Inner.push]
  | _ =>
    rw [← hk, pollSending_eq _ (by simp [hk])]
    exact owners_pollReserving h hi hp

theorem owners_pollElapsed {value : T} (h : w.Owners)
    (hi : w.sends[i]? = some ⟨.sendTimeout value, p⟩) (hp : p.isLive) :
    (w.pollElapsed i value).Owners := by
  rw [pollElapsed]
  split
  · exact owners_of_lent h hi hp rfl (w.reserve_sendersAlive i 1) rfl rfl rfl
  · exact owners_pollSending h hi hp

theorem owners_dropSending (h : w.Owners) (hi : w.sends[i]? = some f) (hp : f.phase.isLive) :
    (w.dropSending i f.kind).Owners := by
  have hcount := h.count
  have hloans := h.lent
  unfold dropSending
  split <;> rename_i hk
  · obtain ⟨hown, hlent⟩ := counts_of_owned hi hp (by rw [hk]; rfl) .dropped
    refine owners_loseSender ?_ ?_
    · simp only [senders, ownedFutures, Phase.isLive, toNat_false] at hown hcount ⊢
      omega
    · simp only [loans, lentFutures, hlent] at hloans ⊢
      exact hloans
  · have hlent : f.kind.isOwned = false := by
      cases hf : f.kind with
      | reserveOwned => exact absurd hf hk
      | _ => rfl
    exact owners_of_lent h hi hp hlent rfl rfl rfl rfl

theorem Owners.of_wakes {is : List ℕ} (h : w.Owners)
    (hinner : v.inner.sendersAlive = w.inner.sendersAlive)
    (hsends : v.sends = Table.wakeAll w.sends is) (hhandles : v.handles = w.handles)
    (howned : v.ownedPermits = w.ownedPermits) (hpermits : v.permits ≤ w.permits)
    (hiter : v.iterators.length ≤ w.iterators.length)
    (htimeouts : v.timeouts.length ≤ w.timeouts.length) : v.Owners := by
  have hloans := h.lent
  refine h.of_same hinner ?_ ?_
  · rw [senders, ownedFutures, hsends, live_wakeAll, hhandles, howned]
    rfl
  · simp only [loans, lentFutures, hsends, live_wakeAll, hhandles] at hloans ⊢
    omega

theorem pollRecv_sends (w : World T) (i : ℕ) (budget : Option ℕ) :
    ∃ is, (w.pollRecv i budget).sends = Table.wakeAll w.sends is := by
  rw [World.pollRecv]
  split
  · exact ⟨[], rfl⟩
  · exact ⟨_, rfl⟩

theorem pollRecv_frame (w : World T) (i : ℕ) (budget : Option ℕ) :
    (w.pollRecv i budget).inner.sendersAlive = w.inner.sendersAlive ∧
      (w.pollRecv i budget).handles = w.handles ∧
      (w.pollRecv i budget).ownedPermits = w.ownedPermits ∧
      (w.pollRecv i budget).permits = w.permits ∧ (w.pollRecv i budget).iterators = w.iterators ∧
      (w.pollRecv i budget).timeouts = w.timeouts := by
  rw [World.pollRecv]
  split
  · exact ⟨rfl, rfl, rfl, rfl, rfl, rfl⟩
  · refine ⟨?_, rfl, rfl, rfl, rfl, rfl⟩
    rw [Inner.pollRecv]
    split
    · rfl
    · split <;> rfl

theorem tryReserve_sendersAlive {c : Inner T} {r : Except (TrySendError Unit) Unit}
    (hc : w.inner.tryReserve = (c, r)) : c.sendersAlive = w.inner.sendersAlive := by
  rcases w.inner.tryReserve_outcome with ⟨e, hp⟩ | hp <;> cases hc.symm.trans hp
  · rfl
  · rfl

theorem owners_of_step (h : w.Owners) (hs : w.step l = some v) : v.Owners := by
  have hcount := h.count
  have hloans := h.lent
  cases steps_of_step hs with
  | @start k hk hh =>
    have howned : k.isOwned = false := by
      cases k with
      | reserveOwned => exact absurd rfl hk
      | _ => rfl
    refine h.of_same rfl ?_ fun _ => hh
    simp only [senders, ownedFutures, live_append, howned, toNat_false, add_zero]
  | startOwned hh =>
    obtain ⟨hpos, hone⟩ := (spare_iff w).mp hh
    refine h.of_same rfl ?_ ?_
    · simp only [senders, ownedFutures, live_append, Sending.isOwned, toNat_true]
      omega
    · simp only [loans, lentFutures, live_append, Sending.isOwned, Bool.not_true,
        toNat_false] at hone ⊢
      omega
  | poll hi hp => exact owners_pollSending h hi hp
  | pollElapsed hi hp => exact owners_pollElapsed h hi hp
  | drop hi hp => exact owners_dropSending h hi hp
  | timeoutSend hk =>
    have hlen := Pool.length_eraseIdx_add_one hk
    refine h.of_same rfl rfl ?_
    simp only [loans, lentFutures, fill] at hloans ⊢
    omega
  | @trySend value hh =>
    refine h.of_same ?_ rfl fun _ => hh
    rcases w.inner.trySend_outcome value with ⟨e, -, hp⟩ | hp
    · simp only [hp]
    · simp only [hp, Inner.push]
  | tryReserve hh hc => exact h.of_same (tryReserve_sendersAlive hc) rfl fun _ => hh
  | tryReserveFails hc | tryReserveOwnedFails hc =>
    exact h.of_same (tryReserve_sendersAlive hc) rfl h.lent
  | tryReserveOwned hh hc =>
    obtain ⟨hpos, hone⟩ := (spare_iff w).mp hh
    refine h.of_same (tryReserve_sendersAlive hc) ?_ ?_
    · simp only [senders, ownedFutures]
      omega
    · simp only [loans, lentFutures] at hone ⊢
      omega
  | permitSend h0 =>
    refine h.of_same rfl rfl ?_
    simp only [loans, lentFutures, fill] at hloans ⊢
    omega
  | permitDrop h0 =>
    exact h.of_wakes rfl rfl rfl rfl (Nat.sub_le _ _) (Nat.le_refl _) (Nat.le_refl _)
  | ownedSend h0 =>
    refine h.of_same rfl ?_ fun _ => Nat.succ_pos _
    simp only [senders, ownedFutures, fill]
    omega
  | ownedRelease h0 =>
    refine h.of_same rfl ?_ fun _ => Nat.succ_pos _
    simp only [senders, ownedFutures, release, live_wakeAll]
    omega
  | ownedDrop h0 =>
    refine owners_loseSender ?_ ?_
    · simp only [senders, ownedFutures, release, Inner.releaseReserved, live_wakeAll]
        at hcount ⊢
      omega
    · simp only [loans, lentFutures, release, live_wakeAll] at hloans ⊢
      exact hloans
  | iteratorNext hk =>
    obtain ⟨hlt, -⟩ := List.getElem?_eq_some_iff.mp hk
    refine h.of_same rfl rfl fun _ => h.lent ?_
    simp only [loans]
    omega
  | iteratorEnd | upgradeFails h0 => exact h
  | iteratorDrop hk =>
    have hlen := Pool.length_eraseIdx_add_one hk
    exact h.of_wakes rfl rfl rfl rfl (Nat.le_refl _) (Nat.le.intro hlen) (Nat.le_refl _)
  | startRecv hr | dropRecv hi hp => exact h.of_same rfl rfl h.lent
  | @pollRecv i budget f hi hp =>
    obtain ⟨hinner, hhandles, howned, hpermits, hiter, htimeouts⟩ := w.pollRecv_frame i budget
    obtain ⟨is, hsends⟩ := w.pollRecv_sends i budget
    exact h.of_wakes hinner hsends hhandles howned (Nat.le_of_eq hpermits)
      (Nat.le_of_eq (by rw [hiter])) (Nat.le_of_eq (by rw [htimeouts]))
  | cloneSender hh | upgrade h0 =>
    refine ⟨?_, fun _ => Nat.succ_pos _⟩
    simp only [Inner.cloneSender, senders, ownedFutures] at hcount ⊢
    omega
  | dropSender hh =>
    obtain ⟨hpos, hone⟩ := (spare_iff w).mp hh
    have hdrop : ({ w with handles := w.handles - 1 } : World T).loseSender.Owners := by
      refine owners_loseSender ?_ ?_
      · simp only [senders, ownedFutures] at hcount ⊢
        omega
      · simp only [loans, lentFutures] at hone ⊢
        omega
    exact hdrop
  | dropReceiver =>
    exact h.of_wakes rfl rfl rfl rfl (Nat.le_refl _) (Nat.le_refl _) (Nat.le_refl _)

end Owners

end World
end RustyTokio.Mpsc

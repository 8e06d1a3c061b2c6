import Mathlib.Algebra.BigOperators.Group.List.Basic
import Mathlib.Data.List.DropRight
import RustyTokio.Sync.Broadcast

/-!
# What a `broadcast` channel delivers

To a receiver the channel is a cursor over the history of all messages.  What it is handed moves the
cursor: a message by one, `Lagged(n)` by `n`, `Closed` not at all.
-/

namespace RustyTokio.Broadcast

open Transition List Table

variable {α : Type}

/-! ## What a log says -/

def returned (log : List (Except RecvError α)) : List α := log.filterMap Except.toOption

def lag : Except RecvError α → ℕ
  | .error (.lagged n) => n
  | _ => 0

def missed (log : List (Except RecvError α)) : ℕ := (log.map lag).sum

def cursor (k : ℕ) (log : List (Except RecvError α)) : ℕ := k + (returned log).length + missed log

/-- The messages returned, each with its sequence number, for a receiver that started at
`k`. -/
def numbered : ℕ → List (Except RecvError α) → List (ℕ × α)
  | _, [] => []
  | k, .ok value :: log => (k, value) :: numbered (k + 1) log
  | k, .error (.lagged n) :: log => numbered (k + n) log
  | k, .error .closed :: log => numbered k log

@[simp] theorem cursor_nil (k : ℕ) : cursor k ([] : List (Except RecvError α)) = k := rfl

theorem cursor_ok (k : ℕ) (value : α) (log : List (Except RecvError α)) :
    cursor k (.ok value :: log) = cursor (k + 1) log := by
  simp only [cursor, returned, missed, map_cons, sum_cons, lag]
  change k + ((log.filterMap Except.toOption).length + 1) + (0 + _) = _
  omega

theorem cursor_lagged (k n : ℕ) (log : List (Except RecvError α)) :
    cursor k (.error (.lagged n) :: log) = cursor (k + n) log := by
  simp only [cursor, returned, missed, map_cons, sum_cons, lag]
  change k + (log.filterMap Except.toOption).length + (n + _) = _
  omega

theorem cursor_closed (k : ℕ) (log : List (Except RecvError α)) :
    cursor k (.error .closed :: log) = cursor k log := by
  simp only [cursor, returned, missed, map_cons, sum_cons, lag]
  change k + (log.filterMap Except.toOption).length + (0 + _) = _
  omega

theorem cursor_append (k : ℕ) (a b : List (Except RecvError α)) :
    cursor k (a ++ b) = cursor (cursor k a) b := by
  simp only [cursor, returned, missed, filterMap_append, map_append, sum_append, length_append]
  omega

theorem numbered_append (a b : List (Except RecvError α)) :
    ∀ k, numbered k (a ++ b) = numbered k a ++ numbered (cursor k a) b := by
  induction a with
  | nil => exact fun k => rfl
  | cons e a ih =>
    intro k
    match e with
    | .ok value => rw [cursor_ok, cons_append, numbered, ih, numbered, cons_append]
    | .error (.lagged n) => rw [cursor_lagged, cons_append, numbered, ih, numbered]
    | .error .closed => rw [cursor_closed, cons_append, numbered, ih, numbered]

theorem le_of_mem_numbered (log : List (Except RecvError α)) :
    ∀ k, ∀ p ∈ numbered k log, k ≤ p.1 := by
  induction log with
  | nil => exact fun k p hp => absurd hp not_mem_nil
  | cons e log ih =>
    intro k p hp
    match e with
    | .ok value =>
      rcases mem_cons.mp hp with rfl | hp
      · exact le_refl k
      · exact Nat.le_of_succ_le (ih (k + 1) p hp)
    | .error (.lagged n) => exact Nat.le_of_add_right_le (ih (k + n) p hp)
    | .error .closed => exact ih k p hp

theorem pairwise_numbered (log : List (Except RecvError α)) :
    ∀ k, (numbered k log).Pairwise fun p q => p.1 < q.1 := by
  induction log with
  | nil => exact fun k => List.Pairwise.nil
  | cons e log ih =>
    intro k
    match e with
    | .ok value => exact List.Pairwise.cons (le_of_mem_numbered log (k + 1)) (ih (k + 1))
    | .error (.lagged n) => exact ih (k + n)
    | .error .closed => exact ih k

theorem map_snd_numbered (log : List (Except RecvError α)) :
    ∀ k, (numbered k log).map Prod.snd = returned log := by
  induction log with
  | nil => exact fun k => rfl
  | cons e log ih =>
    intro k
    match e with
    | .ok value => exact congrArg (value :: ·) (ih (k + 1))
    | .error (.lagged n) => exact ih (k + n)
    | .error .closed => exact ih k

/-! ## The ring buffer -/

theorem length_rtake (l : List α) (c : ℕ) : (l.rtake c).length = min c l.length := by
  rw [List.rtake, length_drop]
  omega

theorem rtake_push (l : List α) {c : ℕ} (hc : 0 < c) (value : α) :
    (if (l.rtake c).length = c then (l.rtake c).tail else l.rtake c) ++ [value] =
      (l ++ [value]).rtake c := by
  obtain ⟨n, rfl⟩ := Nat.exists_eq_succ_of_ne_zero (ne_of_gt hc)
  rw [Nat.succ_eq_add_one, rtake_concat_succ, length_rtake]
  congr 1
  by_cases hlen : n + 1 ≤ l.length
  · rw [if_pos (min_eq_left hlen), List.rtake, List.rtake, tail_drop]
    congr 1
    omega
  · rw [if_neg (by omega), List.rtake, List.rtake]
    congr 1
    omega

/-! ## A receiver and the history -/

/-- The log of a receiver is what was sent, from where it subscribed to its cursor. -/
structure Receiver.Follows (rcv : Receiver α) (sent : List α) : Prop where
  position : rcv.nextToRead = cursor rcv.subscribed rcv.log
  within : rcv.nextToRead ≤ sent.length
  messages : ∀ p ∈ numbered rcv.subscribed rcv.log, sent[p.1]? = some p.2

namespace Receiver

variable {rcv : Receiver α} {sent : List α}

theorem Follows.snoc (h : rcv.Follows sent) (value : α) : rcv.Follows (sent ++ [value]) := by
  refine ⟨h.position, ?_, fun p hp => append_of_some (h.messages p hp) _⟩
  rw [length_append]
  exact Nat.le_add_right_of_le h.within

theorem Follows.ready (h : rcv.Follows sent) {n : ℕ} {result : Except RecvError α}
    (hn : n = cursor rcv.nextToRead [result]) (hle : n ≤ sent.length)
    (hm : ∀ p ∈ numbered rcv.nextToRead [result], sent[p.1]? = some p.2) :
    (rcv.record n (.ready result)).Follows sent := by
  refine ⟨?_, hle, ?_⟩
  · change n = cursor rcv.subscribed (rcv.log ++ [result])
    rw [cursor_append, ← h.position]
    exact hn
  · intro p hp
    change p ∈ numbered rcv.subscribed (rcv.log ++ [result]) at hp
    rw [numbered_append, ← h.position] at hp
    rcases mem_append.mp hp with hp | hp
    · exact h.messages p hp
    · exact hm p hp

end Receiver

namespace World

/-- The buffer is the end of what was sent, and every receiver follows it. -/
structure Kept (capacity : ℕ) (w : World α) : Prop where
  senders : w.inner.sendersAlive = w.senders
  room : w.inner.capacity = capacity
  numbered : w.inner.nextSeq = w.sent.length
  buffered : w.inner.buffer = w.sent.rtake capacity
  follows : ∀ rcv ∈ w.receivers, rcv.Follows w.sent
  ended : ∀ rcv ∈ w.receivers, .error .closed ∈ rcv.log →
    w.senders = 0 ∧ rcv.nextToRead = w.inner.nextSeq

section Kept

variable {capacity : ℕ} {w v : World α} {l : Label α} {result : Except TryRecvError α}
  {rcv : Receiver α} {n r : ℕ} {inner : Inner α}

theorem Kept.baseSeq (h : w.Kept capacity) : w.inner.baseSeq = w.sent.length - capacity := by
  rw [Inner.baseSeq, h.numbered, h.buffered, length_rtake]
  omega

theorem Kept.follows_record (h : w.Kept capacity) (hrcv : rcv ∈ w.receivers)
    (hn : w.inner.Reads rcv.nextToRead n result) :
    (rcv.record n (toPoll result)).Follows w.sent := by
  have hf := h.follows rcv hrcv
  cases hn with
  | lagged hb =>
    refine hf.ready ?_ ?_ fun p hp => absurd hp not_mem_nil
    · rw [cursor_lagged, cursor_nil]
      omega
    · rw [h.baseSeq]
      omega
  | @ok value hb hv hn =>
    rw [h.numbered] at hn
    refine hf.ready (by rw [cursor_ok, cursor_nil]) hn fun p hp => ?_
    rw [mem_singleton.mp hp]
    -- the index into the buffer is the sequence number, less that of the oldest
    rw [h.buffered, h.baseSeq, List.rtake, getElem?_drop] at hv
    rw [h.baseSeq] at hb
    rwa [Nat.add_sub_cancel' hb] at hv
  | closed hn ha =>
    exact hf.ready (by rw [cursor_closed, cursor_nil]) hf.within
      fun p hp => absurd hp not_mem_nil
  | empty hn ha => exact hf

theorem Kept.ended_record (h : w.Kept capacity) (hrcv : rcv ∈ w.receivers)
    (hn : w.inner.Reads rcv.nextToRead n result)
    (hc : .error .closed ∈ (rcv.record n (toPoll result)).log) :
    w.senders = 0 ∧ (rcv.record n (toPoll result)).nextToRead = w.inner.nextSeq := by
  have hwithin := (h.follows rcv hrcv).within
  rw [← h.numbered] at hwithin
  -- if it was returned before, there is nothing to read and nobody to send
  have hbefore : .error .closed ∈ rcv.log → w.senders = 0 ∧ rcv.nextToRead = w.inner.nextSeq :=
    h.ended rcv hrcv
  cases hn with
  | lagged hb =>
    have hold := hbefore ((mem_append.mp hc).resolve_right (by simp))
    have hbase : w.inner.baseSeq ≤ w.inner.nextSeq := Nat.sub_le _ _
    omega
  | ok hb hv hn =>
    have hold := hbefore ((mem_append.mp hc).resolve_right (by simp))
    omega
  | closed hn ha => exact ⟨h.senders ▸ ha, le_antisymm hwithin hn⟩
  | empty hn ha => exact hbefore hc

theorem Kept.of_receiver (h : w.Kept capacity) (hf : rcv.Follows w.sent)
    (he : .error .closed ∈ rcv.log → w.senders = 0 ∧ rcv.nextToRead = w.inner.nextSeq)
    (alive : ℕ) (wakers : List ℕ) (t : List (Sleeper ℕ)) : Kept capacity { w with
        inner := { w.inner with waiters := wakers, receiversAlive := alive }
        receivers := w.receivers.set r rcv
        futures := t } := by
  refine ⟨h.senders, h.room, h.numbered, h.buffered, ?_, ?_⟩
  · intro rcv' hrcv'
    rcases mem_or_eq_of_mem_set hrcv' with hrcv' | rfl
    · exact h.follows rcv' hrcv'
    · exact hf
  · intro rcv' hrcv' hc
    rcases mem_or_eq_of_mem_set hrcv' with hrcv' | rfl
    · exact h.ended rcv' hrcv' hc
    · exact he hc

theorem Kept.of_reads (h : w.Kept capacity) (hr : w.receivers[r]? = some rcv)
    (hn : w.inner.Reads rcv.nextToRead n result) (wakers : List ℕ) (t : List (Sleeper ℕ)) :
    Kept capacity { w with
        inner := { w.inner with waiters := wakers }
        receivers := w.receivers.set r (rcv.record n (toPoll result))
        futures := t } := by
  have hrcv := mem_of_getElem? hr
  exact h.of_receiver (h.follows_record hrcv hn) (h.ended_record hrcv hn)
    w.inner.receiversAlive wakers t

theorem Kept.of_senders (h : w.Kept capacity) (hs : w.senders ≠ 0) (n : ℕ) (wakers : List ℕ)
    (hands : List (List ℕ)) : Kept capacity { w with
        inner := { w.inner with sendersAlive := n, waiters := wakers }
        senders := n
        hands := hands } := by
  refine ⟨rfl, h.room, h.numbered, h.buffered, h.follows, ?_⟩
  intro rcv hrcv hc
  exact absurd (h.ended rcv hrcv hc).1 hs

theorem kept_of_step (hc : 0 < capacity) (h : w.Kept capacity) (hs : Steps w l v) :
    v.Kept capacity := by
  cases hs with
  | @send value hs hr =>
    refine ⟨h.senders, h.room, ?_, ?_, fun rcv hrcv => (h.follows rcv hrcv).snoc value, ?_⟩
    · change w.inner.nextSeq + 1 = (w.sent ++ [value]).length
      rw [h.numbered, length_append]
      rfl
    · change (if w.inner.buffer.length = w.inner.capacity then _ else _) ++ [value] = _
      rw [h.buffered, h.room]
      exact rtake_push w.sent hc value
    · intro rcv hrcv hclosed
      exact absurd (h.ended rcv hrcv hclosed).1 hs
  | subscribe hs =>
    refine ⟨h.senders, h.room, h.numbered, h.buffered, ?_, ?_⟩
    · intro rcv hrcv
      rcases mem_append.mp hrcv with hrcv | hrcv
      · exact h.follows rcv hrcv
      · rw [mem_singleton.mp hrcv]
        exact ⟨rfl, le_of_eq h.numbered, fun p hp => absurd hp not_mem_nil⟩
    · intro rcv hrcv hclosed
      rcases mem_append.mp hrcv with hrcv | hrcv
      · exact h.ended rcv hrcv hclosed
      · rw [mem_singleton.mp hrcv] at hclosed
        cases hclosed
  | cloneSender hs =>
    rw [h.senders]
    exact h.of_senders hs (w.senders + 1) w.inner.waiters w.hands
  | dropLast hs ha =>
    rw [h.senders] at ha
    rw [ha]
    exact h.of_senders hs 0 [] (w.hands ++ [w.inner.waiters])
  | dropSender hs ha =>
    rw [h.senders]
    exact h.of_senders hs (w.senders - 1) w.inner.waiters (w.hands ++ [[]])
  | upgrade ha =>
    rw [h.senders]
    exact h.of_senders (h.senders ▸ ha) (w.senders + 1) w.inner.waiters w.hands
  | @dropReceiver r rcv hr ha =>
    have hrcv := mem_of_getElem? hr
    have hfollows := h.follows rcv hrcv
    refine h.of_receiver ?_ ?_ (w.inner.receiversAlive - 1) w.inner.waiters w.futures
    · exact ⟨hfollows.position, hfollows.within, hfollows.messages⟩
    · exact h.ended rcv hrcv
  | tryRecv hr hn => exact h.of_reads hr hn w.inner.waiters w.futures
  | finish hi hr hn hp => exact h.of_reads hr hn w.inner.waiters _
  | @park i waker f rcv hi hr hn ha =>
    exact h.of_reads hr (.empty hn ha) (w.inner.waiters ++ [waker]) _
  | weak n | wakeNext hk | recv | drop hi =>
    exact ⟨h.senders, h.room, h.numbered, h.buffered, h.follows, h.ended⟩
  | fails => exact h

theorem kept_init (h : Inner.channel capacity = some inner) :
    0 < capacity ∧ (broadcast inner).init.Kept capacity := by
  obtain ⟨hc, rfl⟩ := of_guard h
  refine ⟨hc, rfl, rfl, rfl, (rtake_nil capacity).symm, ?_, ?_⟩
  · intro rcv hrcv
    rw [mem_singleton.mp hrcv]
    exact ⟨rfl, le_refl 0, fun p hp => absurd hp not_mem_nil⟩
  · intro rcv hrcv hclosed
    rw [mem_singleton.mp hrcv] at hclosed
    cases hclosed

theorem kept_of_reachable (hi : Inner.channel capacity = some inner)
    (h : (broadcast inner).Reachable w) : w.Kept capacity :=
  System.inv_of_reachable (kept_init hi).2
    (fun _ _ _ h hs => kept_of_step (kept_init hi).1 h (steps_of_step hs)) h

theorem tryRecv_of_ended {s : Inner α} (ha : s.sendersAlive = 0) :
    s.tryRecv s.nextSeq = (s.nextSeq, .error .closed) := by
  have hb : ¬ s.nextSeq < s.baseSeq := not_lt.mpr (Nat.sub_le _ _)
  rw [Inner.tryRecv, dif_neg hb, dif_neg (lt_irrefl _), if_pos ha]

end Kept

/-- **Delivered or reported, exactly.**  For each receiver of every run: the messages returned and
the sum of all `Lagged(n)` add up to how far it has come; the messages are those sent at these
numbers; the buffer holds the last ones; `Closed` is final; and `recv` is ready just when
`try_recv` is not `Empty`, with the same result. -/
theorem delivers_or_reports {capacity : ℕ} {inner : Inner α}
    (hi : Inner.channel capacity = some inner) {w : World α} (h : (broadcast inner).Reachable w) :
    (∀ rcv ∈ w.receivers, rcv.subscribed ≤ rcv.nextToRead ∧
      (returned rcv.log).length + missed rcv.log = rcv.nextToRead - rcv.subscribed ∧
      (numbered rcv.subscribed rcv.log).map Prod.snd = returned rcv.log ∧
      ((numbered rcv.subscribed rcv.log).Pairwise fun p q => p.1 < q.1) ∧
      ∀ p ∈ numbered rcv.subscribed rcv.log, w.sent[p.1]? = some p.2) ∧
    (w.inner.nextSeq = w.sent.length ∧ w.inner.buffer <:+ w.sent ∧
      w.inner.buffer.length = min capacity w.inner.nextSeq) ∧
    (∀ rcv ∈ w.receivers, .error .closed ∈ rcv.log →
      w.senders = 0 ∧ rcv.nextToRead = w.inner.nextSeq ∧
      w.inner.tryRecv rcv.nextToRead = (rcv.nextToRead, .error .closed) ∧
      ∀ waker, w.inner.pollRecv rcv.nextToRead waker =
        (w.inner, rcv.nextToRead, .ready (.error .closed))) ∧ ∀ rcv ∈ w.receivers, ∀ waker,
      (w.inner.pollRecv rcv.nextToRead waker).2.1 = (w.inner.tryRecv rcv.nextToRead).1 ∧
      (w.inner.pollRecv rcv.nextToRead waker).2.2 = toPoll (w.inner.tryRecv rcv.nextToRead).2 := by
  have hk := kept_of_reachable hi h
  refine ⟨fun rcv hrcv => ?_, ⟨hk.numbered, ?_, ?_⟩, fun rcv hrcv hclosed => ?_,
    fun rcv _ waker => ?_⟩
  · have hf := hk.follows rcv hrcv
    have hpos := hf.position
    rw [cursor] at hpos
    exact ⟨by omega, by omega, map_snd_numbered rcv.log rcv.subscribed,
      pairwise_numbered rcv.log rcv.subscribed, hf.messages⟩
  · rw [hk.buffered]
    exact drop_suffix _ _
  · rw [hk.buffered, length_rtake, hk.numbered]
  · obtain ⟨hs, hn⟩ := hk.ended rcv hrcv hclosed
    have htry : w.inner.tryRecv rcv.nextToRead = (rcv.nextToRead, .error .closed) := by
      rw [hn]
      exact tryRecv_of_ended (hk.senders.trans hs)
    refine ⟨hs, hn, htry, fun waker => ?_⟩
    rw [Inner.pollRecv_eq, htry]
    rfl
  · rw [Inner.pollRecv_eq]
    exact ⟨rfl, rfl⟩

theorem delivers_or_reports_after_lag :
    ∃ w : World ℕ, (broadcast ⟨[], 2, 0, [], 1, 1⟩).Reachable w ∧ w.receivers.map Receiver.log =
        [[.error (.lagged 1), .ok 20, .ok 30, .error .closed], [.ok 30]] ∧
      w.inner.buffer <:+ w.sent ∧ w.sent = [10, 20, 30] ∧
      (∀ rcv ∈ w.receivers, .error .closed ∈ rcv.log → w.senders = 0) := by
  have hw : (broadcast ⟨[], 2, 0, [], 1, 1⟩).Reachable
      (⟨⟨[20, 30], 2, 3, [], 0, 2⟩, 0, 1,
        [⟨3, true, 0, [.error (.lagged 1), .ok 20, .ok 30, .error .closed]⟩,
          ⟨3, true, 2, [.ok 30]⟩],
        [⟨0, 7, .finished⟩, ⟨1, 8, .parked true⟩], [[], [], [], []], [10, 20, 30]⟩ : World ℕ) :=
    ⟨[.send 10, .send 20, .subscribe, .downgrade, .send 30, .tryRecv 0, .tryRecv 0, .recv 0,
      .poll 0 7, .tryRecv 1, .recv 1, .poll 1 8, .dropSender, .wakeNext 3, .upgrade,
      .tryRecv 0], rfl⟩
  obtain ⟨-, ⟨-, hbuffer, -⟩, hclosed, -⟩ := @delivers_or_reports _ 2 _ rfl _ hw
  exact ⟨_, hw, rfl, hbuffer, rfl, fun rcv hrcv hlog => (hclosed rcv hrcv hlog).1⟩

end World

end RustyTokio.Broadcast

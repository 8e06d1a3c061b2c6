import RustyTokio.Transition.Ring

/-!
# A full ring under `IoUringDriver`

`drain_pending` of `src/io/uring_fs.rs`: it takes every entry out of `pending` and offers each of
them to the ring once, with any outcome of the submit that a full ring asks for.
-/

namespace RustyTokio.UringDriver

open Transition List

variable {α : Type}

structure Queues (α : Type) where
  pending : List α
  ring : SubmitRing α

/-- The entries in turn; `ok k` is the outcome of the submit for the entry at `k`. -/
def pushAll (capacity : ℕ) (ok : ℕ → Bool) (r : SubmitRing α) : List α → SubmitRing α
  | [] => r
  | e :: es => pushAll capacity (fun k => ok (k + 1)) (r.offer capacity (ok 0) e) es

def Queues.drainPending (capacity : ℕ) (ok : ℕ → Bool) (q : Queues α) : Queues α :=
  ⟨[], pushAll capacity ok q.ring q.pending⟩

/-- How many entries find the ring still full after the submit. -/
def failures (capacity : ℕ) (ok : ℕ → Bool) (r : SubmitRing α) : List α → ℕ
  | [] => 0
  | e :: es =>
    (r.loses capacity (ok 0)).toNat +
      failures capacity (fun k => ok (k + 1)) (r.offer capacity (ok 0) e) es

theorem kept_of_pushAll (capacity : ℕ) (es : List α) : ∀ (ok : ℕ → Bool) (r : SubmitRing α),
    ∃ kept, kept.Sublist es ∧ (pushAll capacity ok r es).entries = r.entries ++ kept ∧
      kept.length + failures capacity ok r es = es.length := by
  induction es with
  | nil => exact fun ok r => ⟨[], .slnil, (append_nil _).symm, rfl⟩
  | cons e es ih =>
    intro ok r
    obtain ⟨kept, hsub, hentries, hlen⟩ := ih (fun k => ok (k + 1)) (r.offer capacity (ok 0) e)
    rw [SubmitRing.entries_offer] at hentries
    rw [pushAll, hentries, failures]
    cases r.loses capacity (ok 0) with
    | true =>
      refine ⟨kept, hsub.cons e, by simp, ?_⟩
      rw [Bool.toNat_true, length_cons]
      omega
    | false =>
      refine ⟨e :: kept, hsub.cons_cons e, by simp, ?_⟩
      rw [Bool.toNat_false, length_cons, length_cons]
      omega

/-- Every failed submit costs the entry that it was made for. -/
theorem drains_unless_submit_fails (capacity : ℕ) (ok : ℕ → Bool) (q : Queues α) :
    (q.drainPending capacity ok).pending = [] ∧
      ∃ kept, kept.Sublist q.pending ∧
        (q.drainPending capacity ok).ring.entries = q.ring.entries ++ kept ∧
        kept.length + failures capacity ok q.ring q.pending = q.pending.length ∧
        (failures capacity ok q.ring q.pending = 0 ↔ kept = q.pending) := by
  obtain ⟨kept, hsub, hentries, hlen⟩ := kept_of_pushAll capacity q.pending ok q.ring
  refine ⟨rfl, kept, hsub, hentries, hlen, fun h => hsub.eq_of_length (by omega), fun h => ?_⟩
  rw [h] at hlen
  omega

theorem exists_dropped_entry : ∃ q : Queues ℕ,
    q.drainPending 2 (fun _ => false) = ⟨[], ⟨[1, 2], []⟩⟩ ∧ 3 ∈ q.pending :=
  ⟨⟨[3], ⟨[1, 2], []⟩⟩, rfl, by decide⟩

end RustyTokio.UringDriver

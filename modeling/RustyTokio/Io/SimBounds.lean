import RustyTokio.Io.SimDriver

/-!
# `SimDriver` at the end of a file, and where it panics

`read_at` cuts the number of bytes to what is left of the file, but takes its slice at the position
it was given: past the end the index panics, with the lock held.  `write_at` grows the file to the
end of the write before it looks at the bytes, so that an empty write past the end makes it longer.

The other panics are overflows: a sum that is no `u64`, or a `Vec` longer than `isize::MAX`.  All of
them leave the state as it was but the last, which has counted the bytes.

## Main results

* `panics_of_apply`: all that a call can leave which panics, with `Panics` as the list of its cases.
* `inv_of_reachableUnder`: invariants of runs in which no `Vec` becomes too long.
* `posix_within_length`: up to the end of a file, reads and empty writes are those of POSIX, and
  past the end they are not.
-/

namespace RustyTokio.Sim

open Transition List Option Bool Finmap SimState

namespace SimState

variable {P : Type} [DecidableEq P]

section

variable {s t : SimState P} {op : Op P} {handle newLen pos len : ℕ} {file : SimFile}

namespace Panics

theorem cause (h : s.Panics op t) : s.pastEnd op ∨ s.overflows op := by
  cases h with
  | pastEnd h => exact .inl h
  | overflowed h => exact .inr h
  | overran hop hf hx =>
    rw [overflows_of_asksFor hop hf]
    exact .inr (decide_eq_true (.inr hx))

theorem eq_of_not_overlong (h : s.Panics op t) (hx : s.overlong op = false) : t = s := by
  cases h with
  | pastEnd | overflowed => rfl
  | overran hop hf hover =>
    rw [overlong, asks_eq hop hf, decide_eq_false_iff_not] at hx
    exact if_neg fun hlt => hx ⟨hover, hlt⟩

theorem le_capacity {cap : ℕ} (h : s.Panics op t) (hlt : s.bytesUsed < t.bytesUsed)
    (hcap : t.capacityBytes = some cap) : t.bytesUsed ≤ cap := by
  cases h with
  | pastEnd | overflowed => exact absurd hlt (lt_irrefl _)
  | overran hop hf hover =>
    rw [overrun] at hlt hcap ⊢
    split at hlt
    next hsum =>
      rw [if_pos hsum] at hcap ⊢
      obtain ⟨-, hroom⟩ := hover.2.resolve_left (not_le.mpr hsum)
      exact le_of_not_gt fun hgt => hroom ⟨hover.1, cap, hcap, hgt⟩
    · exact absurd hlt (lt_irrefl _)

end Panics

omit [DecidableEq P] in
theorem wrote_nil (hf : s.files.lookup handle = some file) (hle : pos ≤ file.data.length) :
    s.wrote handle file [] pos = { s with tornWrite := none } := by
  have hpad : file.data.rightpad pos 0 = file.data := by
    rw [List.rightpad, Nat.sub_eq_zero_of_le hle, replicate_zero, append_nil]
  have hwritten : file.written pos [] pos = file := by
    simp only [SimFile.written, hpad, append_nil, length_nil, add_zero, take_append_drop]
  simp only [wrote, take_nil, length_nil, add_zero, hwritten,
    FiniteMap.insert_of_lookup hf, Nat.sub_eq_zero_of_le hle]

end

end SimState

namespace SimDriver

variable {P : Type} [DecidableEq P] {d : SimDriver P}

theorem poisoned_call {op : Op P} {t : SimState P} (hp : d.poisoned = false)
    (ha : op.apply d.inner = (t, none)) : d.call op = (⟨t, true⟩, .panicked) := by
  rw [call, if_neg (by simp [hp]), ha]

theorem inner_call_cases (d : SimDriver P) (op : Op P) :
    (d.call op).1.inner = d.inner ∨ d.inner.Panics op (d.call op).1.inner ∨
      ∃ r, d.inner.Steps op (d.call op).1.inner r := by
  rw [call]
  split
  · exact .inl rfl
  · split
    next t r ha => exact .inr (.inr ⟨r, steps_of_apply ha⟩)
    next t ha => exact .inr (.inl (panics_of_apply ha))

/-- What every call keeps that returns holds as long as no call makes a `Vec` too long: no other
panic changes anything. -/
theorem inv_of_reachableUnder {I : SimState P → Prop} (h0 : I .empty)
    (hstep : ∀ s op t r, I s → SimState.Steps s op t r → I t)
    (h : (driver P).ReachableUnder (fun d op => d.inner.overlong op = false) d) : I d.inner := by
  refine System.inv_of_reachableUnder (I := fun d => I d.inner) h0 (fun d op v hI hx hs => ?_) h
  cases hs
  rcases inner_call_cases d op with heq | hpanic | ⟨r, hr⟩
  · exact heq ▸ hI
  · rw [hpanic.eq_of_not_overlong hx]
    exact hI
  · exact hstep _ _ _ _ hI hr

theorem sound_lock_of_reachableUnder (h : (driver P).ReachableUnder
      (fun d op => d.inner.pastEnd op = false ∧ d.inner.overflows op = false) d) :
    d.poisoned = false := by
  refine System.inv_of_reachableUnder (I := fun d => d.poisoned = false) rfl ?_ h
  rintro d op v hp ⟨hend, hadd⟩ hs
  cases hs
  rcases ha : op.apply d.inner with ⟨t, _ | r⟩
  · rcases (panics_of_apply ha).cause with he | he
    · cases hend.symm.trans he
    · cases hadd.symm.trans he
  · rw [call_of_apply hp ha]

section

variable {handle pos : ℕ} {file : SimFile}

theorem readAt_within (hp : d.poisoned = false) (hc : handle ∉ d.inner.closed)
    (hf : d.inner.files.lookup handle = some file) (hle : pos ≤ file.data.length) (bufLen : ℕ) :
    (d.call (.readAt handle bufLen pos)).2 ≠ .panicked ∧ (pos = file.data.length →
        d.call (.readAt handle bufLen pos) = (d, .returned (.ok (.read 0 [])))) := by
  rw [call_of_apply hp (apply_readAt _ hc hf hle)]
  refine ⟨by simp, ?_⟩
  rintro rfl
  rw [Nat.sub_self, Nat.zero_min, resultToIo_asI32 (by decide), take_zero, ← eq_of_sound hp]
  rfl

theorem writeAt_nil_within (hp : d.poisoned = false) (hc : handle ∉ d.inner.closed)
    (hf : d.inner.files.lookup handle = some file) (hle : pos ≤ file.data.length)
    (hpos : pos < 2 ^ 64) : d.call (.writeAt handle [] pos) =
      (⟨{ d.inner with tornWrite := none }, false⟩, .returned (.ok (.count 0))) := by
  have hx : ¬ d.inner.Exceeds file (pos + ([] : List UInt8).length) :=
    not_or.mpr ⟨not_le.mpr hpos, fun hx => absurd hx.1 (not_lt.mpr hle)⟩
  have hroom : ¬ d.inner.Full file (pos + ([] : List UInt8).length) :=
    fun hfull => absurd hfull.1 (not_lt.mpr hle)
  rw [call_of_apply hp (apply_writeAt hc hf hx hroom), wrote_nil hf hle,
    length_nil, resultToIo_asI32 (by decide)]
  rfl

theorem longer_of_writeAt_nil (hf : d.inner.files.lookup handle = some file)
    (hlt : file.data.length < pos)
    (h : (d.call (.writeAt handle [] pos)).2 = .returned (.ok (.count 0))) :
    (d.call (.writeAt handle [] pos)).1.inner.files.lookup handle ≠ some file := by
  obtain ⟨-, t, ha, heq⟩ := of_returned h
  generalize hr : (Except.ok (.count 0) : Except Error Value) = r at ha
  rw [heq]
  cases steps_of_apply ha with
  | failed he => cases hr
  | configured ht => cases ht
  | @wrote handle pos src file' hc hf' ha' hstop =>
    cases hf.symm.trans hf'
    have hlen : (file.written pos [] (pos + ([] : List UInt8).length)).data.length =
        max file.data.length (pos + ([] : List UInt8).length) :=
      SimFile.length_written file le_rfl
    intro hsame
    simp only [SimState.wrote, lookup_insert, take_nil, some.injEq] at hsame
    rw [hsame, length_nil] at hlen
    omega

end

/-- **The end of a file.**  As long as no read starts past the end of an open file and no addition
overflows, no call panics; up to the end a read does not panic and an empty write changes nothing.
Past the end every read panics and poisons the driver, and no empty write does what it should. -/
theorem posix_within_length (d : SimDriver P) : ((driver P).ReachableUnder
      (fun d op => d.inner.pastEnd op = false ∧ d.inner.overflows op = false) d →
      d.poisoned = false) ∧ ∀ handle file pos, d.poisoned = false → handle ∉ d.inner.closed →
      d.inner.files.lookup handle = some file → pos < 2 ^ 64 → (pos ≤ file.data.length →
        (∀ bufLen, (d.call (.readAt handle bufLen pos)).2 ≠ .panicked ∧ (pos = file.data.length →
            d.call (.readAt handle bufLen pos) = (d, .returned (.ok (.read 0 []))))) ∧
        (d.call (.writeAt handle [] pos)).2 = .returned (.ok (.count 0)) ∧
        (d.call (.writeAt handle [] pos)).1.inner.files = d.inner.files ∧
        (d.call (.writeAt handle [] pos)).1.inner.bytesUsed = d.inner.bytesUsed) ∧
      (file.data.length < pos → (∀ bufLen, d.call (.readAt handle bufLen pos) =
          ({ d with poisoned := true }, .panicked)) ∧
        ¬ ((d.call (.writeAt handle [] pos)).2 = .returned (.ok (.count 0)) ∧
          (d.call (.writeAt handle [] pos)).1.inner.files.lookup handle = some file)) := by
  refine ⟨sound_lock_of_reachableUnder, fun handle file pos hp hc hf hpos => ⟨fun hle => ?_, ?_⟩⟩
  · have hwrite := writeAt_nil_within hp hc hf hle hpos
    exact ⟨readAt_within hp hc hf hle, by rw [hwrite], by rw [hwrite], by rw [hwrite]⟩
  · intro hlt
    refine ⟨fun bufLen => poisoned_call hp (apply_readAt_eq_none hc hf hlt), ?_⟩
    rintro ⟨hzero, hsame⟩
    exact longer_of_writeAt_nil hf hlt hzero hsame

theorem posix_at_end_of_two :
    ∃ d, (driver ℕ).run .new [.open 7 ⟨true, false, false⟩, .writeAt 0 [1, 2] 0] = some d ∧
      d.poisoned = false ∧ d.call (.readAt 0 4 2) = (d, .returned (.ok (.read 0 []))) ∧
      (d.call (.writeAt 0 [] 2)).2 = .returned (.ok (.count 0)) ∧
      (d.call (.readAt 0 4 3)).2 = .panicked := by
  refine Exists.imp (fun d hrun => ⟨hrun, ?_⟩) ⟨_, rfl⟩
  obtain ⟨hlock, hbound⟩ := posix_within_length d
  have hp := hlock ⟨_, hrun, by decide⟩
  cases hrun
  have hin := (hbound 0 _ 2 hp (by decide) rfl (by decide)).1 (by decide)
  have hout := (hbound 0 _ 3 hp (by decide) rfl (by decide)).2 (by decide)
  exact ⟨hp, (hin.1 4).2 rfl, hin.2.1, by rw [hout.1 4]⟩

/-- A read one byte past the end panics, and so does every call after it; an empty write past the
end returns `0` with the file longer by one byte, which is counted. -/
theorem exists_past_end :
    ∃ d, (driver ℕ).run .new [.open 7 ⟨true, false, false⟩, .writeAt 0 [1, 2] 0] = some d ∧
      (d.call (.readAt 0 4 3)).2 = .panicked ∧
      (∀ op, ((d.call (.readAt 0 4 3)).1.call op).2 = .panicked) ∧
      (d.call (.writeAt 0 [] 3)).2 = .returned (.ok (.count 0)) ∧
      (d.call (.writeAt 0 [] 3)).1.inner.files.lookup 0 = some ⟨[1, 2, 0], 0⟩ ∧
      d.inner.bytesUsed = 2 ∧ (d.call (.writeAt 0 [] 3)).1.inner.bytesUsed = 3 :=
  ⟨_, rfl, rfl, fun _ => rfl, rfl, rfl, rfl, rfl⟩

end SimDriver

end RustyTokio.Sim

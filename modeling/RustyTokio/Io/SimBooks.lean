import RustyTokio.Io.SimBounds

/-!
# The books of a `SimDriver`

The driver keeps two maps and three kinds of number beside the bytes of its files: the count of
all bytes, a mark in each file, and the next handle.  Each method updates them by hand.

`Sound` says that they agree with each other, and every call that returns keeps it.  A call that
panics changes nothing, unless it makes a `Vec` too long: that one has counted bytes which the file
does not get.

## Main results

* `sound_of_steps`: a call that returns keeps the books sound.
* `books_balance`: the books of every run in which no `Vec` becomes too long.
* `exists_unbalanced`: a `fallocate` of `2 ^ 63` bytes breaks them, and the lock is poisoned.
-/

namespace RustyTokio.Sim

open Transition List Finmap FiniteMap SimState

namespace SimState

variable {P : Type} [DecidableEq P]

/-- The books agree: `bytes_used` with the lengths, each mark with its file, the paths with the
files, and the next handle with those in use. -/
structure Sound (s : SimState P) : Prop where
  used : s.bytesUsed = s.stored
  durable : ∀ handle file, s.files.lookup handle = some file → file.durableLen ≤ file.data.length
  indexes : FiniteMap.Indexes s.paths s.files
  fresh : ∀ handle, handle ∈ s.files → handle < s.nextHandle

theorem sound_empty : (empty : SimState P).Sound := by
  refine ⟨rfl, fun handle file hf => ?_, ⟨fun p i hp => ?_, fun p q i hp => ?_, fun i hi => ?_⟩,
    fun handle hi => ?_⟩
  · simp [empty] at hf
  · simp [empty] at hp
  · simp [empty] at hp
  · exact absurd hi notMem_empty
  · exact absurd hi notMem_empty

section

variable {s t : SimState P} {handle : ℕ} {file : SimFile} {op : Op P} {r : Except Error Value}

section

variable (h : s.Sound)

include h

theorem Sound.length_le (hf : s.files.lookup handle = some file) :
    file.data.length ≤ s.bytesUsed := by
  rw [h.used, stored]
  exact le_total (fun file => file.data.length) hf

theorem Sound.congr (hp : t.paths = s.paths) (hf : t.files = s.files)
    (hn : t.nextHandle = s.nextHandle) (hu : t.bytesUsed = s.bytesUsed) : t.Sound := by
  refine ⟨?_, ?_, ?_, ?_⟩
  · rw [hu, h.used, stored, stored, hf]
  · rw [hf]
    exact h.durable
  · rw [hp, hf]
    exact h.indexes
  · rw [hf, hn]
    exact h.fresh

theorem Sound.change {file' : SimFile} (hf : s.files.lookup handle = some file)
    (hd : file'.durableLen ≤ file'.data.length) (hfiles : t.files = s.files.insert handle file')
    (hp : t.paths = s.paths) (hn : t.nextHandle = s.nextHandle)
    (hu : t.bytesUsed + file.data.length = s.bytesUsed + file'.data.length) : t.Sound := by
  have hmem : ∀ i, i ∈ s.files.insert handle file' ↔ i ∈ s.files := by
    intro i
    rw [mem_insert]
    refine ⟨fun hi => hi.elim (fun he => he ▸ mem_of_lookup_eq_some hf) id, .inr⟩
  refine ⟨?_, ?_, ?_, ?_⟩
  · have htotal := total_replace (c := file') (fun file => file.data.length) hf
    have hused := h.used
    rw [stored] at hused ⊢
    rw [hfiles]
    omega
  · rw [hfiles]
    exact forall_insert hd h.durable
  · rw [hp, hfiles]
    exact h.indexes.congr hmem
  · rw [hfiles, hn]
    exact fun i hi => h.fresh i ((hmem i).mp hi)

theorem Sound.discard {paths : FiniteMap P ℕ}
    (hindexes : FiniteMap.Indexes paths (s.files.erase handle)) (hmem : handle ∈ s.files) :
    ({ s with paths := paths }.discard handle).Sound := by
  obtain ⟨file, hf⟩ := mem_iff.mp hmem
  simp only [SimState.discard, hf]
  refine ⟨?_, fun i f hi => ?_, hindexes, fun i hi => ?_⟩
  · have htotal := total_erase (fun file : SimFile => file.data.length) hf
    have hused := h.used
    simp only [stored] at hused ⊢
    omega
  · exact h.durable i f (of_lookup_erase hi).2
  · exact h.fresh i (mem_erase.mp hi).2

theorem Sound.grown (hf : s.files.lookup handle = some file) (newLen : ℕ) :
    (s.grown handle file newLen).Sound := by
  have hlen := SimFile.length_resize file newLen
  have hd := h.durable handle file hf
  refine h.change hf ?_ rfl rfl rfl ?_
  · rw [hlen]
    exact le_trans hd (le_max_left _ _)
  · simp only [SimState.grown, hlen]
    omega

theorem Sound.wrote (hf : s.files.lookup handle = some file) (src : List UInt8)
    (pos : ℕ) : (s.wrote handle file src pos).Sound := by
  have hle : pos + (src.take (s.applyLen src.length)).length ≤ pos + src.length :=
    Nat.add_le_add_left (length_take_le' _ _) _
  have hlen := SimFile.length_written file hle
  have hd := h.durable handle file hf
  refine h.change hf ?_ rfl rfl rfl ?_
  · rw [hlen]
    exact le_trans hd (le_max_left _ _)
  · simp only [SimState.wrote, hlen]
    omega

theorem Sound.created {path : P} (hp : s.paths.lookup path = none)
    (closed : Finset ℕ) : Sound { s with
      nextHandle := s.nextHandle + 1
      paths := s.paths.insert path s.nextHandle
      files := s.files.insert s.nextHandle .empty
      closed := closed } := by
  have hnew : s.nextHandle ∉ s.files := fun hmem => lt_irrefl _ (h.fresh _ hmem)
  refine ⟨?_, forall_insert (le_refl 0) h.durable, h.indexes.insert hp hnew _, fun i hi => ?_⟩
  · have htotal := total_insert (b := SimFile.empty)
      (fun file : SimFile => file.data.length) (lookup_eq_none.mpr hnew)
    exact h.used.trans htotal.symm
  · rcases mem_insert.mp hi with rfl | hi
    · exact Nat.lt_succ_self _
    · exact Nat.lt_succ_of_lt (h.fresh i hi)

theorem Sound.reopened : s.reopened.Sound := by
  have hlookup := fun i => lookup_mapValues (m := s.files) SimFile.durable i
  have hmem : ∀ i, i ∈ s.files.mapValues SimFile.durable ↔ i ∈ s.files := by
    intro i
    rw [← lookup_isSome, hlookup, Option.isSome_map, lookup_isSome]
  refine ⟨rfl, fun i f hi => ?_, h.indexes.congr hmem, fun i hi => h.fresh i ((hmem i).mp hi)⟩
  obtain ⟨file, -, rfl⟩ := Option.map_eq_some_iff.mp ((hlookup i).symm.trans hi)
  exact le_refl _

end

theorem sound_of_steps (h : s.Sound) (hs : s.Steps op t r) : t.Sound := by
  cases hs with
  | failed he | read hc hf hpos | lied hc hl => exact h
  | created hp hn => exact h.created hp _
  | opened hp ht | closed => exact h.congr rfl rfl rfl rfl
  | truncated hp hf ht hx =>
    refine h.change hf (le_refl 0) rfl rfl rfl ?_
    exact Nat.sub_add_cancel (h.length_le hf)
  | wrote hc hf ha hstop => exact h.wrote hf _ _
  | synced hc hl hf => exact h.change hf le_rfl rfl rfl rfl rfl
  | allocated hf ha | extended hf hle ha => exact h.grown hf _
  | @shrunk handle len file hf hlt =>
    have hle := h.length_le hf
    refine h.change hf ?_ rfl rfl rfl ?_ <;> simp only [SimFile.shrink, length_take]
    · omega
    · omega
  | @renamed source target handle hp ht =>
    have hnone : (s.paths.erase source).lookup target = none := by
      cases hold : (s.paths.erase source).lookup target with
      | none => rfl
      | some old =>
        -- a second path would have the same handle
        obtain ⟨hne, hold'⟩ := of_lookup_erase hold
        exact absurd (h.indexes.alone _ _ _ (ht old hold ▸ hold') hp) hne
    exact ⟨h.used, h.durable, h.indexes.move hp hnone, h.fresh⟩
  | replaced hp ht hne =>
    exact h.discard (h.indexes.replace hp ht)
      (h.indexes.named _ _ (of_lookup_erase ht).2)
  | removed hp => exact h.discard (h.indexes.erase hp) (h.indexes.named _ _ hp)
  | configured ht => cases ht <;> exact h.congr rfl rfl rfl rfl
  | crashed hu => exact h.reopened

theorem Sound.reopened_le (h : s.Sound) : s.reopened.bytesUsed ≤ s.bytesUsed := by
  have hlen : ∀ file : SimFile, file.durable.data.length ≤ file.data.length := by
    intro file
    simp only [SimFile.durable, length_take]
    exact min_le_right _ _
  rw [h.used, stored, SimState.reopened]
  exact total_mapValues_le (fun file => file.data.length) SimFile.durable hlen

omit [DecidableEq P] in
theorem bytesUsed_discard_le (s : SimState P) (handle : ℕ) :
    (s.discard handle).bytesUsed ≤ s.bytesUsed := by
  rw [discard]
  split
  · exact Nat.sub_le _ _
  · exact le_refl _

theorem le_capacity_of_steps {cap : ℕ} (h : s.Sound)
    (hs : s.Steps op t r) (hlt : s.bytesUsed < t.bytesUsed) (hcap : t.capacityBytes = some cap) :
    t.bytesUsed ≤ cap := by
  cases hs with
  | wrote hc hf ha hstop | allocated hf ha | extended hf hle ha => exact ha.le_capacity hlt hcap
  | truncated hp hf ht hx | shrunk hf hlt' => exact absurd hlt (not_lt.mpr (Nat.sub_le _ _))
  | replaced hp ht hne | removed hp => exact absurd hlt (not_lt.mpr (bytesUsed_discard_le _ _))
  | configured ht => cases ht <;> exact absurd hlt (lt_irrefl _)
  | crashed hu => exact absurd hlt (not_lt.mpr h.reopened_le)
  | failed | created | opened | read | synced | lied | closed | renamed =>
    exact absurd hlt (lt_irrefl _)

theorem bytesUsed_lt_of_steps (hlt : s.bytesUsed < 2 ^ 64)
    (hs : s.Steps op t r) : t.bytesUsed < 2 ^ 64 := by
  cases hs with
  | wrote hc hf ha hstop | allocated hf ha | extended hf hle ha => exact ha.lt hlt
  | truncated hp hf ht hx | shrunk hf hlt' => exact lt_of_le_of_lt (Nat.sub_le _ _) hlt
  | replaced hp ht hne | removed hp => exact lt_of_le_of_lt (bytesUsed_discard_le _ _) hlt
  | configured ht => cases ht <;> exact hlt
  | crashed hu => exact hu
  | failed | created | opened | read | synced | lied | closed | renamed => exact hlt

end

end SimState

namespace SimDriver

variable {P : Type} [DecidableEq P] {d : SimDriver P}

section

variable (h : (driver P).Reachable d) (hp : d.poisoned = false)

include h hp

theorem sound_of_reachable : d.inner.Sound :=
  inv_of_reachable sound_empty (fun _ _ _ _ hI hs => sound_of_steps hI hs) h hp

theorem bytesUsed_lt : d.inner.bytesUsed < 2 ^ 64 :=
  inv_of_reachable (I := fun s => s.bytesUsed < 2 ^ 64) (Nat.two_pow_pos 64)
    (fun _ _ _ _ hI hs => bytesUsed_lt_of_steps hI hs) h hp

theorem crash_returns :
    d.call .crashAndReopen = (⟨d.inner.reopened, false⟩, .returned (.ok .unit)) := by
  have hlt := lt_of_le_of_lt (sound_of_reachable h hp).reopened_le (bytesUsed_lt h hp)
  refine call_of_apply hp ?_
  rw [Op.apply, SimState.crashAndReopen, if_pos hlt]
  rfl

end

/-- **The books balance.**  After any calls, and after a crash, as long as no call would make a file
longer than a `Vec` can be: the count of the bytes is the sum of the lengths; no mark is past the
end of its file; paths and files belong to each other one to one; the next handle is new; and a call
that makes the count larger leaves it within the capacity. -/
theorem books_balance (d : SimDriver P)
    (h : (driver P).ReachableUnder (fun d op => d.inner.overlong op = false) d) :
    (d.inner.bytesUsed = d.inner.stored ∧ ∀ handle file, d.inner.files.lookup handle = some file →
        file.data.length ≤ d.inner.bytesUsed) ∧
    (∀ handle file, d.inner.files.lookup handle = some file → file.durableLen ≤ file.data.length) ∧
    FiniteMap.Indexes d.inner.paths d.inner.files ∧
    ((∀ handle, handle ∈ d.inner.files → handle < d.inner.nextHandle) ∧
      ∀ path handle, d.inner.paths.lookup path = some handle → handle < d.inner.nextHandle) ∧
    ∀ op cap, d.inner.bytesUsed < (d.call op).1.inner.bytesUsed →
      (d.call op).1.inner.capacityBytes = some cap → (d.call op).1.inner.bytesUsed ≤ cap := by
  have hs : d.inner.Sound :=
    inv_of_reachableUnder sound_empty (fun _ _ _ _ hI hst => sound_of_steps hI hst) h
  refine ⟨⟨hs.used, fun handle file hf => hs.length_le hf⟩, hs.durable, hs.indexes,
    ⟨hs.fresh, fun path handle hp => hs.fresh _ (hs.indexes.named _ _ hp)⟩,
    fun op cap hlt hcap => ?_⟩
  rcases inner_call_cases d op with heq | hpanic | ⟨r, hr⟩
  · exact absurd hlt (by rw [heq]; exact lt_irrefl _)
  · exact hpanic.le_capacity hlt hcap
  · exact le_capacity_of_steps hs hr hlt hcap

theorem books_balance_after_crash :
    ∃ d, (driver ℕ).Reachable d ∧ d.inner.bytesUsed = 6 ∧ d.inner.stored = 6 ∧
      d.inner.files.lookup 1 = some ⟨[8, 0, 0, 0, 0, 0], 3⟩ := by
  have hr : (driver ℕ).ReachableUnder (fun d op => d.inner.overlong op = false) _ :=
    ⟨[.open 7 ⟨true, false, false⟩, .writeAt 0 [1, 2] 0, .open 9 ⟨true, false, false⟩,
      .injectTornWrite fun n => n / 2, .writeAt 1 [8, 9] 0, .setLen 1 3, .fsync 1 false,
      .rename 9 7, .writeAt 1 [5] 4, .setDiskFullAt 6, .crashAndReopen,
      .open 7 ⟨false, false, false⟩, .fallocate 1 2 4], rfl, by decide⟩
  exact ⟨_, hr.reachable, rfl, (books_balance _ hr).1.1.symm.trans rfl, rfl⟩

/-- `resize` panics with the bytes counted: nothing is stored, and no call comes after it. -/
theorem exists_unbalanced :
    ∃ d, (driver ℕ).run .new [.open 7 ⟨true, false, false⟩, .fallocate 0 0 (2 ^ 63)] = some d ∧
      d.poisoned = true ∧ d.inner.bytesUsed = 2 ^ 63 ∧ d.inner.stored = 0 :=
  ⟨_, rfl, rfl, rfl, rfl⟩

end SimDriver

end RustyTokio.Sim

import RustyTokio.Io.SimDriver

/-!
# Sizes and counts of `SimDriver` and `UringFile`

`src/io/uring_fs.rs` on a target of 64 bits, in either profile.  The sums of `grow_to`, `write_at`
and `fallocate` are not checked, and `resize` panics beyond `isize::MAX`.  `UringFile` passes a
length on as a `u32` and gets a count back as an `i32`, whose sign tells an error.  Memory is taken
to be sufficient for every length that a `Vec` can have.

## Main results

* `sizes_exact_unless_exceeds`: what `fallocate` and `write_at` promise as long as no sum overflows.
* `counts_exact_unless_negative`: the count of a write is right as long as it is not negative.
* `read_exact_iff`: when the buffer of a read holds exactly what was read.
-/

namespace RustyTokio.Sim

open Transition List Option Finmap SimFile Profile FiniteMap

variable {P : Type}

namespace SimState

section

variable {s t : SimState P} {handle newLen : ℕ} {file : SimFile} {pos len : ℕ} {src : List UInt8}

theorem of_growTo {p : Profile} {r : Except ℤ Unit} (hf : s.files.lookup handle = some file)
    (h : s.growTo p handle newLen = (t, some r)) : (t = s ∧ r = .error enospc) ∨ r = .ok () ∧
      t.files = s.files.insert handle (file.resize newLen) ∧ t.tornWrite = s.tornWrite := by
  rcases lt_or_ge file.data.length newLen with hlt | hge
  · rw [growTo_of_lt p hf hlt] at h
    cases hused : p.add s.bytesUsed (newLen - file.data.length) <;> simp only [hused] at h
    · cases h
    · split at h
      · cases h
        exact .inl ⟨rfl, rfl⟩
      · split at h <;> cases h
        exact .inr ⟨rfl, rfl, rfl⟩
  · rw [growTo_of_le p hf hge] at h
    cases h
    refine .inr ⟨rfl, ?_, rfl⟩
    rw [resize_of_le hge, insert_of_lookup hf]

/-! ## Calls that need room -/

/-- What a call that asks for `stop` bytes promises: it returns, without room for them it fails and
changes nothing, and after a success the file has them. -/
def Sized {β : Type} (s : SimState P) (handle : ℕ) (file : SimFile) (stop : ℕ) (ok : β → Prop)
    (full : β) (call : SimState P × Option β) : Prop :=
  ∃ t r, call = (t, some r) ∧ (s.Full file stop → t = s ∧ r = full) ∧
    (ok r → ∃ g, t.files.lookup handle = some g ∧ stop ≤ g.data.length)

section

variable (p : Profile) (hf : s.files.lookup handle = some file) (hx : ¬ s.Exceeds file (pos + len))

include p hf hx

theorem sized_withRange {β : Type} {ok : β → Prop} {fail : ℤ → β}
    {k : SimState P → SimState P × Option β}
    (hfail : ¬ ok (fail enospc))
    (hk : ∃ t r g, k (s.grown handle file (pos + len)) = (t, some r) ∧
      t.files.lookup handle = some g ∧ pos + len ≤ g.data.length) :
    s.Sized handle file (pos + len) ok (fail enospc) (s.withRange p handle pos len fail k) := by
  rw [withRange_eq p hf hx]
  by_cases hfull : s.Full file (pos + len)
  · rw [if_pos hfull]
    exact ⟨s, _, rfl, fun _ => ⟨rfl, rfl⟩, fun h => absurd h hfail⟩
  · obtain ⟨t, r, g, hk, hlookup, hle⟩ := hk
    rw [if_neg hfull]
    exact ⟨t, r, hk, fun h => absurd h hfull, fun _ => ⟨g, hlookup, hle⟩⟩

theorem sized_fallocate :
    s.Sized handle file (pos + len) (fun r => r = .ok ()) (.error (.os enospc))
      (s.fallocate p handle pos len) := by
  rw [fallocate_eq_withRange p hf]
  refine sized_withRange p hf hx (by simp) ⟨_, _, _, rfl, lookup_insert _, ?_⟩
  rw [length_resize]
  exact le_max_right _ _

end

theorem fallocate_of_exceeds (hf : s.files.lookup handle = some file)
    (hx : s.Exceeds file (pos + len)) : (s.fallocate .debug handle pos len).2 = none := by
  obtain ⟨t, -, heq⟩ := withRange_of_exceeds hf hx
  rw [fallocate_eq_withRange _ hf, heq]

theorem sized_writeAt (p : Profile) (hf : s.files.lookup handle = some file)
    (hc : handle ∉ s.closed) (hx : ¬ s.Exceeds file (pos + src.length)) :
    s.Sized handle file (pos + src.length) (fun r : ℤ => 0 ≤ r) (-enospc)
      (s.writeAt p handle src pos) := by
  rw [writeAt_eq_withRange p hc hf]
  refine sized_withRange p hf hx (by decide)
    ⟨_, _, _, land_grown _ _ _ _ _, lookup_insert _, ?_⟩
  rw [length_written _ (Nat.add_le_add_left (length_take_le' _ _) _)]
  exact le_max_right _ _

theorem writeAt_of_exceeds (hf : s.files.lookup handle = some file) (hc : handle ∉ s.closed)
    (hx : s.Exceeds file (pos + src.length)) : (s.writeAt .debug handle src pos).2 = none := by
  obtain ⟨t, -, heq⟩ := withRange_of_exceeds hf hx
  rw [writeAt_eq_withRange _ hc hf, heq]

/-- **Sizes.**  As long as the end of the range and the bytes in use are `u64`s and no `Vec` becomes
too long, `fallocate` and `write_at` keep what `Sized` promises, in either profile and at any
capacity.  Otherwise the debug profile panics. -/
theorem sizes_exact_unless_exceeds (hf : s.files.lookup handle = some file)
    (offset len pos : UInt64) (src : List UInt8) :
    ((∀ p, ¬ s.Exceeds file (offset.toNat + len.toNat) →
        s.Sized handle file (offset.toNat + len.toNat) (fun r => r = .ok ()) (.error (.os enospc))
          (s.fallocate p handle offset.toNat len.toNat)) ∧
      (s.Exceeds file (offset.toNat + len.toNat) →
        (s.fallocate .debug handle offset.toNat len.toNat).2 = none)) ∧
    (handle ∉ s.closed → (∀ p, ¬ s.Exceeds file (pos.toNat + src.length) →
        s.Sized handle file (pos.toNat + src.length) (fun r : ℤ => 0 ≤ r) (-enospc)
          (s.writeAt p handle src pos.toNat)) ∧ (s.Exceeds file (pos.toNat + src.length) →
        (s.writeAt .debug handle src pos.toNat).2 = none)) :=
  ⟨⟨fun p => sized_fallocate p hf, fallocate_of_exceeds hf⟩,
    fun hc => ⟨fun p => sized_writeAt p hf hc, writeAt_of_exceeds hf hc⟩⟩

end

/-- One empty file. -/
def oneFile : SimState ℕ :=
  { SimState.empty with files := (∅ : FiniteMap ℕ SimFile).insert 0 .empty }

theorem lookup_oneFile : oneFile.files.lookup 0 = some .empty := lookup_insert _

theorem exceeds_oneFile {newLen : ℕ} (h : newLen ≤ isizeMax) : ¬ oneFile.Exceeds .empty newLen := by
  unfold isizeMax at h
  simp only [Exceeds, Overruns, oneFile, SimState.empty, SimFile.empty, isizeMax, length_nil]
  omega

theorem sized_of_oneFile : oneFile.Sized 0 .empty 7 (fun r => r = .ok ()) (.error (.os enospc))
        (oneFile.fallocate .release 0 3 4) ∧
      (oneFile.fallocate .debug 0 (2 ^ 64 - 1) 2).2 = none :=
  ⟨(sizes_exact_unless_exceeds lookup_oneFile 3 4 0 []).1.1 .release (exceeds_oneFile (by decide)),
    (sizes_exact_unless_exceeds lookup_oneFile 18446744073709551615 2 0 []).1.2 (.inl (by decide))⟩

/-- The end of the range wraps around to `1`. -/
theorem exists_short_fallocate : ∃ d, (driver ℕ).Reachable d ∧
    (d.inner.fallocate .debug 0 (2 ^ 64 - 1) 2).2 = none ∧
      ∃ t, d.inner.fallocate .release 0 (2 ^ 64 - 1) 2 = (t, some (.ok ())) ∧
        t.files.lookup 0 = some ⟨[0], 0⟩ :=
  ⟨_, ⟨[.open 7 ⟨true, false, false⟩], rfl⟩, rfl, _, rfl, rfl⟩

end SimState

/-! ## `UringFile` -/

namespace UringFile

open SimState

/-- A length as a `u32`. -/
def asU32 (n : ℕ) : ℕ := n % 2 ^ 32

/-- `result_to_io`; in the debug profile `-result` panics for the least `i32`. -/
def resultToIoIn (p : Profile) (result : ℤ) : Option (Except Error ℕ) :=
  if p = .debug ∧ result = -2 ^ 31 then none else some (resultToIo result)

/-- `UringFile::write_at` on a `SimDriver`. -/
def writeAt (p : Profile) (s : SimState P) (handle : ℕ) (buf : List UInt8) (pos : ℕ) :
    SimState P × Option (Except Error ℕ) :=
  let (t, result) := s.writeAt p handle (buf.take (asU32 buf.length)) pos
  (t, result.bind (resultToIoIn p))

/-- The first `k` bytes of the buffer have come into the file. -/
def Applied (s : SimState P) (handle : ℕ) (buf : List UInt8) (pos k : ℕ) (t : SimState P) : Prop :=
  ∃ file, s.files.lookup handle = some file ∧
    t.files = s.files.insert handle (file.written pos (buf.take k) (pos + k))

theorem resultToIoIn_neg (p : Profile) {errno : ℤ} (h : 0 < errno) (hlt : errno < 2 ^ 31) :
    resultToIoIn p (-errno) = some (.error (.os errno)) := by
  rw [resultToIoIn, if_neg (by omega), resultToIo_neg h hlt]

theorem asI32_of_ge {n : ℕ} (h : 2 ^ 31 ≤ n) (hlt : n < 2 ^ 32) : asI32 n = n - 2 ^ 32 := by
  rw [asI32, BitVec.toInt_ofInt, Int.bmod_def]
  split <;> omega

variable {p : Profile} {s t : SimState P} {handle pos n : ℕ} {src : List UInt8}

theorem applyLen_eq (htorn : s.tornWrite = none) : s.applyLen n = n := by
  rw [applyLen, htorn, map_none, getD_none, min_self]

theorem files_wrote {file : SimFile} (htorn : s.tornWrite = none) :
    (s.wrote handle file src pos).files =
      s.files.insert handle (file.written pos src (pos + src.length)) := by
  rw [wrote, applyLen_eq htorn, take_length]

theorem of_writeAt {r : ℤ} (htorn : s.tornWrite = none)
    (hlen : ∀ file, s.files.lookup handle = some file → file.data.length ≤ isizeMax)
    (hpos : pos < 2 ^ 64) (hsrc : src.length < 2 ^ 32)
    (h : s.writeAt p handle src pos = (t, some r)) :
    (t = s ∧ (r = -ebadf ∨ r = -enospc)) ∨ (∃ file, s.files.lookup handle = some file ∧
      t.files = s.files.insert handle (file.written pos src (pos + src.length))) ∧
        r = asI32 src.length := by
  rw [SimState.writeAt] at h
  split at h
  · cases h
    exact .inl ⟨rfl, .inl rfl⟩
  next hno =>
    obtain ⟨file, hf⟩ := Finmap.mem_iff.mp (not_not.mp (not_or.mp hno).2)
    rw [withRange] at h
    cases hstop : p.add pos src.length with
    | none =>
      rw [hstop] at h
      cases h
    | some stop =>
      simp only [hstop, withRoom] at h
      rcases hg : s.growTo p handle stop with ⟨u, _ | g⟩ <;> rw [hg] at h
      · cases h
      rcases of_growTo hf hg with ⟨rfl, rfl⟩ | ⟨rfl, hfiles, hsame⟩
      · cases h
        exact .inl ⟨rfl, .inr rfl⟩
      replace h : u.land handle src pos = (t, some r) := h
      rcases lt_or_ge (pos + src.length) (2 ^ 64) with hsum | hsum
      · cases (p.add_eq hsum).symm.trans hstop
        rw [land_of_files hfiles hsame] at h
        cases h
        exact .inr ⟨⟨file, hf, files_wrote htorn⟩, rfl⟩
      · -- the end has wrapped around, and the file does not reach the exact one
        have hwrap : stop < 2 ^ 64 := p.lt_of_add hpos (by omega) hstop
        have hle := hlen file hf
        rw [land, hfiles, lookup_insert, bind_some] at h
        split at h
        · cases h
        next g hg =>
          obtain ⟨hend, -⟩ := of_guard hg
          rw [applyLen_eq (hsame.trans htorn), take_length, length_resize] at hend
          unfold isizeMax at hle
          omega

theorem resultToIoIn_asI32 (p : Profile) (h : n < 2 ^ 31) :
    resultToIoIn p (asI32 n) = some (.ok n) := by
  rw [resultToIoIn, if_neg (by rw [asI32_eq (by omega) (by omega)]; omega), resultToIo_asI32 h]

/-- The count of what has been written has the sign of an error. -/
theorem writeAt_of_ge {buf : List UInt8} {file : SimFile} {k : ℕ} (hk : asU32 buf.length = k)
    (hge : 2 ^ 31 ≤ k) (htorn : s.tornWrite = none) (hf : s.files.lookup handle = some file)
    (hc : handle ∉ s.closed) (hx : ¬ s.Exceeds file (pos + k)) (hroom : ¬ s.Full file (pos + k)) :
    Applied s handle buf pos k (writeAt p s handle buf pos).1 ∧
      (writeAt p s handle buf pos).2 = if p = .debug ∧ k = 2 ^ 31 then none
        else some (.error (.os (asI32 (2 ^ 32 - k)))) := by
  have hlt : k < 2 ^ 32 := hk ▸ Nat.mod_lt _ (by decide)
  have htake : (buf.take k).length = k := length_take_of_le (hk ▸ Nat.mod_le _ _)
  have hwrite : s.writeAt p handle (buf.take k) pos =
      (s.wrote handle file (buf.take k) pos, some (asI32 k)) := by
    rw [writeAt_eq p hc hf (by rwa [htake]), if_neg (by rwa [htake]), htake]
  have hiff : (p = .debug ∧ (k : ℤ) - 2 ^ 32 = -2 ^ 31) ↔ p = .debug ∧ k = 2 ^ 31 :=
    and_congr_right fun _ => by omega
  simp only [writeAt, hk, hwrite, bind_some, asI32_of_ge hge hlt, resultToIoIn, hiff]
  refine ⟨⟨file, hf, by rw [files_wrote htorn, htake]⟩, ?_⟩
  have hneg : (k : ℤ) - 2 ^ 32 < 0 := by omega
  simp only [resultToIo, if_pos hneg, neg_sub]

/-- **Counts.**  The driver is given the first `k` bytes, by the length as a `u32`.  If `k` is less
than `2 ^ 31`, a write that returns has failed and changed nothing, or has applied them and returns
`Ok(k)`.  Otherwise every write for which there is room applies them, and then returns an error;
in the debug profile it panics if `k` is `2 ^ 31`. -/
theorem counts_exact_unless_negative {buf : List UInt8} {k : ℕ} (hk : asU32 buf.length = k)
    (htorn : s.tornWrite = none)
    (hlen : ∀ file, s.files.lookup handle = some file → file.data.length ≤ isizeMax)
    (pos : UInt64) : (k < 2 ^ 31 → ∀ t r, writeAt p s handle buf pos.toNat = (t, some r) →
      (t = s ∧ ∃ e, r = .error e) ∨ Applied s handle buf pos.toNat k t ∧ r = .ok k) ∧
    (2 ^ 31 ≤ k → ∀ file, s.files.lookup handle = some file → handle ∉ s.closed →
      ¬ s.Exceeds file (pos.toNat + k) → ¬ s.Full file (pos.toNat + k) →
      Applied s handle buf pos.toNat k (writeAt p s handle buf pos.toNat).1 ∧
      (writeAt p s handle buf pos.toNat).2 = if p = .debug ∧ k = 2 ^ 31 then none
        else some (.error (.os (asI32 (2 ^ 32 - k))))) := by
  refine ⟨fun hlt t r h => ?_, fun hge file hf hc => writeAt_of_ge hk hge htorn hf hc⟩
  have htake : (buf.take k).length = k := length_take_of_le (hk ▸ Nat.mod_le _ _)
  rw [writeAt, hk] at h
  rcases hq : s.writeAt p handle (buf.take k) pos.toNat with ⟨u, q⟩
  rw [hq] at h
  obtain ⟨rfl, hr⟩ := Prod.mk.inj h
  obtain ⟨q, rfl, hio⟩ := bind_eq_some_iff.mp hr
  rcases of_writeAt htorn hlen pos.toNat_lt (by omega) hq with ⟨rfl, rfl | rfl⟩ | ⟨happly, rfl⟩
  · rw [resultToIoIn_neg p (by decide) (by decide)] at hio
    exact .inl ⟨rfl, _, (some.inj hio).symm⟩
  · rw [resultToIoIn_neg p (by decide) (by decide)] at hio
    exact .inl ⟨rfl, _, (some.inj hio).symm⟩
  · rw [htake] at happly hio
    rw [resultToIoIn_asI32 p hlt] at hio
    exact .inr ⟨happly, (some.inj hio).symm⟩

theorem counts_of_oneFile : ∃ t r, writeAt .debug oneFile 0 [1, 2] 5 = (t, some r) ∧
    ((t = oneFile ∧ ∃ e, r = .error e) ∨ Applied oneFile 0 [1, 2] 5 2 t ∧ r = .ok 2) :=
  have hlen : ∀ file, oneFile.files.lookup 0 = some file → file.data.length ≤ isizeMax :=
    fun _ hf => some.inj (lookup_oneFile.symm.trans hf) ▸ Nat.zero_le _
  ⟨_, .ok 2, rfl, (counts_exact_unless_negative (p := .debug) rfl rfl hlen 5).1 (by decide) _ _ rfl⟩

/-- All bytes are written, and `-result` is the least `i32` again. -/
theorem exists_misreported_write : ∃ buf t, oneFile.capacityBytes = none ∧
    writeAt .release oneFile 0 buf 0 = (t, some (.error (.os (-2 ^ 31)))) ∧
      Applied oneFile 0 buf 0 (2 ^ 31) t := by
  have hk : asU32 (replicate (2 ^ 31) (0 : UInt8)).length = 2 ^ 31 := by
    rw [length_replicate]
    rfl
  have hroom : ¬ oneFile.Full .empty (0 + 2 ^ 31) := by simp [Full, oneFile, SimState.empty]
  obtain ⟨happly, hr⟩ := writeAt_of_ge (p := .release) hk le_rfl rfl lookup_oneFile
    (Finset.notMem_empty 0) (exceeds_oneFile (by decide)) hroom
  have hmin : asI32 (2 ^ 32 - (2 ^ 31 : ℕ)) = -2 ^ 31 := by
    rw [asI32, BitVec.toInt_ofInt]
    rfl
  rw [if_neg (fun h => Profile.noConfusion h.1), hmin] at hr
  rcases hw : writeAt .release oneFile 0 (replicate (2 ^ 31) 0) 0 with ⟨t, r⟩
  rw [hw] at happly hr
  exact ⟨_, t, rfl, hw.trans (congrArg (Prod.mk t) hr), happly⟩

/-! ### Buffers -/

/-- A `Vec<u8>`: its allocation, of which the first `len` bytes are initialized. -/
structure Buf where
  cells : List UInt8
  len : ℕ
  le : len ≤ cells.length

namespace Buf

/-- The capacity. -/
def bytesTotal (buf : Buf) : ℕ := buf.cells.length

/-- The length. -/
def bytesInit (buf : Buf) : ℕ := buf.len

/-- The initialized bytes. -/
def init (buf : Buf) : List UInt8 := buf.cells.take buf.bytesInit

/-- A driver has written to the front of the allocation. -/
def fill (buf : Buf) (bytes : List UInt8) : Buf where
  cells := bytes ++ buf.cells.drop bytes.length
  len := buf.len
  le := by
    have := buf.le
    simp only [length_append, length_drop]
    omega

/-- `set_init`, which only raises the length; past the allocation it panics. -/
def setInit (buf : Buf) (len : ℕ) : Option Buf :=
  if buf.len < len then
    if h : len ≤ buf.cells.length then some { buf with len := len, le := h } else none
  else some buf

end Buf

/-- `UringFile::read_at` on a `SimDriver`, which gives the buffer back. -/
def readAt (p : Profile) (s : SimState P) (handle : ℕ) (buf : Buf) (pos : ℕ) :
    Option (Except Error ℕ × Buf) :=
  (s.readAt handle (asU32 buf.bytesTotal) pos).bind fun (result, bytes) =>
    (resultToIoIn p result).bind fun
      | .ok n => ((buf.fill bytes).setInit n).map fun buf => (.ok n, buf)
      | .error e => some (.error e, buf.fill bytes)

theorem setInit_fill (buf : Buf) {bytes : List UInt8} (h : bytes.length ≤ buf.cells.length) :
    ∃ out, (buf.fill bytes).setInit bytes.length = some out ∧
      (out.init = bytes ↔ buf.len ≤ bytes.length) := by
  have hcells : (buf.fill bytes).cells.length = buf.cells.length := by
    simp only [Buf.fill, length_append, length_drop]
    omega
  rw [Buf.setInit]
  by_cases hlt : (buf.fill bytes).len < bytes.length
  · rw [if_pos hlt, dif_pos (hcells.symm ▸ h)]
    exact ⟨_, rfl, fun _ => le_of_lt hlt, fun _ => take_left⟩
  · rw [if_neg hlt]
    refine ⟨_, rfl, fun heq => ?_, fun hle => ?_⟩
    · have hlen := congrArg length heq
      rw [Buf.init, Buf.bytesInit, length_take_of_le (buf.fill bytes).le] at hlen
      exact le_of_eq hlen
    · have hlen : buf.len = bytes.length := le_antisymm hle (le_of_not_gt hlt)
      simp only [Buf.init, Buf.bytesInit, Buf.fill, hlen, take_left]

/-- `set_init` never takes the length back, so what the buffer held before stays behind a read that
is shorter. -/
theorem read_exact_iff (p : Profile) {file : SimFile} {buf : Buf} {n : ℕ}
    (hf : s.files.lookup handle = some file) (hc : handle ∉ s.closed)
    (hpos : pos ≤ file.data.length) (hcap : buf.bytesTotal < 2 ^ 31)
    (hn : n = min (file.data.length - pos) buf.bytesTotal) :
    ∃ out, readAt p s handle buf pos = some (.ok n, out) ∧
      (out.init = (file.data.drop pos).take n ↔ buf.len ≤ n) := by
  have hlen : ((file.data.drop pos).take n).length = n := by
    simp only [length_take, length_drop]
    omega
  have hu32 : asU32 buf.bytesTotal = buf.bytesTotal := Nat.mod_eq_of_lt (by omega)
  have hread : s.readAt handle buf.bytesTotal pos =
      some (asI32 n, (file.data.drop pos).take n) := by
    simp only [SimState.readAt, if_neg hc, hf, ← hn]
    rw [if_pos (by omega)]
  obtain ⟨out, hset, hiff⟩ := setInit_fill buf (hlen.trans_le (hn.trans_le (min_le_right _ _)))
  rw [hlen] at hset hiff
  refine ⟨out, ?_, hiff⟩
  simp only [readAt, hu32, hread, bind_some, resultToIoIn_asI32 p (by omega : n < 2 ^ 31), hset,
    map_some]

/-- One file of three bytes. -/
def threeBytes : SimState ℕ :=
  { SimState.empty with files := (∅ : FiniteMap ℕ SimFile).insert 0 ⟨[1, 2, 3], 0⟩ }

theorem read_exact_of_threeBytes :
    (∃ out, readAt .debug threeBytes 0 ⟨[7, 7, 7, 7], 1, by decide⟩ 1 = some (.ok 2, out) ∧
      (out.init = [2, 3] ↔ 1 ≤ 2)) ∧
    ∃ out, readAt .debug threeBytes 0 ⟨[7, 7, 7, 7], 3, by decide⟩ 1 = some (.ok 2, out) ∧
      (out.init = [2, 3] ↔ 3 ≤ 2) :=
  have hf : threeBytes.files.lookup 0 = some ⟨[1, 2, 3], 0⟩ := lookup_insert _
  ⟨read_exact_iff .debug hf (Finset.notMem_empty 0) (by decide) (by decide) rfl,
    read_exact_iff .debug hf (Finset.notMem_empty 0) (by decide) (by decide) rfl⟩

/-- Nothing is read, and the buffer is as long as before. -/
theorem exists_stale_bytes : ∃ out,
    readAt .release oneFile 0 ⟨[7, 7], 1, by decide⟩ 0 = some (.ok 0, out) ∧ out.init = [7] :=
  ⟨_, rfl, rfl⟩

end UringFile

end RustyTokio.Sim

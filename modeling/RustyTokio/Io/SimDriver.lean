import RustyTokio.Transition.FiniteMap
import RustyTokio.Transition.System
import RustyTokio.Transition.Usize

/-!
# `SimDriver`

`src/io/uring_fs.rs`.  The driver that keeps its files in memory.  A path leads to a handle and a
handle to a file; two opens of one path get the same handle.  A file is its bytes and a mark, and
what lies below the mark survives a crash.

A method is a function of the state behind the lock: it gives the state it leaves and its answer,
which is missing if it panics.  `grow_to`, `write_at`, `fallocate` and `set_len` take the build
profile, since their sums are not checked; the driver as a whole is that of the debug profile, where
a sum that overflows panics.  `Vec::resize` panics beyond `isize::MAX` in either profile, with the
bytes already counted.

## Main results

* `steps_of_apply`: all that a call which returns can do, with `Steps` as the list of its cases.
* `inv_of_reachable`: what every such call keeps holds as long as no call has panicked.
* `failed_unchanged`: a call that fails changes nothing.
* `ebadf_of_closed_iff`: which calls fail on a closed handle.
-/

namespace RustyTokio.Sim

open Transition List Option Bool Finmap FiniteMap

/-! ## Answers -/

/-- `libc::EBADF`. -/
def ebadf : ℤ := 9

/-- `libc::ENOSPC`. -/
def enospc : ℤ := 28

/-- An `io::Error`: the `i32` of the system, or an `ErrorKind`. -/
inductive Error where
  | os (errno : ℤ)
  | notFound
  | alreadyExists
  deriving DecidableEq

/-- What a call returns if it does not fail. -/
inductive Value where
  | unit
  | handle (h : ℕ)
  | count (n : ℕ)
  | read (n : ℕ) (bytes : List UInt8)
  deriving DecidableEq

/-- A number as an `i32`, by its low 32 bits. -/
def asI32 (n : ℤ) : ℤ := (BitVec.ofInt 32 n).toInt

/-- `result_to_io`: the sign of an `i32` tells an error, and `-result` wraps around. -/
def resultToIo (result : ℤ) : Except Error ℕ :=
  if result < 0 then .error (.os (asI32 (-result))) else .ok result.toNat

theorem asI32_eq {x : ℤ} (hge : -2 ^ 31 ≤ x) (hlt : x < 2 ^ 31) : asI32 x = x := by
  rw [asI32, BitVec.toInt_ofInt]
  exact Int.bmod_eq_of_le_mul_two (by omega) (by omega)

theorem resultToIo_asI32 {n : ℕ} (h : n < 2 ^ 31) : resultToIo (asI32 n) = .ok n := by
  rw [resultToIo, asI32_eq (by omega) (by omega), if_neg (by omega), Int.toNat_natCast]

theorem resultToIo_neg {errno : ℤ} (h : 0 < errno) (hlt : errno < 2 ^ 31) :
    resultToIo (-errno) = .error (.os errno) := by
  rw [resultToIo, if_pos (by omega), neg_neg, asI32_eq (by omega) hlt]

theorem resultToIo_ebadf : resultToIo (-ebadf) = .error (.os ebadf) :=
  resultToIo_neg (by decide) (by decide)

theorem resultToIo_enospc : resultToIo (-enospc) = .error (.os enospc) :=
  resultToIo_neg (by decide) (by decide)

/-! ## Files -/

/-- A file: its bytes, and how far it is durable. -/
structure SimFile where
  data : List UInt8
  /-- How many of the bytes survive a crash. -/
  durableLen : ℕ
  deriving DecidableEq

namespace SimFile

/-- `SimFile::default()`. -/
def empty : SimFile := ⟨[], 0⟩

/-- `Vec::resize` to a length that is not less, with zeros. -/
def resize (file : SimFile) (newLen : ℕ) : SimFile :=
  { file with data := file.data.rightpad newLen 0 }

/-- The slice `start..start + bytes.len()` is written; past the end it panics. -/
def overwrite (file : SimFile) (start : ℕ) (bytes : List UInt8) : Option SimFile :=
  if start + bytes.length ≤ file.data.length then
    some
      { file with
        data := file.data.take start ++ bytes ++ file.data.drop (start + bytes.length) }
  else none

/-- What `set_len` makes of a file that is longer. -/
def shrink (file : SimFile) (newLen : ℕ) : SimFile :=
  ⟨file.data.take newLen, min file.durableLen newLen⟩

/-- An honest `fsync`: all bytes are durable. -/
def sync (file : SimFile) : SimFile := { file with durableLen := file.data.length }

/-- What a crash leaves of the file. -/
def durable (file : SimFile) : SimFile :=
  ⟨file.data.take file.durableLen, (file.data.take file.durableLen).length⟩

end SimFile

/-! ## The state -/

/-- `isize::MAX`: no `Vec` is longer. -/
def isizeMax : ℕ := 2 ^ 63 - 1

/-- The flags of `open` that the driver looks at. -/
structure Flags where
  creat : Bool
  excl : Bool
  trunc : Bool
  deriving DecidableEq

/-- `SimState`, with paths of any type. -/
structure SimState (P : Type) where
  paths : FiniteMap P ℕ
  files : FiniteMap ℕ SimFile
  nextHandle : ℕ
  closed : Finset ℕ
  capacityBytes : Option ℕ
  bytesUsed : ℕ
  fsyncLies : Bool
  /-- The fraction, as what it makes of a length. -/
  tornWrite : Option (ℕ → ℕ)

namespace SimState

variable {P : Type} [DecidableEq P]

/-- `SimState::default()`. -/
def empty : SimState P := ⟨∅, ∅, 0, ∅, none, 0, false, none⟩

/-- `grow_to`: the file gets at least `newLen` bytes, if there is room for them. -/
def growTo (p : Profile) (s : SimState P) (handle newLen : ℕ) :
    SimState P × Option (Except ℤ Unit) :=
  let currentLen := ((s.files.lookup handle).map fun file => file.data.length).getD 0
  if currentLen < newLen then
    match p.add s.bytesUsed (newLen - currentLen) with
    | none => (s, none)
    | some used =>
      if s.capacityBytes.any fun cap => decide (cap < used) then (s, some (.error enospc))
      else if handle ∈ s.files ∧ isizeMax < newLen then
        -- `resize` panics, and the bytes are counted already
        ({ s with bytesUsed := used }, none)
      else
        ({ s with
            bytesUsed := used
            files := s.files.modify handle fun file => file.resize newLen }, some (.ok ()))
  else (s, some (.ok ()))

/-- A method that needs `newLen` bytes: it ends as `grow_to` does, or `k` goes on from there. -/
def withRoom {β : Type} (p : Profile) (s : SimState P) (handle newLen : ℕ) (fail : ℤ → β)
    (k : SimState P → SimState P × Option β) : SimState P × Option β :=
  match s.growTo p handle newLen with
  | (t, none) => (t, none)
  | (t, some (.error errno)) => (t, some (fail errno))
  | (t, some (.ok ())) => k t

/-- A method that needs the bytes up to the end of a range, which is an unchecked sum. -/
def withRange {β : Type} (p : Profile) (s : SimState P) (handle pos len : ℕ) (fail : ℤ → β)
    (k : SimState P → SimState P × Option β) : SimState P × Option β :=
  match p.add pos len with
  | none => (s, none)
  | some stop => s.withRoom p handle stop fail k

/-- `O_TRUNC`. -/
def truncate (s : SimState P) (handle : ℕ) : SimState P :=
  match s.files.lookup handle with
  | some file =>
    { s with
      files := s.files.insert handle .empty
      bytesUsed := s.bytesUsed - file.data.length }
  | none => s

/-- The handle of a path; the file is made if it is not there. -/
def handleOf (s : SimState P) (path : P) : Option (SimState P × ℕ) :=
  match s.paths.lookup path with
  | some handle => some (s, handle)
  | none =>
    (Profile.debug.add s.nextHandle 1).map fun next =>
      ({ s with
          nextHandle := next
          paths := s.paths.insert path s.nextHandle
          files := s.files.insert s.nextHandle .empty }, s.nextHandle)

/-- `open`; a panic of this one leaves the state as it was. -/
def «open» (s : SimState P) (path : P) (flags : Flags) : Option (SimState P × Except Error ℕ) :=
  let createNew := flags.creat && flags.excl
  if path ∈ s.paths ∧ createNew = true then some (s, .error .alreadyExists)
  else if path ∉ s.paths ∧ flags.creat = false then some (s, .error .notFound)
  else
    (s.handleOf path).map fun (s, handle) =>
      let s := if flags.trunc then s.truncate handle else s
      ({ s with closed := s.closed.erase handle }, .ok handle)

/-- `read_at`: an `i32` and the bytes that come into the buffer. -/
def readAt (s : SimState P) (handle bufLen pos : ℕ) : Option (ℤ × List UInt8) :=
  if handle ∈ s.closed then some (-ebadf, [])
  else
    match s.files.lookup handle with
    | none => some (-ebadf, [])
    | some file =>
      let avail := file.data.length - pos
      let n := min avail bufLen
      -- the bounds check of `&file.data[pos..pos + n]`
      if pos + n ≤ file.data.length then some (asI32 n, (file.data.drop pos).take n) else none

/-- How many of the bytes a write puts into the file. -/
def applyLen (s : SimState P) (len : ℕ) : ℕ :=
  min ((s.tornWrite.map fun cut => cut len).getD len) len

/-- The bytes go into the file.  The torn write is taken before the slice can panic, and a range
whose end has wrapped around panics as one past the end of the file does. -/
def land (s : SimState P) (handle : ℕ) (src : List UInt8) (pos : ℕ) : SimState P × Option ℤ :=
  match (s.files.lookup handle).bind fun file =>
      file.overwrite pos (src.take (s.applyLen src.length)) with
  | none => ({ s with tornWrite := none }, none)
  | some file =>
    ({ s with tornWrite := none, files := s.files.insert handle file }, some (asI32 src.length))

/-- `write_at`: the answer is an `i32`, negative for an error. -/
def writeAt (p : Profile) (s : SimState P) (handle : ℕ) (src : List UInt8) (pos : ℕ) :
    SimState P × Option ℤ :=
  if handle ∈ s.closed ∨ handle ∉ s.files then (s, some (-ebadf))
  else
    s.withRange p handle pos src.length (fun errno => -errno) fun t => t.land handle src pos

/-- `fsync`, which does not look at the kind of sync. -/
def fsync (s : SimState P) (handle : ℕ) : SimState P × Except Error Unit :=
  if handle ∈ s.closed then (s, .error (.os ebadf))
  else if s.fsyncLies then (s, .ok ())
  else
    match s.files.lookup handle with
    | none => (s, .error (.os ebadf))
    | some file => ({ s with files := s.files.insert handle file.sync }, .ok ())

/-- `fallocate`, which does not ask whether the handle is closed. -/
def fallocate (p : Profile) (s : SimState P) (handle offset len : ℕ) :
    SimState P × Option (Except Error Unit) :=
  if handle ∉ s.files then (s, some (.error (.os ebadf)))
  else
    s.withRange p handle offset len (fun errno => .error (.os errno)) fun t => (t, some (.ok ()))

/-- `set_len`, which does not ask either. -/
def setLen (p : Profile) (s : SimState P) (handle len : ℕ) :
    SimState P × Option (Except Error Unit) :=
  match s.files.lookup handle with
  | none => (s, some (.error (.os ebadf)))
  | some file =>
    if file.data.length ≤ len then
      s.withRoom p handle len (fun errno => .error (.os errno)) fun t => (t, some (.ok ()))
    else
      ({ s with
          files := s.files.insert handle (file.shrink len)
          bytesUsed := s.bytesUsed - (file.data.length - len) }, some (.ok ()))

/-- `close` and `close_sync`. -/
def close (s : SimState P) (handle : ℕ) : SimState P := { s with closed := insert handle s.closed }

/-- A file goes out of the table, and its bytes out of the count. -/
def discard (s : SimState P) (handle : ℕ) : SimState P :=
  match s.files.lookup handle with
  | some file =>
    { s with
      files := s.files.erase handle
      bytesUsed := s.bytesUsed - file.data.length }
  | none => s

/-- `rename`: the file that was at the target is dropped. -/
def rename (s : SimState P) (source target : P) : SimState P × Except Error Unit :=
  match s.paths.lookup source with
  | none => (s, .error .notFound)
  | some handle =>
    let paths := s.paths.erase source
    let t := { s with paths := paths.insert target handle }
    match paths.lookup target with
    | some oldHandle => (if oldHandle ≠ handle then t.discard oldHandle else t, .ok ())
    | none => (t, .ok ())

/-- `remove_file`. -/
def removeFile (s : SimState P) (path : P) : SimState P × Except Error Unit :=
  match s.paths.lookup path with
  | none => (s, .error .notFound)
  | some handle => ({ s with paths := s.paths.erase path }.discard handle, .ok ())

/-- The sum of the lengths of all files. -/
def stored (s : SimState P) : ℕ := FiniteMap.total (fun file => file.data.length) s.files

/-- The state that a crash leaves. -/
def reopened (s : SimState P) : SimState P where
  paths := s.paths
  files := s.files.mapValues SimFile.durable
  nextHandle := s.nextHandle
  closed := s.paths.values
  capacityBytes := s.capacityBytes
  bytesUsed := FiniteMap.total (fun file => file.data.length) (s.files.mapValues SimFile.durable)
  fsyncLies := false
  tornWrite := none

/-- `crash_and_reopen`: the lengths are added up in a `u64`. -/
def crashAndReopen (s : SimState P) : Option (SimState P) :=
  if s.reopened.bytesUsed < 2 ^ 64 then some s.reopened else none

end SimState

/-! ## Calls -/

/-- A call: a method of `OpDriver`, a knob, or a crash after which the new driver is used. -/
inductive Op (P : Type) where
  | open (path : P) (flags : Flags)
  | readAt (handle bufLen pos : ℕ)
  | writeAt (handle : ℕ) (src : List UInt8) (pos : ℕ)
  | fsync (handle : ℕ) (datasync : Bool)
  | fallocate (handle offset len : ℕ)
  | setLen (handle len : ℕ)
  | close (handle : ℕ)
  | rename (source target : P)
  | removeFile (path : P)
  | setDiskFullAt (capacity : ℕ)
  | setFsyncLies (lies : Bool)
  | injectTornWrite (cut : ℕ → ℕ)
  | crashAndReopen

/-- The handle that a call is given; `close` takes any number. -/
def Op.handle? {P : Type} : Op P → Option ℕ
  | .readAt handle _ _ => some handle
  | .writeAt handle _ _ => some handle
  | .fsync handle _ => some handle
  | .fallocate handle _ _ => some handle
  | .setLen handle _ => some handle
  | _ => none

/-- The method looks at `closed`. -/
def Op.checksClosed {P : Type} : Op P → Bool
  | .readAt _ _ _ => true
  | .writeAt _ _ _ => true
  | .fsync _ _ => true
  | _ => false

section

variable {P : Type} [DecidableEq P]

/-- The end of a method that has changed nothing when it panics. -/
def SimState.ends {β : Type} (s : SimState P) : Option (SimState P × β) → SimState P × Option β
  | none => (s, none)
  | some (t, r) => (t, some r)

/-- A method whose answer is given on in another form. -/
def SimState.answer {β γ : Type} (f : β → γ) (q : SimState P × Option β) : SimState P × Option γ :=
  (q.1, q.2.map f)

/-- A call in the debug profile: the state it leaves, and its answer, which is missing if it panics.
The `i32` of `read_at` and `write_at` is given on as `result_to_io` reads it. -/
def Op.apply (s : SimState P) : Op P → SimState P × Option (Except Error Value)
  | .open path flags => s.ends ((s.open path flags).map fun (t, r) => (t, r.map .handle))
  | .readAt handle bufLen pos =>
    (s, (s.readAt handle bufLen pos).map fun (r, bytes) =>
      (resultToIo r).map fun n => .read n bytes)
  | .writeAt handle src pos =>
    SimState.answer (fun r => (resultToIo r).map .count) (s.writeAt .debug handle src pos)
  | .fsync handle _ => ((s.fsync handle).1, some ((s.fsync handle).2.map fun _ => .unit))
  | .fallocate handle offset len =>
    SimState.answer (fun r => r.map fun _ => .unit) (s.fallocate .debug handle offset len)
  | .setLen handle len =>
    SimState.answer (fun r => r.map fun _ => .unit) (s.setLen .debug handle len)
  | .close handle => (s.close handle, some (.ok .unit))
  | .rename source target =>
    ((s.rename source target).1, some ((s.rename source target).2.map fun _ => .unit))
  | .removeFile path => ((s.removeFile path).1, some ((s.removeFile path).2.map fun _ => .unit))
  | .setDiskFullAt capacity => ({ s with capacityBytes := some capacity }, some (.ok .unit))
  | .setFsyncLies lies => ({ s with fsyncLies := lies }, some (.ok .unit))
  | .injectTornWrite cut => ({ s with tornWrite := some cut }, some (.ok .unit))
  | .crashAndReopen => s.ends (s.crashAndReopen.map fun t => (t, .ok .unit))

/-- What the caller of a method sees. -/
inductive Reply where
  | returned (result : Except Error Value)
  | panicked
  deriving DecidableEq

/-- The state, and whether its lock is poisoned. -/
structure SimDriver (P : Type) where
  inner : SimState P
  poisoned : Bool

namespace SimDriver

/-- `SimDriver::new()`. -/
def new : SimDriver P := ⟨.empty, false⟩

/-- A call takes the lock: it panics if the lock is poisoned, and poisons it if it panics. -/
def call (d : SimDriver P) (op : Op P) : SimDriver P × Reply :=
  if d.poisoned then (d, .panicked)
  else
    match op.apply d.inner with
    | (s, some r) => (⟨s, false⟩, .returned r)
    | (s, none) => (⟨s, true⟩, .panicked)

end SimDriver

/-- A driver and any calls, one after the other. -/
def driver (P : Type) [DecidableEq P] : System (SimDriver P) (Op P) where
  init := .new
  step d op := some (d.call op).1

end

/-! ## What a call can do -/

namespace SimFile

/-- The file after a write of `bytes` that has made room up to `stop`. -/
def written (file : SimFile) (pos : ℕ) (bytes : List UInt8) (stop : ℕ) : SimFile :=
  let data := file.data.rightpad stop 0
  { file with data := data.take pos ++ bytes ++ data.drop (pos + bytes.length) }

theorem length_resize (file : SimFile) (n : ℕ) :
    (file.resize n).data.length = max file.data.length n := by
  simp only [resize, List.rightpad, length_append, length_replicate]
  omega

variable {file : SimFile} {pos stop : ℕ} {bytes : List UInt8}

theorem resize_of_le {n : ℕ} (h : n ≤ file.data.length) : file.resize n = file := by
  rw [resize, List.rightpad, Nat.sub_eq_zero_of_le h, replicate_zero, append_nil]

theorem overwrite_resize (h : pos + bytes.length ≤ stop) :
    (file.resize stop).overwrite pos bytes = some (file.written pos bytes stop) := by
  have hle : pos + bytes.length ≤ (file.resize stop).data.length :=
    (length_resize file stop).symm ▸ le_trans h (le_max_right _ _)
  rw [overwrite, if_pos hle]
  rfl

theorem length_written (file : SimFile) (h : pos + bytes.length ≤ stop) :
    (file.written pos bytes stop).data.length = max file.data.length stop := by
  have hlen := length_resize file stop
  rw [resize] at hlen
  simp only [written, length_append, length_take, length_drop, hlen]
  omega

end SimFile

namespace SimState

variable {P : Type} [DecidableEq P]

/-- The state after a file has grown. -/
def grown (s : SimState P) (handle : ℕ) (file : SimFile) (newLen : ℕ) : SimState P :=
  { s with
    bytesUsed := s.bytesUsed + (newLen - file.data.length)
    files := s.files.insert handle (file.resize newLen) }

/-- The state after a write. -/
def wrote (s : SimState P) (handle : ℕ) (file : SimFile) (src : List UInt8) (pos : ℕ) :
    SimState P :=
  { s with
    bytesUsed := s.bytesUsed + (pos + src.length - file.data.length)
    files := s.files.insert handle
      (file.written pos (src.take (s.applyLen src.length)) (pos + src.length))
    tornWrite := none }

/-- The file would grow beyond the capacity. -/
def Full (s : SimState P) (file : SimFile) (newLen : ℕ) : Prop :=
  file.data.length < newLen ∧
    ∃ cap ∈ s.capacityBytes, cap < s.bytesUsed + (newLen - file.data.length)

/-- The number of bytes in use would be no `u64`; or there is room for a length that no `Vec` can
have. -/
def Overruns (s : SimState P) (file : SimFile) (newLen : ℕ) : Prop :=
  file.data.length < newLen ∧
    (2 ^ 64 ≤ s.bytesUsed + (newLen - file.data.length) ∨ isizeMax < newLen ∧ ¬ s.Full file newLen)

/-- The new length is no `u64`, or the growth overruns. -/
def Exceeds (s : SimState P) (file : SimFile) (newLen : ℕ) : Prop :=
  2 ^ 64 ≤ newLen ∨ s.Overruns file newLen

/-- The file has the length or gets it. -/
def Admits (s : SimState P) (file : SimFile) (newLen : ℕ) : Prop :=
  ¬ s.Overruns file newLen ∧ ¬ s.Full file newLen

/-- What a growth that overruns leaves: the bytes are counted, if their number is a `u64`. -/
def overrun (s : SimState P) (file : SimFile) (newLen : ℕ) : SimState P :=
  if s.bytesUsed + (newLen - file.data.length) < 2 ^ 64 then
    { s with bytesUsed := s.bytesUsed + (newLen - file.data.length) }
  else s

/-- A call that asks for too much leaves `t`: nothing is changed, or the growth overruns. -/
def Left (s : SimState P) (file : SimFile) (newLen : ℕ) (t : SimState P) : Prop :=
  s.Exceeds file newLen ∧ t = s ∨ s.Overruns file newLen ∧ t = s.overrun file newLen

instance (s : SimState P) (file : SimFile) (newLen : ℕ) : Decidable (s.Full file newLen) :=
  inferInstanceAs (Decidable (_ ∧ _))

instance (s : SimState P) (file : SimFile) (newLen : ℕ) : Decidable (s.Overruns file newLen) :=
  inferInstanceAs (Decidable (_ ∧ _))

instance (s : SimState P) (file : SimFile) (newLen : ℕ) : Decidable (s.Exceeds file newLen) :=
  inferInstanceAs (Decidable (_ ∨ _))

/-- The errors of a call. -/
inductive Refuses (s : SimState P) (op : Op P) : Error → Prop where
  | badHandle {handle} (hop : op.handle? = some handle)
      (h : op.checksClosed = true ∧ handle ∈ s.closed ∨ handle ∉ s.files) :
      Refuses s op (.os ebadf)
  | noSpace (h : s.capacityBytes ≠ none) : Refuses s op (.os enospc)
  | notFound (hop : op.handle? = none) : Refuses s op .notFound
  | alreadyExists (hop : op.handle? = none) : Refuses s op .alreadyExists

/-- The knobs. -/
inductive Configures (s : SimState P) : Op P → SimState P → Prop where
  | setDiskFullAt (capacity : ℕ) :
      Configures s (.setDiskFullAt capacity) { s with capacityBytes := some capacity }
  | setFsyncLies (lies : Bool) : Configures s (.setFsyncLies lies) { s with fsyncLies := lies }
  | injectTornWrite (cut : ℕ → ℕ) :
      Configures s (.injectTornWrite cut) { s with tornWrite := some cut }

/-- All that a call can do which returns. -/
inductive Steps (s : SimState P) : Op P → SimState P → Except Error Value → Prop where
  | failed {op e} (he : s.Refuses op e) : Steps s op s (.error e)
  | created {path flags} (hp : s.paths.lookup path = none)
      (hn : s.nextHandle + 1 < 2 ^ 64) :
      Steps s (.open path flags)
        { s with
          nextHandle := s.nextHandle + 1
          paths := s.paths.insert path s.nextHandle
          files := s.files.insert s.nextHandle .empty
          closed := s.closed.erase s.nextHandle }
        (.ok (.handle s.nextHandle))
  | opened {path flags handle} (hp : s.paths.lookup path = some handle)
      (ht : flags.trunc = true → s.files.lookup handle = none) :
      Steps s (.open path flags) { s with closed := s.closed.erase handle } (.ok (.handle handle))
  | truncated {path flags handle file}
      (hp : s.paths.lookup path = some handle) (hf : s.files.lookup handle = some file)
      (ht : flags.trunc) (hx : (flags.creat && flags.excl) = false) :
      Steps s (.open path flags)
        { s with
          files := s.files.insert handle .empty
          bytesUsed := s.bytesUsed - file.data.length
          closed := s.closed.erase handle }
        (.ok (.handle handle))
  | read {handle bufLen pos file} (hc : handle ∉ s.closed)
      (hf : s.files.lookup handle = some file) (hpos : pos ≤ file.data.length) :
      Steps s (.readAt handle bufLen pos) s
        ((resultToIo (asI32 (min (file.data.length - pos) bufLen : ℕ))).map fun n =>
          .read n ((file.data.drop pos).take (min (file.data.length - pos) bufLen)))
  | wrote {handle pos src file} (hc : handle ∉ s.closed)
      (hf : s.files.lookup handle = some file) (ha : s.Admits file (pos + src.length))
      (hstop : pos + src.length < 2 ^ 64) :
      Steps s (.writeAt handle src pos) (s.wrote handle file src pos)
        ((resultToIo (asI32 src.length)).map .count)
  | synced {handle datasync file} (hc : handle ∉ s.closed)
      (hl : s.fsyncLies = false) (hf : s.files.lookup handle = some file) :
      Steps s (.fsync handle datasync) { s with files := s.files.insert handle file.sync }
        (.ok .unit)
  | lied {handle datasync} (hc : handle ∉ s.closed) (hl : s.fsyncLies) :
      Steps s (.fsync handle datasync) s (.ok .unit)
  | allocated {handle offset len file} (hf : s.files.lookup handle = some file)
      (ha : s.Admits file (offset + len)) :
      Steps s (.fallocate handle offset len) (s.grown handle file (offset + len)) (.ok .unit)
  | extended {handle len file} (hf : s.files.lookup handle = some file)
      (hle : file.data.length ≤ len) (ha : s.Admits file len) :
      Steps s (.setLen handle len) (s.grown handle file len) (.ok .unit)
  | shrunk {handle len file} (hf : s.files.lookup handle = some file)
      (hlt : len < file.data.length) :
      Steps s (.setLen handle len)
        { s with
          files := s.files.insert handle (file.shrink len)
          bytesUsed := s.bytesUsed - (file.data.length - len) }
        (.ok .unit)
  | closed {handle} : Steps s (.close handle) (s.close handle) (.ok .unit)
  | renamed {source target handle} (hp : s.paths.lookup source = some handle)
      (ht : ∀ old, (s.paths.erase source).lookup target = some old → old = handle) :
      Steps s (.rename source target)
        { s with paths := (s.paths.erase source).insert target handle } (.ok .unit)
  | replaced {source target handle old} (hp : s.paths.lookup source = some handle)
      (ht : (s.paths.erase source).lookup target = some old) (hne : old ≠ handle) :
      Steps s (.rename source target)
        ({ s with paths := (s.paths.erase source).insert target handle }.discard old) (.ok .unit)
  | removed {path handle} (hp : s.paths.lookup path = some handle) :
      Steps s (.removeFile path) ({ s with paths := s.paths.erase path }.discard handle)
        (.ok .unit)
  | configured {op t} (ht : s.Configures op t) : Steps s op t (.ok .unit)
  | crashed (hu : s.reopened.bytesUsed < 2 ^ 64) :
      Steps s .crashAndReopen s.reopened (.ok .unit)

/-- A read of an open file starts past its end. -/
def pastEnd (s : SimState P) : Op P → Bool
  | .readAt handle _ pos =>
    decide (handle ∉ s.closed) &&
      (s.files.lookup handle).any fun file => decide (file.data.length < pos)
  | _ => false

/-- The file that a call would make longer, and the length that it asks for. -/
def asksFor (s : SimState P) : Op P → Option (ℕ × ℕ)
  | .writeAt handle src pos =>
    if handle ∈ s.closed then none else some (handle, pos + src.length)
  | .fallocate handle offset len => some (handle, offset + len)
  | .setLen handle len => some (handle, len)
  | _ => none

/-- The call asks for a length that is `bad` for its file. -/
def asks (s : SimState P) (op : Op P) (bad : SimFile → ℕ → Bool) : Bool :=
  (s.asksFor op).any fun (handle, newLen) =>
    (s.files.lookup handle).any fun file => bad file newLen

/-- The call adds to a `u64` more than it can hold, or makes a `Vec` too long. -/
def overflows (s : SimState P) : Op P → Bool
  | .open path flags =>
    decide (path ∉ s.paths ∧ flags.creat = true ∧ 2 ^ 64 ≤ s.nextHandle + 1)
  | .crashAndReopen => decide (2 ^ 64 ≤ s.reopened.bytesUsed)
  | op => s.asks op fun file newLen => decide (s.Exceeds file newLen)

/-- The call makes a `Vec` too long, after the bytes are counted. -/
def overlong (s : SimState P) (op : Op P) : Bool :=
  s.asks op fun file newLen =>
    decide (s.Overruns file newLen ∧ s.bytesUsed + (newLen - file.data.length) < 2 ^ 64)

/-- All that a call can leave which panics. -/
inductive Panics (s : SimState P) (op : Op P) : SimState P → Prop where
  | pastEnd (h : s.pastEnd op) : Panics s op s
  | overflowed (h : s.overflows op) : Panics s op s
  | overran {handle newLen file} (hop : s.asksFor op = some (handle, newLen))
      (hf : s.files.lookup handle = some file) (hx : s.Overruns file newLen) :
      Panics s op (s.overrun file newLen)

/-- All that a call can do: it returns or it panics. -/
inductive Outcome (s : SimState P) (op : Op P) :
    SimState P × Option (Except Error Value) → Prop where
  | returned {t r} (h : s.Steps op t r) : Outcome s op (t, some r)
  | panicked {t} (h : s.Panics op t) : Outcome s op (t, none)

/-! ### Growing a file -/

section Growing

variable {P : Type} {s t : SimState P} {handle newLen pos len : ℕ} {file : SimFile}

theorem Full.capacity_ne (h : s.Full file newLen) : s.capacityBytes ≠ none := by
  obtain ⟨-, cap, hcap, -⟩ := h
  rw [hcap]
  exact some_ne_none cap

theorem any_full_iff (h : file.data.length < newLen) : (s.capacityBytes.any fun cap =>
      decide (cap < s.bytesUsed + (newLen - file.data.length))) ↔ s.Full file newLen := by
  cases hcap : s.capacityBytes with
  | none => simp [Full, hcap]
  | some cap => simp [Full, hcap, h]

section

variable (p : Profile) (hf : s.files.lookup handle = some file)

include p hf

theorem growTo_of_le
    (h : newLen ≤ file.data.length) : s.growTo p handle newLen = (s, some (.ok ())) := by
  simp only [growTo, hf, map_some, getD_some, if_neg (not_lt.mpr h)]

theorem growTo_of_lt (h : file.data.length < newLen) : s.growTo p handle newLen =
      match p.add s.bytesUsed (newLen - file.data.length) with
      | none => (s, none)
      | some used =>
        if s.capacityBytes.any fun cap => decide (cap < used) then (s, some (.error enospc))
        else if isizeMax < newLen then ({ s with bytesUsed := used }, none)
        else
          ({ s with bytesUsed := used, files := s.files.insert handle (file.resize newLen) },
            some (.ok ())) := by
  have hmem : handle ∈ s.files := mem_of_lookup_eq_some hf
  simp only [growTo, hf, map_some, getD_some, if_pos h, modify_of_lookup hf, and_iff_right hmem]

theorem growTo_eq (hx : ¬ s.Overruns file newLen) : s.growTo p handle newLen =
      if s.Full file newLen then (s, some (.error enospc))
      else (s.grown handle file newLen, some (.ok ())) := by
  by_cases hlt : file.data.length < newLen
  · obtain ⟨hsum, hsize⟩ := not_or.mp (not_and.mp hx hlt)
    rw [growTo_of_lt p hf hlt, p.add_eq (lt_of_not_ge hsum)]
    simp only [any_full_iff hlt]
    split
    · rfl
    next hroom => exact if_neg fun h => hsize ⟨h, hroom⟩
  · have hge := le_of_not_gt hlt
    rw [growTo_of_le p hf hge, if_neg fun h => hlt h.1, grown, SimFile.resize_of_le hge,
      insert_of_lookup hf, Nat.sub_eq_zero_of_le hge, add_zero]

end

theorem growTo_of_overruns (hf : s.files.lookup handle = some file) (hx : s.Overruns file newLen) :
    s.growTo .debug handle newLen = (s.overrun file newLen, none) := by
  obtain ⟨hlt, hx⟩ := hx
  rw [growTo_of_lt _ hf hlt, overrun]
  rcases lt_or_ge (s.bytesUsed + (newLen - file.data.length)) (2 ^ 64) with hsum | hsum
  · obtain ⟨hsize, hroom⟩ := hx.resolve_left (not_le.mpr hsum)
    rw [Profile.add_eq _ hsum, if_pos hsum]
    simp only [if_neg (mt (any_full_iff hlt).mp hroom), if_pos hsize]
  · rw [Profile.debug_add hsum, if_neg (not_lt.mpr hsum)]

theorem Admits.le_capacity {cap : ℕ} (ha : s.Admits file newLen)
    (hlt : s.bytesUsed < s.bytesUsed + (newLen - file.data.length))
    (hcap : s.capacityBytes = some cap) : s.bytesUsed + (newLen - file.data.length) ≤ cap :=
  le_of_not_gt fun h => ha.2 ⟨by omega, cap, hcap, h⟩

theorem Admits.lt (ha : s.Admits file newLen) (hs : s.bytesUsed < 2 ^ 64) :
    s.bytesUsed + (newLen - file.data.length) < 2 ^ 64 := by
  by_cases hlt : file.data.length < newLen
  · exact lt_of_not_ge fun h => ha.1 ⟨hlt, .inl h⟩
  · rwa [Nat.sub_eq_zero_of_le (le_of_not_gt hlt), add_zero]

section

variable {β : Type} {fail : ℤ → β} {k : SimState P → SimState P × Option β}

theorem withRoom_eq (p : Profile) (hf : s.files.lookup handle = some file)
    (hx : ¬ s.Overruns file newLen) : s.withRoom p handle newLen fail k =
      if s.Full file newLen then (s, some (fail enospc)) else k (s.grown handle file newLen) := by
  rw [withRoom, growTo_eq p hf hx]
  by_cases hfull : s.Full file newLen
  · rw [if_pos hfull, if_pos hfull]
  · rw [if_neg hfull, if_neg hfull]

theorem withRoom_of_overruns (hf : s.files.lookup handle = some file)
    (hx : s.Overruns file newLen) :
    s.withRoom .debug handle newLen fail k = (s.overrun file newLen, none) := by
  rw [withRoom, growTo_of_overruns hf hx]

theorem withRange_eq (p : Profile) (hf : s.files.lookup handle = some file)
    (hx : ¬ s.Exceeds file (pos + len)) : s.withRange p handle pos len fail k =
      if s.Full file (pos + len) then (s, some (fail enospc))
      else k (s.grown handle file (pos + len)) := by
  obtain ⟨hsum, hx⟩ := not_or.mp hx
  rw [withRange, p.add_eq (lt_of_not_ge hsum)]
  exact withRoom_eq p hf hx

theorem withRange_of_exceeds (hf : s.files.lookup handle = some file)
    (hx : s.Exceeds file (pos + len)) :
    ∃ t, s.Left file (pos + len) t ∧ s.withRange .debug handle pos len fail k = (t, none) := by
  rw [withRange]
  rcases lt_or_ge (pos + len) (2 ^ 64) with hsum | hsum
  · have hx := hx.resolve_left (not_le.mpr hsum)
    rw [Profile.add_eq _ hsum]
    exact ⟨_, .inr ⟨hx, rfl⟩, withRoom_of_overruns hf hx⟩
  · rw [Profile.debug_add hsum]
    exact ⟨s, .inl ⟨.inl hsum, rfl⟩, rfl⟩

end

theorem land_of_files {src : List UInt8}
    (hfiles : t.files = s.files.insert handle (file.resize (pos + src.length)))
    (htorn : t.tornWrite = s.tornWrite) : t.land handle src pos =
      ({ t with tornWrite := none, files := (s.wrote handle file src pos).files },
        some (asI32 src.length)) := by
  have hle : pos + (src.take (s.applyLen src.length)).length ≤ pos + src.length :=
    Nat.add_le_add_left (length_take_le' _ _) _
  have happly : t.applyLen src.length = s.applyLen src.length := by
    rw [applyLen, htorn]
    rfl
  simp only [land, hfiles, lookup_insert, bind_some, happly, SimFile.overwrite_resize hle,
    insert_insert]
  rfl

theorem land_grown (s : SimState P) (handle : ℕ) (file : SimFile) (src : List UInt8) (pos : ℕ) :
    (s.grown handle file (pos + src.length)).land handle src pos =
      (s.wrote handle file src pos, some (asI32 src.length)) :=
  land_of_files rfl rfl

theorem writeAt_eq_withRange {src : List UInt8} (p : Profile) (hc : handle ∉ s.closed)
    (hf : s.files.lookup handle = some file) : s.writeAt p handle src pos =
      s.withRange p handle pos src.length (fun errno => -errno) fun t => t.land handle src pos := by
  have hopen : ¬ (handle ∈ s.closed ∨ handle ∉ s.files) :=
    not_or.mpr ⟨hc, not_not.mpr (mem_of_lookup_eq_some hf)⟩
  rw [writeAt, if_neg hopen]

theorem writeAt_eq {src : List UInt8} (p : Profile) (hc : handle ∉ s.closed)
    (hf : s.files.lookup handle = some file) (hx : ¬ s.Exceeds file (pos + src.length)) :
    s.writeAt p handle src pos =
      if s.Full file (pos + src.length) then (s, some (-enospc))
      else (s.wrote handle file src pos, some (asI32 src.length)) := by
  rw [writeAt_eq_withRange p hc hf, withRange_eq p hf hx, land_grown]

theorem fallocate_eq_withRange (p : Profile) (hf : s.files.lookup handle = some file) :
    s.fallocate p handle pos len = s.withRange p handle pos len (fun errno => .error (.os errno))
      fun t => (t, some (.ok ())) := by
  rw [fallocate, if_neg (not_not.mpr (mem_of_lookup_eq_some hf))]

end Growing

/-! ### Calls on a file that is open, and calls on one that is not -/

variable {s t : SimState P} {op : Op P} {handle newLen pos len : ℕ} {file : SimFile}

theorem apply_readAt (bufLen : ℕ) (hc : handle ∉ s.closed)
    (hf : s.files.lookup handle = some file) (hpos : pos ≤ file.data.length) :
    (Op.readAt handle bufLen pos).apply s =
      (s, some ((resultToIo (asI32 (min (file.data.length - pos) bufLen : ℕ))).map fun n =>
        .read n ((file.data.drop pos).take (min (file.data.length - pos) bufLen)))) := by
  have hle : pos + min (file.data.length - pos) bufLen ≤ file.data.length := by omega
  simp only [Op.apply, readAt, if_neg hc, hf, if_pos hle, map_some]

theorem apply_readAt_eq_none {bufLen : ℕ} (hc : handle ∉ s.closed)
    (hf : s.files.lookup handle = some file) (hpos : file.data.length < pos) :
    (Op.readAt handle bufLen pos).apply s = (s, none) := by
  have hlt : ¬ pos + min (file.data.length - pos) bufLen ≤ file.data.length := by omega
  simp only [Op.apply, readAt, if_neg hc, hf, if_neg hlt, map_none]

theorem apply_writeAt {src : List UInt8} (hc : handle ∉ s.closed)
    (hf : s.files.lookup handle = some file) (hx : ¬ s.Exceeds file (pos + src.length))
    (hroom : ¬ s.Full file (pos + src.length)) : (Op.writeAt handle src pos).apply s =
      (s.wrote handle file src pos, some ((resultToIo (asI32 src.length)).map .count)) := by
  rw [Op.apply, writeAt_eq _ hc hf hx, if_neg hroom]
  rfl

theorem apply_fallocate (hf : s.files.lookup handle = some file)
    (hx : ¬ s.Exceeds file (pos + len)) (hroom : ¬ s.Full file (pos + len)) :
    (Op.fallocate handle pos len).apply s =
      (s.grown handle file (pos + len), some (.ok .unit)) := by
  rw [Op.apply, fallocate_eq_withRange _ hf, withRange_eq _ hf hx, if_neg hroom]
  rfl

theorem apply_setLen_of_le (hf : s.files.lookup handle = some file)
    (hle : file.data.length ≤ len) (hx : ¬ s.Overruns file len) (hroom : ¬ s.Full file len) :
    (Op.setLen handle len).apply s = (s.grown handle file len, some (.ok .unit)) := by
  simp only [Op.apply, setLen, hf, if_pos hle, withRoom_eq _ hf hx, if_neg hroom]
  rfl

theorem apply_setLen_of_lt (hf : s.files.lookup handle = some file) (hlt : len < file.data.length) :
    (Op.setLen handle len).apply s = ({ s with
        files := s.files.insert handle (file.shrink len)
        bytesUsed := s.bytesUsed - (file.data.length - len) }, some (.ok .unit)) := by
  simp only [Op.apply, setLen, hf, if_neg (not_le.mpr hlt)]
  rfl

theorem apply_open_of_trunc {path : P} {flags : Flags} (hp : s.paths.lookup path = some handle)
    (hf : s.files.lookup handle = some file) (ht : flags.trunc)
    (hx : (flags.creat && flags.excl) = false) : (Op.open path flags).apply s = ({ s with
        files := s.files.insert handle .empty
        bytesUsed := s.bytesUsed - file.data.length
        closed := s.closed.erase handle }, some (.ok (.handle handle))) := by
  have hmem : path ∈ s.paths := mem_of_lookup_eq_some hp
  simp [Op.apply, SimState.open, hmem, hx, handleOf, hp, ht, truncate, hf, Except.map, ends]

theorem apply_of_bad (hop : op.handle? = some handle)
    (h : op.checksClosed = true ∧ handle ∈ s.closed ∨ handle ∉ s.files)
    (hl : handle ∈ s.closed ∨ s.fsyncLies = false ∨ ∀ datasync, op ≠ .fsync handle datasync) :
    op.apply s = (s, some (.error (.os ebadf))) := by
  cases op with
  | readAt handle' bufLen pos =>
    cases hop
    rcases h with ⟨-, hc⟩ | hno
    · simp [Op.apply, readAt, hc, resultToIo_ebadf, Except.map]
    · simp [Op.apply, readAt, lookup_eq_none.mpr hno, resultToIo_ebadf, Except.map]
  | writeAt handle' src pos =>
    cases hop
    rw [Op.apply, writeAt, if_pos (h.imp_left And.right)]
    simp [answer, resultToIo_ebadf, Except.map]
  | fsync handle' datasync =>
    cases hop
    by_cases hc : handle ∈ s.closed
    · simp [Op.apply, fsync, hc, Except.map]
    · have hno := h.resolve_left fun h => hc h.2
      have hl := (hl.resolve_left hc).resolve_right fun h => h _ rfl
      simp [Op.apply, fsync, hc, hl, lookup_eq_none.mpr hno, Except.map]
  | fallocate handle' offset len =>
    cases hop
    rw [Op.apply, fallocate, if_pos (h.resolve_left fun h => false_ne_true h.1)]
    rfl
  | setLen handle' len =>
    cases hop
    rw [Op.apply, setLen, lookup_eq_none.mpr (h.resolve_left fun h => false_ne_true h.1)]
    rfl
  | _ => simp [Op.handle?] at hop

/-! ### One lemma for each method -/

omit [DecidableEq P] in
theorem asks_eq {bad : SimFile → ℕ → Bool} (hop : s.asksFor op = some (handle, newLen))
    (hf : s.files.lookup handle = some file) : s.asks op bad = bad file newLen := by
  simp only [asks, hop, any_some, hf]

theorem overflows_of_asksFor (hop : s.asksFor op = some (handle, newLen))
    (hf : s.files.lookup handle = some file) : s.overflows op = decide (s.Exceeds file newLen) := by
  cases op with
  | writeAt | fallocate | setLen =>
    rw [overflows, asks_eq hop hf] <;> exact nofun
  | _ => cases hop

omit [DecidableEq P] in
theorem asksFor_writeAt {src : List UInt8} (hc : handle ∉ s.closed) :
    s.asksFor (.writeAt handle src pos) = some (handle, pos + src.length) := if_neg hc

theorem panics_of_left (hop : s.asksFor op = some (handle, newLen))
    (hf : s.files.lookup handle = some file) (ht : s.Left file newLen t) : s.Panics op t := by
  rcases ht with ⟨hx, rfl⟩ | ⟨hx, rfl⟩
  · refine .overflowed ?_
    rw [overflows_of_asksFor hop hf]
    exact decide_eq_true hx
  · exact .overran hop hf hx

theorem outcome_open (s : SimState P) (path : P) (flags : Flags) :
    s.Outcome (.open path flags) ((Op.open path flags).apply s) := by
  simp only [Op.apply, SimState.open]
  split
  · exact .returned (.failed (.alreadyExists rfl))
  next hnew =>
    split
    · exact .returned (.failed (.notFound rfl))
    next hcreat =>
      rw [handleOf]
      cases hp : s.paths.lookup path with
      | some old =>
        cases ht : flags.trunc with
        | false => exact .returned (.opened hp (by simp [ht]))
        | true =>
          cases hf : s.files.lookup old with
          | none =>
            simp only [map_some, truncate, hf, if_true]
            exact .returned (.opened hp fun _ => hf)
          | some file =>
            simp only [map_some, truncate, hf, if_true]
            refine .returned (.truncated hp hf ht ?_)
            rw [eq_false_iff]
            exact fun hx => hnew ⟨mem_of_lookup_eq_some hp, hx⟩
      | none =>
        rcases lt_or_ge (s.nextHandle + 1) (2 ^ 64) with hbound | hbound
        · rw [Profile.add_eq _ hbound]
          cases ht : flags.trunc with
          | false => exact .returned (.created hp hbound)
          | true =>
            -- there is nothing to truncate
            simp only [map_some, truncate, lookup_insert, insert_insert, if_true]
            exact .returned (.created hp hbound)
        · have hno := lookup_eq_none.mp hp
          have hflag : flags.creat := by
            rw [← not_eq_false]
            exact fun hf => hcreat ⟨hno, hf⟩
          rw [Profile.debug_add hbound]
          exact .panicked (.overflowed (decide_eq_true ⟨hno, hflag, hbound⟩))

/-- A call on a bad handle is refused; it remains to say what one on an open file does. -/
theorem outcome_of_open (hop : op.handle? = some handle)
    (hl : ∀ datasync, op ≠ .fsync handle datasync) (h : ∀ file, s.files.lookup handle = some file →
      (op.checksClosed = true → handle ∉ s.closed) → s.Outcome op (op.apply s)) :
    s.Outcome op (op.apply s) := by
  by_cases hbad : op.checksClosed = true ∧ handle ∈ s.closed ∨ handle ∉ s.files
  · rw [apply_of_bad hop hbad (.inr (.inr hl))]
    exact .returned (.failed (.badHandle hop hbad))
  · obtain ⟨hc, hmem⟩ := not_or.mp hbad
    obtain ⟨file, hf⟩ := mem_iff.mp (not_not.mp hmem)
    exact h file hf (not_and.mp hc)

theorem outcome_readAt (s : SimState P) (handle bufLen pos : ℕ) :
    s.Outcome (.readAt handle bufLen pos) ((Op.readAt handle bufLen pos).apply s) := by
  refine outcome_of_open rfl nofun fun file hf hc => ?_
  have hc := hc rfl
  rcases le_or_gt pos file.data.length with hpos | hpos
  · rw [apply_readAt _ hc hf hpos]
    exact .returned (.read hc hf hpos)
  · rw [apply_readAt_eq_none hc hf hpos]
    refine .panicked (.pastEnd ?_)
    rw [pastEnd, hf, and_eq_true]
    exact ⟨decide_eq_true hc, decide_eq_true hpos⟩

theorem outcome_writeAt (s : SimState P) (handle : ℕ) (src : List UInt8) (pos : ℕ) :
    s.Outcome (.writeAt handle src pos) ((Op.writeAt handle src pos).apply s) := by
  refine outcome_of_open rfl nofun fun file hf hc => ?_
  have hc := hc rfl
  by_cases hx : s.Exceeds file (pos + src.length)
  · obtain ⟨t, ht, heq⟩ := withRange_of_exceeds hf hx
    rw [Op.apply, writeAt_eq_withRange _ hc hf, heq]
    exact .panicked (panics_of_left (asksFor_writeAt hc) hf ht)
  · by_cases hfull : s.Full file (pos + src.length)
    · rw [Op.apply, writeAt_eq _ hc hf hx, if_pos hfull, answer, map_some, resultToIo_enospc]
      exact .returned (.failed (.noSpace hfull.capacity_ne))
    · rw [apply_writeAt hc hf hx hfull]
      obtain ⟨hsum, hx⟩ := not_or.mp hx
      exact .returned (.wrote hc hf ⟨hx, hfull⟩ (lt_of_not_ge hsum))

theorem outcome_fsync (s : SimState P) (handle : ℕ) (datasync : Bool) :
    s.Outcome (.fsync handle datasync) ((Op.fsync handle datasync).apply s) := by
  rw [Op.apply, fsync]
  split <;> rename_i hc
  · exact .returned (.failed (.badHandle rfl (.inl ⟨rfl, hc⟩)))
  · split
    next hl => exact .returned (.lied hc hl)
    next hl =>
      split
      next hf => exact .returned (.failed (.badHandle rfl (.inr (lookup_eq_none.mp hf))))
      next file hf => exact .returned (.synced hc (eq_false_iff.mpr hl) hf)

theorem outcome_fallocate (s : SimState P) (handle offset len : ℕ) :
    s.Outcome (.fallocate handle offset len) ((Op.fallocate handle offset len).apply s) := by
  refine outcome_of_open rfl nofun fun file hf _ => ?_
  by_cases hx : s.Exceeds file (offset + len)
  · obtain ⟨t, ht, heq⟩ := withRange_of_exceeds hf hx
    rw [Op.apply, fallocate_eq_withRange _ hf, heq]
    exact .panicked (panics_of_left rfl hf ht)
  · by_cases hfull : s.Full file (offset + len)
    · rw [Op.apply, fallocate_eq_withRange _ hf, withRange_eq _ hf hx, if_pos hfull]
      exact .returned (.failed (.noSpace hfull.capacity_ne))
    · rw [apply_fallocate hf hx hfull]
      exact .returned (.allocated hf ⟨(not_or.mp hx).2, hfull⟩)

theorem outcome_setLen (s : SimState P) (handle len : ℕ) :
    s.Outcome (.setLen handle len) ((Op.setLen handle len).apply s) := by
  refine outcome_of_open rfl nofun fun file hf _ => ?_
  rcases le_or_gt file.data.length len with hle | hlt
  · by_cases hx : s.Overruns file len
    · simp only [Op.apply, setLen, hf, if_pos hle, withRoom_of_overruns hf hx]
      exact .panicked (.overran rfl hf hx)
    · by_cases hfull : s.Full file len
      · simp only [Op.apply, setLen, hf, if_pos hle, withRoom_eq _ hf hx, if_pos hfull]
        exact .returned (.failed (.noSpace hfull.capacity_ne))
      · rw [apply_setLen_of_le hf hle hx hfull]
        exact .returned (.extended hf hle ⟨hx, hfull⟩)
  · rw [apply_setLen_of_lt hf hlt]
    exact .returned (.shrunk hf hlt)

theorem outcome_rename (s : SimState P) (source target : P) :
    s.Outcome (.rename source target) ((Op.rename source target).apply s) := by
  rw [Op.apply, rename]
  cases hp : s.paths.lookup source with
  | none => exact .returned (.failed (.notFound rfl))
  | some handle =>
    cases ht : (s.paths.erase source).lookup target with
    | none =>
      simp only [ht]
      exact .returned (.renamed hp (by simp [ht]))
    | some old =>
      simp only [ht]
      by_cases hne : old = handle
      · rw [if_neg (not_not.mpr hne)]
        exact .returned (.renamed hp fun old' hold => (some.inj (ht.symm.trans hold)) ▸ hne)
      · rw [if_pos hne]
        exact .returned (.replaced hp ht hne)

theorem outcome_removeFile (s : SimState P) (path : P) :
    s.Outcome (.removeFile path) ((Op.removeFile path).apply s) := by
  rw [Op.apply, removeFile]
  cases hp : s.paths.lookup path with
  | none => exact .returned (.failed (.notFound rfl))
  | some handle => exact .returned (.removed hp)

theorem outcome_crashAndReopen (s : SimState P) :
    s.Outcome .crashAndReopen (Op.crashAndReopen.apply s) := by
  rw [Op.apply, crashAndReopen]
  split
  next hbound => exact .returned (.crashed hbound)
  next hbound => exact .panicked (.overflowed (decide_eq_true (le_of_not_gt hbound)))

theorem outcome_apply (s : SimState P) (op : Op P) : s.Outcome op (op.apply s) := by
  cases op with
  | «open» path flags => exact outcome_open s path flags
  | readAt handle bufLen pos => exact outcome_readAt s handle bufLen pos
  | writeAt handle src pos => exact outcome_writeAt s handle src pos
  | fsync handle datasync => exact outcome_fsync s handle datasync
  | fallocate handle offset len => exact outcome_fallocate s handle offset len
  | setLen handle len => exact outcome_setLen s handle len
  | close handle => exact .returned .closed
  | rename source target => exact outcome_rename s source target
  | removeFile path => exact outcome_removeFile s path
  | setDiskFullAt capacity => exact .returned (.configured (.setDiskFullAt capacity))
  | setFsyncLies lies => exact .returned (.configured (.setFsyncLies lies))
  | injectTornWrite cut => exact .returned (.configured (.injectTornWrite cut))
  | crashAndReopen => exact outcome_crashAndReopen s

theorem steps_of_apply {r : Except Error Value} (h : op.apply s = (t, some r)) :
    s.Steps op t r := by
  cases h ▸ outcome_apply s op with
  | returned h => exact h

theorem panics_of_apply (h : op.apply s = (t, none)) : s.Panics op t := by
  cases h ▸ outcome_apply s op with
  | panicked h => exact h

end SimState

/-! ## Invariants -/

namespace SimDriver

variable {P : Type} [DecidableEq P] {d : SimDriver P} {op : Op P}

theorem call_cases (d : SimDriver P) (op : Op P) : (∃ t, d.call op = (⟨t, true⟩, .panicked)) ∨
      ∃ t r, d.poisoned = false ∧ d.inner.Steps op t r ∧ d.call op = (⟨t, false⟩, .returned r) := by
  rw [call]
  split
  next hp => exact .inl ⟨d.inner, by rw [← hp]⟩
  next hp =>
    split
    next t r ha => exact .inr ⟨t, r, eq_false_iff.mpr hp, SimState.steps_of_apply ha, rfl⟩
    next t ha => exact .inl ⟨t, rfl⟩

/-- What every call keeps that returns holds as long as none has panicked. -/
theorem inv_of_reachable {I : SimState P → Prop} (h0 : I .empty)
    (hstep : ∀ s op t r, I s → SimState.Steps s op t r → I t) (h : (driver P).Reachable d)
    (hp : d.poisoned = false) : I d.inner := by
  refine System.inv_of_reachable (I := fun d => d.poisoned = false → I d.inner) (fun _ => h0)
    (fun d op v hI hs => ?_) h hp
  cases hs
  rcases call_cases d op with ⟨t, heq⟩ | ⟨t, r, hp, hst, heq⟩ <;> rw [heq]
  · exact nofun
  · exact fun _ => hstep _ _ _ _ (hI hp) hst

end SimDriver

/-! ## Calls that fail -/

section Failures

variable {P : Type}

/-- The length of the buffer fits the `i32` that carries the answer. -/
def Op.fitsI32 : Op P → Bool
  | .readAt _ bufLen _ => decide (bufLen < 2 ^ 31)
  | .writeAt _ src _ => decide (src.length < 2 ^ 31)
  | _ => true

theorem SimState.refuses_of_error [DecidableEq P] {s t : SimState P} {op : Op P} {e : Error}
    {r : Except Error Value} (hfits : op.fitsI32) (hs : s.Steps op t r)
    (hr : r = .error e) : t = s ∧ s.Refuses op e := by
  cases hs with
  | failed he =>
    cases hr
    exact ⟨rfl, he⟩
  | @read handle bufLen pos file hc hf hpos =>
    have hlt : min (file.data.length - pos) bufLen < 2 ^ 31 :=
      lt_of_le_of_lt (min_le_right _ _) (of_decide_eq_true hfits)
    rw [resultToIo_asI32 hlt] at hr
    simp [Except.map] at hr
  | wrote hc hf ha hstop =>
    rw [resultToIo_asI32 (of_decide_eq_true hfits)] at hr
    simp [Except.map] at hr
  | _ => cases hr

section Closed

variable [DecidableEq P] {s t : SimState P} {op : Op P} {handle : ℕ}

theorem Op.not_ebadf_of_mem {r : Except Error Value} (hop : op.handle? = some handle)
    (hcheck : op.checksClosed = false) (hmem : handle ∈ s.files)
    (ha : op.apply s = (t, some r)) : r ≠ .error (.os ebadf) := by
  intro hr
  have hfits : op.fitsI32 := by
    cases op <;> first | rfl | cases hcheck
  obtain ⟨-, he⟩ := SimState.refuses_of_error hfits (SimState.steps_of_apply ha) hr
  cases he with
  | badHandle hop' h =>
    cases hop.symm.trans hop'
    rcases h with ⟨hc, -⟩ | hno
    · cases hcheck.symm.trans hc
    · exact hno hmem

end Closed

namespace SimDriver

variable [DecidableEq P] {d : SimDriver P} {op : Op P} {r : Except Error Value}

theorem of_returned (h : (d.call op).2 = .returned r) :
    d.poisoned = false ∧ ∃ t, op.apply d.inner = (t, some r) ∧ (d.call op).1 = ⟨t, false⟩ := by
  rw [call] at h ⊢
  split at h
  · cases h
  next hp =>
    rw [if_neg hp]
    split at h
    next t q ha =>
      cases h
      exact ⟨eq_false_iff.mpr hp, t, ha, rfl⟩
    · cases h

omit [DecidableEq P] in
theorem eq_of_sound (h : d.poisoned = false) : d = ⟨d.inner, false⟩ := by
  rw [← h]

theorem call_of_apply {t : SimState P} (hp : d.poisoned = false)
    (ha : op.apply d.inner = (t, some r)) : d.call op = (⟨t, false⟩, .returned r) := by
  rw [call, if_neg (by simp [hp]), ha]

/-- **A call that fails changes nothing.**  Whatever the state and the call, as long as the length
of the buffer fits the `i32` that carries the answer: an error is one of four, and the driver is
what it was, down to a torn write that is still to come. -/
theorem failed_unchanged (d : SimDriver P) (op : Op P) (e : Error) (hfits : op.fitsI32 = true)
    (h : (d.call op).2 = .returned (.error e)) : (d.call op).1 = d ∧
      (e = .os ebadf ∨ e = .os enospc ∨ e = .notFound ∨ e = .alreadyExists) := by
  obtain ⟨hp, t, ha, heq⟩ := of_returned h
  obtain ⟨rfl, he⟩ := SimState.refuses_of_error hfits (SimState.steps_of_apply ha) rfl
  refine ⟨heq.trans (eq_of_sound hp).symm, ?_⟩
  cases he with
  | badHandle => exact .inl rfl
  | noSpace => exact .inr (.inl rfl)
  | notFound => exact .inr (.inr (.inl rfl))
  | alreadyExists => exact .inr (.inr (.inr rfl))

theorem failed_unchanged_of_full :
    ∃ d, (driver ℕ).run .new [.open 7 ⟨true, false, false⟩, .setDiskFullAt 2,
        .injectTornWrite fun n => n / 2] = some d ∧
      (d.call (.writeAt 0 [1, 2, 3] 0)).2 = .returned (.error (.os enospc)) ∧
      d.inner.tornWrite.isSome = true ∧ (d.call (.writeAt 0 [1, 2, 3] 0)).1 = d := by
  refine ⟨_, rfl, rfl, rfl, ?_⟩
  exact (failed_unchanged _ (.writeAt 0 [1, 2, 3] 0) (.os enospc) (by decide) rfl).1

/-- **Closed handles.**  A call on a handle that is closed fails with `EBADF` and changes nothing
exactly when the method looks at `closed` --- `read_at`, `write_at` and `fsync` do --- or the file
is no longer in the table.  `fallocate` and `set_len` only ask for the file. -/
theorem ebadf_of_closed_iff (d : SimDriver P) (op : Op P) (handle : ℕ)
    (hop : op.handle? = some handle) (hp : d.poisoned = false) (hc : handle ∈ d.inner.closed) :
    d.call op = (d, .returned (.error (.os ebadf))) ↔
      op.checksClosed = true ∨ handle ∉ d.inner.files := by
  constructor
  · intro hcall
    by_contra hno
    obtain ⟨hcheck, hmem⟩ := not_or.mp hno
    obtain ⟨-, t, ha, -⟩ := of_returned (congrArg Prod.snd hcall)
    exact Op.not_ebadf_of_mem hop (eq_false_iff.mpr hcheck) (not_not.mp hmem) ha rfl
  · intro h
    rw [call_of_apply hp (SimState.apply_of_bad hop (h.imp_left fun h => ⟨h, hc⟩) (.inl hc)),
      ← eq_of_sound hp]

theorem ebadf_after_close :
    (∃ d, (driver ℕ).run .new [.open 7 ⟨true, false, false⟩, .close 0] = some d ∧
      d.call (.readAt 0 4 0) = (d, .returned (.error (.os ebadf)))) ∧
    ∃ d, (driver ℕ).run .new [.open 7 ⟨true, false, false⟩, .close 0, .removeFile 7] = some d ∧
      d.call (.setLen 0 4) = (d, .returned (.error (.os ebadf))) := by
  constructor
  · refine ⟨_, rfl, ?_⟩
    exact (ebadf_of_closed_iff _ (.readAt 0 4 0) 0 rfl rfl (by decide)).mpr (.inl rfl)
  · refine ⟨_, rfl, ?_⟩
    exact (ebadf_of_closed_iff _ (.setLen 0 4) 0 rfl rfl (by decide)).mpr (.inr (by decide))

/-- On a handle that is closed, `fallocate` and `set_len` return `Ok` and change the file. -/
theorem exists_closed_and_grown :
    ∃ d, (driver ℕ).run .new [.open 7 ⟨true, false, false⟩, .close 0] = some d ∧
      0 ∈ d.inner.closed ∧ (d.call (.fallocate 0 0 3)).2 = .returned (.ok .unit) ∧
      (d.call (.fallocate 0 0 3)).1.inner.bytesUsed = 3 ∧
      (d.call (.setLen 0 5)).2 = .returned (.ok .unit) ∧
      (d.call (.setLen 0 5)).1.inner.files.lookup 0 = some ⟨[0, 0, 0, 0, 0], 0⟩ :=
  ⟨_, rfl, by decide, rfl, rfl, rfl, rfl⟩

end SimDriver

end Failures

end RustyTokio.Sim

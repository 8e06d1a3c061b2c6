import RustyTokio.Io.SimBooks
import RustyTokio.Io.SimBounds
import RustyTokio.Transition.Content

/-!
# `SimDriver` as a store of files

Without faults the driver is to be an ordinary store of files.  What that is, is said by a
reference: names lead to handles, handles to files, and a file is a length with a byte at every
position.  The reference knows nothing of vectors, of counts and capacities, of marks or of
overflow.
-/

namespace RustyTokio.Sim

open Transition Option Finmap FiniteMap Function Content SimState SimFile

/-! ## The reference -/

structure RefStore (P : Type) where
  names : P → Option ℕ
  files : ℕ → Option (Content UInt8 0)
  next : ℕ

namespace RefStore

variable {P : Type}

def empty : RefStore P := ⟨fun _ => none, fun _ => none, 0⟩

def put (r : RefStore P) (handle : ℕ) (c : Content UInt8 0) : RefStore P :=
  { r with files := Function.update r.files handle (some c) }

def onFile (r : RefStore P) (handle : ℕ) (f : Content UInt8 0 → Content UInt8 0 × Value) :
    RefStore P × Except Error Value :=
  match r.files handle with
  | none => (r, .error (.os ebadf))
  | some c => (r.put handle (f c).1, .ok (f c).2)

def filesWithout (r : RefStore P) (path : P) : ℕ → Option (Content UInt8 0) :=
  match r.names path with
  | none => r.files
  | some old => Function.update r.files old none

variable [DecidableEq P]

def «open» (r : RefStore P) (path : P) (flags : Flags) : RefStore P × Except Error Value :=
  match r.names path with
  | some handle =>
    if flags.creat && flags.excl then (r, .error .alreadyExists)
    else (if flags.trunc then r.put handle .empty else r, .ok (.handle handle))
  | none =>
    if flags.creat then
      ({ names := Function.update r.names path (some r.next)
         files := Function.update r.files r.next (some .empty)
         next := r.next + 1 }, .ok (.handle r.next))
    else (r, .error .notFound)

def rename (r : RefStore P) (source target : P) : RefStore P × Except Error Value :=
  match r.names source with
  | none => (r, .error .notFound)
  | some handle =>
    if source = target then (r, .ok .unit)
    else
      ({ r with
          names := Function.update (Function.update r.names source none) target (some handle)
          files := r.filesWithout target }, .ok .unit)

def removeFile (r : RefStore P) (path : P) : RefStore P × Except Error Value :=
  match r.names path with
  | none => (r, .error .notFound)
  | some _ =>
    ({ r with
        names := Function.update r.names path none
        files := r.filesWithout path }, .ok .unit)

/-- A call and its answer.  The calls that configure faults are not the business of a store. -/
def call (r : RefStore P) : Op P → RefStore P × Except Error Value
  | .open path flags => r.open path flags
  | .readAt handle bufLen pos =>
    r.onFile handle fun c => (c, .read (min (c.len - pos) bufLen) (c.read pos bufLen))
  | .writeAt handle src pos => r.onFile handle fun c => (c.write pos src, .count src.length)
  | .fsync handle _ => r.onFile handle fun c => (c, .unit)
  | .fallocate handle offset len => r.onFile handle fun c => (c.extend (offset + len), .unit)
  | .setLen handle len => r.onFile handle fun c => (c.setLen len, .unit)
  | .rename source target => r.rename source target
  | .removeFile path => r.removeFile path
  | _ => (r, .ok .unit)

def after (r : RefStore P) (ops : List (Op P)) : RefStore P :=
  ops.foldl (fun r op => (r.call op).1) r

end RefStore

/-! ## What the driver stands for -/

def SimFile.content (file : SimFile) : Content UInt8 0 := .ofList file.data

namespace SimFile

theorem content_resize (file : SimFile) (n : ℕ) :
    (file.resize n).content = file.content.extend n := ofList_rightpad _ _

theorem content_written (file : SimFile) (pos : ℕ) (src : List UInt8) :
    (file.written pos src (pos + src.length)).content = file.content.write pos src := by
  have hlen := length_resize file (pos + src.length)
  have hle : pos + src.length ≤ (file.data.rightpad (pos + src.length) 0).length := by
    rw [resize] at hlen
    rw [hlen]
    exact le_max_right _ _
  rw [content, written, ofList_splice hle, ofList_rightpad, write_extend, content]

theorem content_shrink {file : SimFile} {n : ℕ} (h : n ≤ file.data.length) :
    (file.shrink n).content = file.content.setLen n := ofList_take h

end SimFile

namespace SimState

variable {P : Type} [DecidableEq P]

def ref (s : SimState P) : RefStore P where
  names path := s.paths.lookup path
  files handle := (s.files.lookup handle).map SimFile.content
  next := s.nextHandle

section

variable {s t : SimState P} {handle : ℕ} {file : SimFile}

theorem ref_put (hp : t.paths = s.paths) (hf : t.files = s.files.insert handle file)
    (hn : t.nextHandle = s.nextHandle) : t.ref = s.ref.put handle file.content := by
  have hfiles : t.ref.files = Function.update s.ref.files handle (some file.content) := by
    funext i
    simp only [ref, hf, lookup_insert_eq, update_apply]
    split <;> rfl
  rw [RefStore.put, ← hfiles, ref, ref, hp, hn]

theorem ref_files_of_lookup (hf : s.files.lookup handle = some file) :
    s.ref.files handle = some file.content := by
  simp only [ref, hf, map_some]

theorem ref_files_of_notMem (hno : handle ∉ s.files) : s.ref.files handle = none := by
  simp only [ref, lookup_eq_none.mpr hno, map_none]

theorem ref_files_discard (s : SimState P) (handle : ℕ) :
    (s.discard handle).ref.files = Function.update s.ref.files handle none := by
  cases hf : s.files.lookup handle with
  | none =>
    simp only [discard, hf]
    rw [← ref_files_of_notMem (lookup_eq_none.mp hf), update_eq_self]
  | some file =>
    funext i
    simp only [discard, hf, ref, lookup_erase_eq, update_apply]
    split <;> rfl

omit [DecidableEq P] in
theorem discard_rest (s : SimState P) (handle : ℕ) :
    (s.discard handle).paths = s.paths ∧ (s.discard handle).nextHandle = s.nextHandle ∧
      (s.discard handle).capacityBytes = s.capacityBytes ∧
      (s.discard handle).fsyncLies = s.fsyncLies ∧ (s.discard handle).tornWrite = s.tornWrite := by
  rw [discard]
  split <;> exact ⟨rfl, rfl, rfl, rfl, rfl⟩

end

/-! ## The calls that are compared -/

end SimState

def Op.isFault {P : Type} : Op P → Bool
  | .setDiskFullAt _ => true
  | .setFsyncLies _ => true
  | .injectTornWrite _ => true
  | .crashAndReopen => true
  | _ => false

/-- The call is one of a store of files, and no empty write. -/
def Op.plain {P : Type} : Op P → Bool
  | .writeAt _ src _ => !src.isEmpty
  | op => !op.isFault

theorem Op.isFault_of_plain {P : Type} {op : Op P} (h : op.plain) : op.isFault = false := by
  cases op with
  | writeAt => rfl
  | _ => simpa [plain] using h

namespace SimState

variable {P : Type} [DecidableEq P]

/-- A call of a store of files, on an open handle, with a buffer whose length is an `i32`, that does
not panic. -/
def Orderly (s : SimState P) (op : Op P) : Prop :=
  op.plain = true ∧ op.fitsI32 = true ∧
    (op.handle?.all fun handle => decide (handle ∉ s.closed)) = true ∧
    s.pastEnd op = false ∧ s.overflows op = false

instance (s : SimState P) (op : Op P) : Decidable (s.Orderly op) :=
  inferInstanceAs (Decidable (_ ∧ _))

/-- No fault is injected. -/
structure Calm (s : SimState P) : Prop where
  sound : s.Sound
  capacity : s.capacityBytes = none
  honest : s.fsyncLies = false
  whole : s.tornWrite = none

/-- The operation does to the store what the reference does. -/
def Simulates (s : SimState P) (op : Op P) : Prop :=
  ∃ t, op.apply s = (t, some (s.ref.call op).2) ∧ t.ref = (s.ref.call op).1

section

variable {s t : SimState P} {op : Op P} {handle : ℕ} {file : SimFile} {r : Except Error Value}
  {path : P} {f : Content UInt8 0 → Content UInt8 0 × Value} {pos len : ℕ} {flags : Flags}

theorem knobs_of_steps (hop : op.isFault = false) (hs : s.Steps op t r) :
    t.capacityBytes = s.capacityBytes ∧ t.fsyncLies = s.fsyncLies ∧
      (t.tornWrite = s.tornWrite ∨ t.tornWrite = none) := by
  cases hs with
  | wrote => exact ⟨rfl, rfl, .inr rfl⟩
  | @replaced source target handle old =>
    obtain ⟨-, -, hc, hl, ht⟩ := discard_rest
      { s with paths := (s.paths.erase source).insert target handle } old
    exact ⟨hc, hl, .inl ht⟩
  | @removed path handle =>
    obtain ⟨-, -, hc, hl, ht⟩ := discard_rest { s with paths := s.paths.erase path } handle
    exact ⟨hc, hl, .inl ht⟩
  | configured ht => cases ht <;> simp [Op.isFault] at hop
  | crashed => simp [Op.isFault] at hop
  | _ => exact ⟨rfl, rfl, .inl rfl⟩

theorem calm_of_steps (h : s.Calm) (hop : op.plain) (hs : s.Steps op t r) : t.Calm := by
  obtain ⟨hc, hl, ht⟩ := knobs_of_steps (Op.isFault_of_plain hop) hs
  exact ⟨sound_of_steps h.sound hs, hc.trans h.capacity, hl.trans h.honest,
    ht.elim (fun ht => ht.trans h.whole) id⟩

/-! ## One call -/

/-- A call on no file fails in both; it remains to look at the files. -/
theorem simulates_of_files (hop : op.handle? = some handle)
    (hcall : s.ref.call op = s.ref.onFile handle f) (hl : s.fsyncLies = false)
    (h : ∀ file, s.files.lookup handle = some file → s.Simulates op) : s.Simulates op := by
  cases hf : s.files.lookup handle with
  | some file => exact h file hf
  | none =>
    have hno := lookup_eq_none.mp hf
    rw [RefStore.onFile, ref_files_of_notMem hno] at hcall
    rw [Simulates, hcall]
    exact ⟨s, apply_of_bad hop (.inr hno) (.inr (.inl hl)), rfl⟩

theorem simulates_of_put (file' : SimFile)
    (hcall : s.ref.call op = s.ref.onFile handle f) (hf : s.files.lookup handle = some file)
    (ha : op.apply s = (t, some (.ok (f file.content).2))) (hp : t.paths = s.paths)
    (hn : t.nextHandle = s.nextHandle) (hfiles : t.files = s.files.insert handle file')
    (hc : file'.content = (f file.content).1) : s.Simulates op := by
  have hanswer : s.ref.call op =
      (s.ref.put handle (f file.content).1, .ok (f file.content).2) := by
    rw [hcall, RefStore.onFile, ref_files_of_lookup hf]
  rw [Simulates, hanswer, ← hc]
  exact ⟨t, ha, ref_put hp hfiles hn⟩

theorem admits_of_calm {newLen : ℕ} (h : s.Calm) (hop : s.asksFor op = some (handle, newLen))
    (hf : s.files.lookup handle = some file) (hadd : s.overflows op = false) :
    ¬ s.Exceeds file newLen ∧ ¬ s.Full file newLen := by
  rw [overflows_of_asksFor hop hf, decide_eq_false_iff_not] at hadd
  exact ⟨hadd, fun hfull => hfull.capacity_ne h.capacity⟩

theorem simulates_readAt {bufLen : ℕ} (h : s.Calm)
    (ho : s.Orderly (.readAt handle bufLen pos)) : s.Simulates (.readAt handle bufLen pos) := by
  obtain ⟨-, hfits, hopen, hend, -⟩ := ho
  have hc : handle ∉ s.closed := of_decide_eq_true hopen
  refine simulates_of_files rfl rfl h.honest fun file hf => ?_
  have hpos : pos ≤ file.data.length := by
    refine le_of_not_gt fun hlt => ?_
    simp [pastEnd, hc, hf, hlt] at hend
  have hlt : min (file.data.length - pos) bufLen < 2 ^ 31 :=
    lt_of_le_of_lt (min_le_right _ _) (of_decide_eq_true hfits)
  have ha := apply_readAt bufLen hc hf hpos
  rw [resultToIo_asI32 hlt] at ha
  refine simulates_of_put file rfl hf ?_ rfl rfl (insert_of_lookup hf).symm rfl
  rw [ha, SimFile.content, read_ofList]
  rfl

theorem simulates_writeAt {src : List UInt8} (h : s.Calm)
    (ho : s.Orderly (.writeAt handle src pos)) : s.Simulates (.writeAt handle src pos) := by
  obtain ⟨-, hfits, hopen, -, hadd⟩ := ho
  have hc : handle ∉ s.closed := of_decide_eq_true hopen
  refine simulates_of_files rfl rfl h.honest fun file hf => ?_
  obtain ⟨hx, hroom⟩ := admits_of_calm h (asksFor_writeAt hc) hf hadd
  -- no write is torn
  have hwhole : src.take (s.applyLen src.length) = src := by
    rw [applyLen, h.whole, map_none, getD_none, min_self, List.take_length]
  have ha := apply_writeAt hc hf hx hroom
  rw [resultToIo_asI32 (of_decide_eq_true hfits)] at ha
  refine simulates_of_put (file.written pos src (pos + src.length)) rfl hf ha rfl rfl
    ?_ (content_written file pos src)
  rw [wrote, hwhole]

theorem simulates_fsync {datasync : Bool} (h : s.Calm) (ho : s.Orderly (.fsync handle datasync)) :
    s.Simulates (.fsync handle datasync) := by
  have hc : handle ∉ s.closed := of_decide_eq_true ho.2.2.1
  refine simulates_of_files rfl rfl h.honest fun file hf => ?_
  refine simulates_of_put file.sync
    (t := { s with files := s.files.insert handle file.sync }) rfl hf ?_ rfl rfl rfl rfl
  simp [Op.apply, fsync, hc, h.honest, hf, Except.map]

theorem simulates_fallocate {offset : ℕ} (h : s.Calm)
    (ho : s.Orderly (.fallocate handle offset len)) :
    s.Simulates (.fallocate handle offset len) := by
  refine simulates_of_files rfl rfl h.honest fun file hf => ?_
  obtain ⟨hx, hroom⟩ := admits_of_calm h rfl hf ho.2.2.2.2
  exact simulates_of_put _ rfl hf (apply_fallocate hf hx hroom) rfl rfl rfl
    (content_resize file (offset + len))

theorem simulates_setLen (h : s.Calm) (ho : s.Orderly (.setLen handle len)) :
    s.Simulates (.setLen handle len) := by
  refine simulates_of_files rfl rfl h.honest fun file hf => ?_
  by_cases hle : file.data.length ≤ len
  · obtain ⟨hx, hroom⟩ := admits_of_calm h rfl hf ho.2.2.2.2
    have ha := apply_setLen_of_le hf hle (not_or.mp hx).2 hroom
    refine simulates_of_put _ rfl hf ha rfl rfl rfl ?_
    rw [content_resize]
    exact extend_eq_setLen hle
  · exact simulates_of_put _ rfl hf (apply_setLen_of_lt hf (lt_of_not_ge hle)) rfl rfl rfl
      (content_shrink (Nat.le_of_not_le hle))

theorem simulates_open_of_some (h : s.Calm)
    (hp : s.paths.lookup path = some handle) : s.Simulates (.open path flags) := by
  have hmem : path ∈ s.paths := mem_of_lookup_eq_some hp
  have hnames : s.ref.names path = some handle := hp
  obtain ⟨file, hf⟩ := mem_iff.mp (h.sound.indexes.named path handle hp)
  rw [Simulates, RefStore.call, RefStore.open, hnames]
  cases hx : flags.creat && flags.excl with
  | true => exact ⟨s, by simp [Op.apply, SimState.open, hmem, hx, Except.map, ends], rfl⟩
  | false =>
    cases ht : flags.trunc with
    | false =>
      refine ⟨{ s with closed := s.closed.erase handle }, ?_, rfl⟩
      simp [Op.apply, SimState.open, hmem, hx, handleOf, hp, ht, Except.map, ends]
    | true =>
      have hput : SimState.ref { s with
          files := s.files.insert handle .empty
          bytesUsed := s.bytesUsed - file.data.length
          closed := s.closed.erase handle } = s.ref.put handle SimFile.empty.content :=
        ref_put rfl rfl rfl
      exact ⟨_, apply_open_of_trunc hp hf ht hx, hput⟩

theorem ref_created (hp : t.paths = s.paths.insert path s.nextHandle)
    (hf : t.files = s.files.insert s.nextHandle .empty) (hn : t.nextHandle = s.nextHandle + 1) :
    t.ref = { names := Function.update s.ref.names path (some s.nextHandle)
              files := Function.update s.ref.files s.nextHandle (some .empty)
              next := s.nextHandle + 1 } := by
  have hnames : t.ref.names = Function.update s.ref.names path (some s.nextHandle) := by
    funext p
    simp only [ref, hp, lookup_insert_eq, update_apply]
  have hfiles : t.ref.files = Function.update s.ref.files s.nextHandle (some .empty) := by
    funext i
    simp only [ref, hf, lookup_insert_eq, update_apply]
    split <;> rfl
  rw [← hnames, ← hfiles, ← hn]
  rfl

theorem simulates_open (h : s.Calm)
    (ho : s.Orderly (.open path flags)) : s.Simulates (.open path flags) := by
  cases hp : s.paths.lookup path with
  | some handle => exact simulates_open_of_some h hp
  | none =>
    have hnot : path ∉ s.paths := lookup_eq_none.mp hp
    have hnames : s.ref.names path = none := hp
    rw [Simulates, RefStore.call, RefStore.open, hnames]
    cases hcreat : flags.creat with
    | false => exact ⟨s, by simp [Op.apply, SimState.open, hnot, hcreat, Except.map, ends], rfl⟩
    | true =>
      have hadd := ho.2.2.2.2
      rw [overflows, decide_eq_false_iff_not] at hadd
      have hnext : s.nextHandle + 1 < 2 ^ 64 :=
        lt_of_not_ge fun hle => hadd ⟨hnot, hcreat, hle⟩
      refine ⟨{ s with
        nextHandle := s.nextHandle + 1
        paths := s.paths.insert path s.nextHandle
        files := s.files.insert s.nextHandle .empty
        closed := s.closed.erase s.nextHandle }, ?_, ref_created rfl rfl rfl⟩
      have hhandle : s.handleOf path = some ({ s with
          nextHandle := s.nextHandle + 1
          paths := s.paths.insert path s.nextHandle
          files := s.files.insert s.nextHandle .empty }, s.nextHandle) := by
        rw [handleOf, hp, Profile.add_eq _ hnext]
        rfl
      -- there is nothing to truncate
      cases ht : flags.trunc with
      | false => simp [Op.apply, SimState.open, hnot, hcreat, hhandle, ht, Except.map, ref, ends]
      | true =>
        simp [Op.apply, SimState.open, hnot, hcreat, hhandle, ht, Except.map, truncate, ref,
          insert_insert, SimFile.empty, ends]

theorem ref_discarded {u : SimState P} {names : P → Option ℕ} (hp : u.ref.names = names)
    (hf : u.files = s.files) (hn : u.nextHandle = s.nextHandle) : (u.discard handle).ref =
      { s.ref with
        names := names
        files := Function.update s.ref.files handle none } := by
  obtain ⟨hpaths, hnext, -⟩ := discard_rest u handle
  have hfiles : u.ref.files = s.ref.files := by
    rw [ref, ref, hf]
  rw [← hp, ← hfiles, ← ref_files_discard, ref, ref, ref, hpaths, hnext, hn]

theorem simulates_removeFile (s : SimState P) (path : P) : s.Simulates (.removeFile path) := by
  cases hp : s.paths.lookup path with
  | none =>
    have hnames : s.ref.names path = none := hp
    rw [Simulates, RefStore.call, RefStore.removeFile, hnames]
    exact ⟨s, by simp [Op.apply, removeFile, hp, Except.map], rfl⟩
  | some handle =>
    have hnames : s.ref.names path = some handle := hp
    rw [Simulates, RefStore.call, RefStore.removeFile, RefStore.filesWithout, hnames]
    refine ⟨({ s with paths := s.paths.erase path } : SimState P).discard handle,
      by simp [Op.apply, removeFile, hp, Except.map], ref_discarded (funext fun p => ?_) rfl rfl⟩
    simp only [ref, lookup_erase_eq, update_apply]

theorem simulates_rename (h : s.Calm) (source target : P) :
    s.Simulates (.rename source target) := by
  cases hp : s.paths.lookup source with
  | none =>
    have hnames : s.ref.names source = none := hp
    rw [Simulates, RefStore.call, RefStore.rename, hnames]
    exact ⟨s, by simp [Op.apply, rename, hp, Except.map], rfl⟩
  | some handle =>
    have hnames : s.ref.names source = some handle := hp
    rw [Simulates, RefStore.call, RefStore.rename, hnames]
    by_cases hst : source = target
    · -- the path is taken out and put back
      subst hst
      have hback : (s.paths.erase source).insert source handle = s.paths := by
        rw [insert_erase, insert_of_lookup hp]
      refine ⟨s, ?_, by simp⟩
      simp [Op.apply, rename, hp, hback, Except.map]
    · have htarget : (s.paths.erase source).lookup target = s.paths.lookup target :=
        lookup_erase_ne (Ne.symm hst)
      have hmoved : (fun path => ((s.paths.erase source).insert target handle).lookup path) =
          Function.update (Function.update s.ref.names source none) target (some handle) := by
        funext path
        simp only [ref, lookup_insert_eq, lookup_erase_eq, update_apply]
      cases hold : s.paths.lookup target with
      | none =>
        have hnone : s.ref.names target = none := hold
        refine ⟨{ s with paths := (s.paths.erase source).insert target handle }, ?_, ?_⟩
        · simp [Op.apply, rename, hp, htarget, hold, hst, Except.map]
        · simp only [if_neg hst, RefStore.filesWithout, hnone]
          rw [← hmoved]
          rfl
      | some old =>
        have hsome : s.ref.names target = some old := hold
        -- two paths do not share a handle
        have hne : old ≠ handle := by
          rintro rfl
          exact hst (h.sound.indexes.alone source target old hp hold)
        refine ⟨({ s with paths := (s.paths.erase source).insert target handle } :
          SimState P).discard old, ?_, ?_⟩
        · simp [Op.apply, rename, hp, htarget, hold, hst, hne, Except.map]
        · simp only [if_neg hst, RefStore.filesWithout, hsome]
          exact ref_discarded hmoved rfl rfl

theorem simulates (h : s.Calm) (ho : s.Orderly op) : s.Simulates op := by
  cases op with
  | «open» path flags => exact simulates_open h ho
  | readAt handle bufLen pos => exact simulates_readAt h ho
  | writeAt handle src pos => exact simulates_writeAt h ho
  | fsync handle datasync => exact simulates_fsync h ho
  | fallocate handle offset len => exact simulates_fallocate h ho
  | setLen handle len => exact simulates_setLen h ho
  | close handle => exact ⟨s.close handle, rfl, rfl⟩
  | rename source target => exact simulates_rename h source target
  | removeFile path => exact simulates_removeFile s path
  | _ => exact absurd ho.1 (by simp [Op.plain, Op.isFault])

/-- The file that goes out of the table: the one that a rename replaces, or the one of the path that
is removed. -/
def unlinks (s : SimState P) : Op P → Option ℕ
  | .rename source target =>
    if source ∈ s.paths ∧ source ≠ target then s.paths.lookup target else none
  | .removeFile path => s.paths.lookup path
  | _ => none

/-- The file that a call is about: the one of its handle or of its path, and for a rename the one
that is replaced. -/
def fileOf (s : SimState P) : Op P → Option ℕ
  | .open path _ => some ((s.paths.lookup path).getD s.nextHandle)
  | .rename source target => s.unlinks (.rename source target)
  | .removeFile path => s.unlinks (.removeFile path)
  | op => op.handle?

theorem unlinks_of_replaced {source target : P} {old : ℕ} (hp : s.paths.lookup source = some handle)
    (ht : (s.paths.erase source).lookup target = some old) :
    s.unlinks (.rename source target) = some old := by
  obtain ⟨hts, ht⟩ := of_lookup_erase ht
  rw [unlinks, if_pos ⟨mem_of_lookup_eq_some hp, Ne.symm hts⟩, ht]

omit [DecidableEq P] in
theorem lookup_discard_of_ne (s : SimState P) {i : ℕ} (hi : i ≠ handle) :
    (s.discard i).files.lookup handle = s.files.lookup handle := by
  rw [discard]
  split
  · exact lookup_erase_ne (Ne.symm hi)
  · rfl

theorem lookup_of_steps (hop : op.isFault = false) (hs : s.Steps op t r)
    (hne : s.fileOf op ≠ some handle) : t.files.lookup handle = s.files.lookup handle := by
  have hinsert : ∀ (i : ℕ) (file : SimFile), i ≠ handle →
      (s.files.insert i file).lookup handle = s.files.lookup handle :=
    fun i file hi => lookup_insert_of_ne _ (Ne.symm hi)
  have hfile : ∀ i, s.fileOf op = some i → i ≠ handle := by
    rintro i hi rfl
    exact hne hi
  cases hs with
  | created hp hn => exact hinsert _ _ (hfile _ (by rw [fileOf, hp, getD_none]))
  | truncated hp hf ht hx => exact hinsert _ _ (hfile _ (by rw [fileOf, hp, getD_some]))
  | wrote hc hf ha hstop | synced hc hl hf | allocated hf ha | extended hf hle ha
  | shrunk hf hlt => exact hinsert _ _ (hfile _ rfl)
  | replaced hp ht hold => exact lookup_discard_of_ne _ (hfile _ (unlinks_of_replaced hp ht))
  | removed hp => exact lookup_discard_of_ne _ (hfile _ hp)
  | configured ht => cases ht <;> simp [Op.isFault] at hop
  | crashed => simp [Op.isFault] at hop
  | _ => rfl

end

end SimState

/-! ## Every run -/

namespace SimDriver

variable {P : Type} [DecidableEq P] {d e : SimDriver P}

def Calm (d : SimDriver P) : Prop := d.poisoned = false ∧ d.inner.Calm

theorem calm_new : (new : SimDriver P).Calm := ⟨rfl, sound_empty, rfl, rfl, rfl⟩

theorem call_of_orderly {op : Op P} (h : d.Calm) (ho : d.inner.Orderly op) :
    (d.call op).1.Calm ∧ (d.call op).1.inner.ref = (d.inner.ref.call op).1 ∧
      (d.call op).2 = .returned (d.inner.ref.call op).2 := by
  obtain ⟨t, ha, href⟩ := simulates h.2 ho
  rw [call_of_apply h.1 ha]
  exact ⟨⟨rfl, calm_of_steps h.2 ho.1 (steps_of_apply ha)⟩, href, rfl⟩

theorem ref_of_run {ops : List (Op P)} (h : d.Calm) (hrun : (driver P).run d ops = some e)
    (halong : (driver P).Along (fun d op => d.inner.Orderly op) d ops) :
    e.Calm ∧ e.inner.ref = d.inner.ref.after ops := by
  induction ops generalizing d with
  | nil =>
    cases hrun
    exact ⟨h, rfl⟩
  | cons op ops ih =>
    obtain ⟨u, hu, hrun⟩ := System.run_cons_eq_some.mp hrun
    obtain ⟨ho, halong⟩ := (System.along_cons_of_step hu).mp halong
    cases hu
    obtain ⟨hcalm, href, -⟩ := call_of_orderly h ho
    obtain ⟨he, hafter⟩ := ih hcalm hrun halong
    refine ⟨he, hafter.trans ?_⟩
    rw [href]
    rfl

/-- **The driver is a store of files.**  After any run of orderly calls it stands for what the
reference has become by the same calls; every further orderly call returns, with the answer of the
reference, and leaves every file but the one it is about as it was. -/
theorem refines_store (d : SimDriver P) (ops : List (Op P))
    (hrun : (driver P).run .new ops = some d)
    (halong : (driver P).Along (fun d op => d.inner.Orderly op) .new ops) :
    d.inner.ref = RefStore.empty.after ops ∧ ∀ op, d.inner.Orderly op →
      (d.call op).2 = .returned ((RefStore.empty.after ops).call op).2 ∧
      (d.call op).1.inner.ref = ((RefStore.empty.after ops).call op).1 ∧
      ∀ handle, d.inner.fileOf op ≠ some handle →
        (d.call op).1.inner.files.lookup handle = d.inner.files.lookup handle := by
  obtain ⟨hcalm, href⟩ := ref_of_run calm_new hrun halong
  have hempty : (new : SimDriver P).inner.ref = RefStore.empty := rfl
  rw [hempty] at href
  refine ⟨href, fun op ho => ?_⟩
  obtain ⟨-, hnext, hanswer⟩ := call_of_orderly hcalm ho
  obtain ⟨-, t, ha, heq⟩ := of_returned hanswer
  rw [← href]
  refine ⟨hanswer, hnext, fun handle hne => ?_⟩
  rw [heq]
  exact lookup_of_steps (Op.isFault_of_plain ho.1) (steps_of_apply ha) hne

theorem refines_store_of_two :
    ∃ d, (driver ℕ).run .new [.open 7 ⟨true, false, false⟩, .writeAt 0 [1, 2, 3, 4] 0,
        .open 9 ⟨true, false, false⟩, .writeAt 1 [5] 2, .setLen 0 2, .fallocate 0 1 3,
        .writeAt 0 [6] 3, .rename 7 9] = some d ∧
      (d.call (.readAt 0 9 0)).2 = .returned (.ok (.read 4 [1, 2, 0, 6])) ∧
      (d.call (.writeAt 1 [1] 0)).2 = .returned (.error (.os ebadf)) := by
  refine Exists.imp (fun d hrun => ⟨hrun, ?_⟩) ⟨_, rfl⟩
  obtain ⟨-, hnext⟩ := refines_store d _ hrun (by decide)
  cases hrun
  exact ⟨(hnext (.readAt 0 9 0) (by decide)).1, (hnext (.writeAt 1 [1] 0) (by decide)).1⟩

end SimDriver

end RustyTokio.Sim

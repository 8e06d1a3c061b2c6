import RustyTokio.Io.SimStore
import RustyTokio.Transition.Futures

/-!
# The `UringFile`s of a `SimDriver`

Two descriptors of one file are independent of each other, and a file lives as long as one of them
is open.  A handle of `SimDriver` is neither: it belongs to the path, with one flag that says that
it is closed, and removing the path takes the file out of the table, whoever still has it open.
-/

namespace RustyTokio.Sim

open Transition List Option Finmap SimState SimDriver

/-! ## Open files -/

structure UringFile where
  handle : ℕ
  live : Bool
  deriving DecidableEq

def UringFile.shut (file : UringFile) : UringFile := { file with live := false }

inductive FileOp where
  | readAt (bufLen pos : ℕ)
  | writeAt (src : List UInt8) (pos : ℕ)
  | fsync (datasync : Bool)
  | fallocate (offset len : ℕ)
  | setLen (len : ℕ)
  deriving DecidableEq

def FileOp.on {P : Type} (handle : ℕ) : FileOp → Op P
  | .readAt bufLen pos => .readAt handle bufLen pos
  | .writeAt src pos => .writeAt handle src pos
  | .fsync datasync => .fsync handle datasync
  | .fallocate offset len => .fallocate handle offset len
  | .setLen len => .setLen handle len

structure Client (P : Type) where
  driver : SimDriver P
  files : List UringFile

inductive Use (P : Type) where
  | openOn (path : P) (flags : Flags)
  | perform (f : ℕ) (op : FileOp)
  | close (f : ℕ)
  | rename (source target : P)
  | removeFile (path : P)

def Use.isNaming {P : Type} : Use P → Bool
  | .close _ => true
  | .rename _ _ => true
  | .removeFile _ => true
  | _ => false

namespace Client

variable {P : Type} [DecidableEq P]

def opened (files : List UringFile) : Reply → List UringFile
  | .returned (.ok (.handle handle)) => files ++ [⟨handle, true⟩]
  | _ => files

def step (w : Client P) : Use P → Option (Client P)
  | .openOn path flags =>
    some ⟨(w.driver.call (.open path flags)).1, opened w.files (w.driver.call (.open path flags)).2⟩
  | .perform f op =>
    match w.files[f]? with
    | some ⟨handle, true⟩ => some { w with driver := (w.driver.call (op.on handle)).1 }
    | _ => none
  | .close f =>
    match w.files[f]? with
    | some ⟨handle, true⟩ =>
      some ⟨(w.driver.call (.close handle)).1, w.files.modify f UringFile.shut⟩
    | _ => none
  | .rename source target =>
    some { w with driver := (w.driver.call (.rename source target)).1 }
  | .removeFile path => some { w with driver := (w.driver.call (.removeFile path)).1 }

/-- An open `UringFile` is left whose handle is closed, or whose file is removed or replaced. -/
def cutsOff (w : Client P) : Use P → Bool
  | .close f =>
    w.files[f]?.any fun file => decide (⟨file.handle, true⟩ ∈ w.files.modify f UringFile.shut)
  | .rename source target =>
    (w.driver.inner.unlinks (.rename source target)).any fun handle =>
      decide (⟨handle, true⟩ ∈ w.files)
  | .removeFile path =>
    (w.driver.inner.unlinks (.removeFile path)).any fun handle =>
      decide (⟨handle, true⟩ ∈ w.files)
  | _ => false

def severs (w : Client P) (u : Use P) : Bool := !w.driver.poisoned && w.cutsOff u

end Client

def client (P : Type) [DecidableEq P] : System (Client P) (Use P) where
  init := ⟨.new, []⟩
  step := Client.step

namespace FileOp

variable {P : Type} (op : FileOp) (handle : ℕ)

theorem handle?_on : (op.on handle : Op P).handle? = some handle := by
  cases op <;> rfl

theorem isFault_on : (op.on handle : Op P).isFault = false := by
  cases op <;> rfl

end FileOp

/-! ## What a call does to the handles -/

namespace SimState

variable {P : Type} [DecidableEq P] {s t : SimState P} {op : Op P} {r : Except Error Value} {i : ℕ}

omit [DecidableEq P] in
theorem closed_discard (s : SimState P) (handle : ℕ) : (s.discard handle).closed = s.closed := by
  rw [discard]
  split <;> rfl

theorem notMem_closed_of_steps (hop : op.isFault = false) (hs : s.Steps op t r)
    (hi : i ∉ s.closed) (hne : op ≠ .close i) : i ∉ t.closed := by
  cases hs with
  | created | opened | truncated => exact fun hmem => hi (Finset.mem_of_mem_erase hmem)
  | closed =>
    intro hmem
    rcases Finset.mem_insert.mp hmem with rfl | hmem
    · exact hne rfl
    · exact hi hmem
  | replaced | removed =>
    rw [closed_discard]
    exact hi
  | configured ht => cases ht <;> exact hi
  | crashed => simp [Op.isFault] at hop
  | failed | read | wrote | synced | lied | allocated | extended | shrunk | renamed => exact hi

theorem mem_files_of_steps (hop : op.isFault = false) (hs : s.Steps op t r)
    (hi : i ∈ s.files) (hne : s.unlinks op ≠ some i) : i ∈ t.files := by
  have hdiscard : ∀ (u : SimState P) (j : ℕ), u.files = s.files → s.unlinks op = some j →
      i ∈ (u.discard j).files := by
    intro u j hu hj
    have hji : j ≠ i := by
      rintro rfl
      exact hne hj
    rw [← lookup_isSome, lookup_discard_of_ne u hji, hu, lookup_isSome]
    exact hi
  cases hs with
  | created | truncated | wrote | synced | allocated | extended | shrunk =>
    exact mem_insert.mpr (.inr hi)
  | replaced hp ht hold => exact hdiscard _ _ rfl (unlinks_of_replaced hp ht)
  | removed hp => exact hdiscard _ _ rfl hp
  | configured ht => cases ht <;> exact hi
  | crashed => simp [Op.isFault] at hop
  | failed | opened | read | lied | closed | renamed => exact hi

theorem attached_of_open {path : P} {flags : Flags} (h : s.Sound)
    (hs : s.Steps (.open path flags) t (.ok (.handle i))) : i ∉ t.closed ∧ i ∈ t.files := by
  cases hs with
  | created hp hn | truncated hp hf ht hx =>
    exact ⟨Finset.notMem_erase _ _, mem_insert.mpr (.inl rfl)⟩
  | opened hp ht => exact ⟨Finset.notMem_erase _ _, h.indexes.named _ _ hp⟩

omit [DecidableEq P] in
theorem notMem_discard (s : SimState P) (handle : ℕ) : handle ∉ (s.discard handle).files := by
  rw [discard]
  split
  · exact notMem_erase_self
  next hno => exact lookup_eq_none.mp hno

theorem notMem_of_unlinks (h : s.Sound) (hu : s.unlinks op = some i) :
    ∃ t, op.apply s = (t, some (.ok .unit)) ∧ i ∉ t.files := by
  cases op with
  | rename source target =>
    obtain ⟨⟨hsource, hst⟩, ht⟩ := ite_none_right_eq_some.mp hu
    obtain ⟨handle, hp⟩ := mem_iff.mp hsource
    have hold : (s.paths.erase source).lookup target = some i :=
      (lookup_erase_ne (Ne.symm hst)).trans ht
    have hne : i ≠ handle := by
      rintro rfl
      exact hst (h.indexes.alone source target i hp ht)
    refine ⟨({ s with paths := (s.paths.erase source).insert target handle } :
      SimState P).discard i, ?_, notMem_discard _ i⟩
    simp [Op.apply, rename, hp, hold, hne, Except.map]
  | removeFile path =>
    have hp : s.paths.lookup path = some i := hu
    refine ⟨({ s with paths := s.paths.erase path } : SimState P).discard i, ?_, notMem_discard _ i⟩
    simp [Op.apply, removeFile, hp, Except.map]
  | _ => simp [unlinks] at hu

/-- Sound, without a capacity, and `fsync` is honest. -/
structure Quiet (s : SimState P) : Prop where
  sound : s.Sound
  capacity : s.capacityBytes = none
  honest : s.fsyncLies = false

theorem quiet_of_steps (h : s.Quiet) (hop : op.isFault = false) (hs : s.Steps op t r) :
    t.Quiet := by
  obtain ⟨hc, hl, -⟩ := knobs_of_steps hop hs
  exact ⟨sound_of_steps h.sound hs, hc.trans h.capacity, hl.trans h.honest⟩

theorem not_refuses_of_attached {handle : ℕ} {e : Error} (h : s.Quiet)
    (hop : op.handle? = some handle) (hc : handle ∉ s.closed) (hf : handle ∈ s.files) :
    ¬ s.Refuses op e := by
  intro he
  cases he with
  | @badHandle handle' hop' hbad =>
    cases hop.symm.trans hop'
    exact hbad.elim (fun h => hc h.2) fun hno => hno hf
  | noSpace hcap => exact hcap h.capacity
  | notFound hnone | alreadyExists hnone => cases hop.symm.trans hnone

end SimState

/-! ## Every run -/

namespace Client

variable {P : Type} [DecidableEq P] {w v : Client P}

/-- Every live `UringFile` has an open handle and a file. -/
structure Attached (w : Client P) : Prop where
  quiet : w.driver.inner.Quiet
  attached : ∀ handle, ⟨handle, true⟩ ∈ w.files →
    handle ∉ w.driver.inner.closed ∧ handle ∈ w.driver.inner.files

inductive Steps (w : Client P) : Use P → Op P → List UringFile → Prop where
  | openOn {path flags} :
      Steps w (.openOn path flags) (.open path flags)
        (opened w.files (w.driver.call (.open path flags)).2)
  | perform {f handle op} (hf : w.files[f]? = some ⟨handle, true⟩) :
      Steps w (.perform f op) (op.on handle) w.files
  | close {f handle} (hf : w.files[f]? = some ⟨handle, true⟩) :
      Steps w (.close f) (.close handle) (w.files.modify f UringFile.shut)
  | rename {source target} : Steps w (.rename source target) (.rename source target) w.files
  | removeFile {path} : Steps w (.removeFile path) (.removeFile path) w.files

theorem steps_of_step {u : Use P} (hs : w.step u = some v) :
    ∃ op files, w.Steps u op files ∧ v = ⟨(w.driver.call op).1, files⟩ := by
  cases u with
  | openOn path flags => exact ⟨_, _, .openOn, (some.inj hs).symm⟩
  | perform f op =>
    simp only [step] at hs
    split at hs
    next handle hf => exact ⟨_, _, .perform hf, (some.inj hs).symm⟩
    · cases hs
  | close f =>
    simp only [step] at hs
    split at hs
    next handle hf => exact ⟨_, _, .close hf, (some.inj hs).symm⟩
    · cases hs
  | rename source target => exact ⟨_, _, .rename, (some.inj hs).symm⟩
  | removeFile path => exact ⟨_, _, .removeFile, (some.inj hs).symm⟩

section

variable {u : Use P} {op : Op P} {files : List UringFile} {handle : ℕ}

theorem isFault_of_steps (hs : w.Steps u op files) : op.isFault = false := by
  cases hs with
  | perform => exact FileOp.isFault_on _ _
  | _ => rfl

omit [DecidableEq P] in
theorem mem_of_mem_shut {f : ℕ} (h : ⟨handle, true⟩ ∈ w.files.modify f UringFile.shut) :
    ⟨handle, true⟩ ∈ w.files := by
  obtain ⟨g, hg⟩ := mem_iff_getElem?.mp h
  rcases Table.of_modify hg with ⟨-, file, -, heq⟩ | ⟨-, hg⟩
  · exact absurd (congrArg UringFile.live heq) (by simp [UringFile.shut])
  · exact mem_of_getElem? hg

theorem mem_of_steps (hs : w.Steps u op files) (hmem : ⟨handle, true⟩ ∈ files) :
    ⟨handle, true⟩ ∈ w.files ∨ (∃ path flags, op = .open path flags) ∧
        (w.driver.call op).2 = .returned (.ok (.handle handle)) := by
  cases hs with
  | @openOn path flags =>
    generalize hr : (w.driver.call (.open path flags)).2 = r at hmem
    rw [opened.eq_def] at hmem
    split at hmem
    · rcases mem_append.mp hmem with hold | hnew
      · exact .inl hold
      · obtain rfl := congrArg UringFile.handle (mem_singleton.mp hnew)
        exact .inr ⟨⟨path, flags, rfl⟩, rfl⟩
    · exact .inl hmem
  | close hf => exact .inl (mem_of_mem_shut hmem)
  | perform | rename | removeFile => exact .inl hmem

theorem spared_of_not_severs (hs : w.Steps u op files) (hp : w.driver.poisoned = false)
    (hsev : w.severs u = false) (hmem : ⟨handle, true⟩ ∈ files) :
    op ≠ .close handle ∧ w.driver.inner.unlinks op ≠ some handle := by
  rw [Bool.eq_false_iff] at hsev
  cases hs with
  | openOn => exact ⟨by simp, by simp [SimState.unlinks]⟩
  | @perform f handle' op hf =>
    cases op <;> exact ⟨by simp [FileOp.on], by simp [FileOp.on, SimState.unlinks]⟩
  | @close f handle' hf =>
    refine ⟨fun heq => hsev ?_, by simp [SimState.unlinks]⟩
    cases heq
    simp [severs, cutsOff, hp, hf, hmem]
  | rename | removeFile =>
    exact ⟨by simp, fun heq => hsev (by simp [severs, cutsOff, hp, heq, hmem])⟩

end

theorem attached_of_step {u : Use P} (h : w.driver.poisoned = false → w.Attached)
    (hsev : w.severs u = false) (hs : w.step u = some v) (hv : v.driver.poisoned = false) :
    v.Attached := by
  obtain ⟨op, files, hst, rfl⟩ := steps_of_step hs
  rcases call_cases w.driver op with ⟨t, heq⟩ | ⟨t, r, hp, hsteps, heq⟩
  · -- the call panics
    rw [heq] at hv
    cases hv
  · replace h := h hp
    have hfault := isFault_of_steps hst
    refine ⟨by rw [heq]; exact quiet_of_steps h.quiet hfault hsteps, fun handle hmem => ?_⟩
    rw [heq]
    rcases mem_of_steps hst hmem with hold | ⟨⟨path, flags, rfl⟩, hreply⟩
    · obtain ⟨hclose, hunlink⟩ := spared_of_not_severs hst hp hsev hmem
      obtain ⟨hc, hf⟩ := h.attached handle hold
      exact ⟨notMem_closed_of_steps hfault hsteps hc hclose,
        mem_files_of_steps hfault hsteps hf hunlink⟩
    · rw [heq] at hreply
      rw [Reply.returned.inj hreply] at hsteps
      exact attached_of_open h.quiet.sound hsteps

theorem attached_of_reachableUnder (h : (client P).ReachableUnder (fun w u => w.severs u = false) w)
    (hp : w.driver.poisoned = false) : w.Attached := by
  refine System.inv_of_reachableUnder (I := fun w => w.driver.poisoned = false → w.Attached)
    (fun _ => ?_) (fun _ _ _ h hsev hs => ?_) h hp
  · exact ⟨⟨sound_empty, rfl, rfl⟩, by simp [client]⟩
  · exact attached_of_step h hsev hs

theorem ne_error_of_attached {f : ℕ} {file : UringFile} {op : FileOp} {e : Error}
    (h : w.driver.poisoned = false → w.Attached) (hf : w.files[f]? = some file) (hlive : file.live)
    (hfits : (op.on file.handle : Op P).fitsI32) :
    (w.driver.call (op.on file.handle)).2 ≠ .returned (.error e) := by
  intro hreply
  obtain ⟨hp, t, ha, -⟩ := of_returned hreply
  obtain ⟨hc, hmem⟩ := (h hp).attached file.handle (by rw [← hlive]; exact mem_of_getElem? hf)
  obtain ⟨-, he⟩ := refuses_of_error hfits (steps_of_apply ha) rfl
  exact not_refuses_of_attached (h hp).quiet (op.handle?_on _) hc hmem he

theorem returns_of_naming {u : Use P} {op : Op P} {files : List UringFile} (hs : w.Steps u op files)
    (hu : u.isNaming) (hp : w.driver.poisoned = false) :
    ∃ t r, w.driver.inner.Steps op t r ∧ w.driver.call op = (⟨t, false⟩, .returned r) := by
  have hreturns : ∀ {t r}, op.apply w.driver.inner = (t, some r) →
      ∃ t r, w.driver.inner.Steps op t r ∧ w.driver.call op = (⟨t, false⟩, .returned r) :=
    fun ha => ⟨_, _, steps_of_apply ha, call_of_apply hp ha⟩
  cases hs with
  | close | rename | removeFile => exact hreturns rfl
  | openOn | perform => cases hu

theorem lookup_of_naming {u : Use P} {op : Op P} {files : List UringFile} {handle : ℕ}
    (hs : w.Steps u op files) (hu : u.isNaming) (hsev : w.severs u = false)
    (hmem : ⟨handle, true⟩ ∈ files) :
    (w.driver.call op).1.inner.files.lookup handle = w.driver.inner.files.lookup handle := by
  by_cases hp : w.driver.poisoned
  · rw [SimDriver.call, if_pos hp]
  · obtain ⟨t, r, hsteps, heq⟩ := returns_of_naming hs hu (Bool.eq_false_iff.mpr hp)
    obtain ⟨-, hunlink⟩ := spared_of_not_severs hs (Bool.eq_false_iff.mpr hp) hsev hmem
    rw [heq]
    refine lookup_of_steps (isFault_of_steps hs) hsteps ?_
    cases hs with
    | close => simp [SimState.fileOf, Op.handle?]
    | rename | removeFile => exact hunlink
    | openOn | perform => cases hu

theorem of_severs {u : Use P} (h : w.severs u) : w.driver.poisoned = false ∧ w.cutsOff u := by
  simpa [severs] using h

theorem detached_of_severs {u : Use P} {op : Op P} {files : List UringFile}
    (h : w.driver.inner.Quiet) (hs : w.Steps u op files) (hsev : w.severs u) :
    ∃ t r handle, w.driver.call op = (⟨t, false⟩, .returned r) ∧ ⟨handle, true⟩ ∈ files ∧
      (handle ∈ t.closed ∨ handle ∉ t.files) := by
  obtain ⟨hp, hcut⟩ := of_severs hsev
  have hunlink : ∀ {op : Op P}, ((w.driver.inner.unlinks op).any fun handle =>
      decide (⟨handle, true⟩ ∈ w.files)) →
      ∃ t r handle, w.driver.call op = (⟨t, false⟩, .returned r) ∧ ⟨handle, true⟩ ∈ w.files ∧
        (handle ∈ t.closed ∨ handle ∉ t.files) := by
    intro op hany
    obtain ⟨old, hold, hmem⟩ := (any_eq_true _ _).mp hany
    obtain ⟨t, ha, hgone⟩ := notMem_of_unlinks h.sound hold
    exact ⟨t, _, old, call_of_apply hp ha, of_decide_eq_true hmem, .inr hgone⟩
  cases hs with
  | openOn | perform => cases hcut
  | @close f handle hf =>
    rw [cutsOff, hf, any_some, decide_eq_true_eq] at hcut
    exact ⟨_, _, handle, call_of_apply hp rfl, hcut, .inl (Finset.mem_insert_self _ _)⟩
  | rename | removeFile => exact hunlink hcut

theorem ebadf_of_severs {u : Use P} (h : w.driver.poisoned = false → w.Attached)
    (hs : w.step u = some v) (hsev : w.severs u) :
    ∃ (f : ℕ) (file : UringFile), v.files[f]? = some file ∧ file.live ∧
      ∀ op : FileOp, (op.on file.handle : Op P).checksClosed →
        (v.driver.call (op.on file.handle)).2 = .returned (.error (.os ebadf)) := by
  obtain ⟨op, files, hst, rfl⟩ := steps_of_step hs
  have hq := (h (of_severs hsev).1).quiet
  obtain ⟨t, r, handle, hcall, hmem, hgone⟩ := detached_of_severs hq hst hsev
  obtain ⟨f, hf⟩ := mem_iff_getElem?.mp hmem
  obtain ⟨-, u', ha, heq⟩ := of_returned (congrArg Prod.snd hcall)
  refine ⟨f, _, hf, rfl, fun op' hcheck => ?_⟩
  have ha' : (op'.on handle).apply t = (t, some (.error (.os ebadf))) := by
    rcases hgone with hc | hno
    · exact apply_of_bad (op'.handle?_on handle) (.inl ⟨hcheck, hc⟩) (.inl hc)
    · rw [hcall] at heq
      obtain rfl : t = u' := congrArg SimDriver.inner heq
      have hquiet := quiet_of_steps hq (isFault_of_steps hst) (steps_of_apply ha)
      exact apply_of_bad (op'.handle?_on handle) (.inr hno) (.inr (.inl hquiet.honest))
  rw [hcall, call_of_apply rfl ha']

/-- **Open files.**  As long as nothing was severed, no operation on an open `UringFile` fails, and
closing another, removing a path or renaming leaves what it reads as it is.  A use that severs
leaves one whose `read_at`, `write_at` and `fsync` fail with `EBADF`. -/
theorem independent_until_severed (w : Client P)
    (h : (client P).ReachableUnder (fun w u => w.severs u = false) w) :
    (∀ (f : ℕ) (file : UringFile), w.files[f]? = some file → file.live = true →
      ∀ (op : FileOp) e, (op.on file.handle : Op P).fitsI32 = true →
        (w.driver.call (op.on file.handle)).2 ≠ .returned (.error e)) ∧ ∀ u v, w.step u = some v →
      (w.severs u = false → u.isNaming = true →
        ∀ (f : ℕ) (file : UringFile), v.files[f]? = some file → file.live = true →
        v.driver.inner.files.lookup file.handle = w.driver.inner.files.lookup file.handle) ∧
      (w.severs u = true →
        ∃ (f : ℕ) (file : UringFile), v.files[f]? = some file ∧ file.live = true ∧
        ∀ op : FileOp, (op.on file.handle : Op P).checksClosed = true →
          (v.driver.call (op.on file.handle)).2 = .returned (.error (.os ebadf))) := by
  have hatt := attached_of_reachableUnder h
  refine ⟨fun f file hf hlive op e hfits => ne_error_of_attached hatt hf hlive hfits, ?_⟩
  intro u v hs
  refine ⟨fun hsev hu f file hf hlive => ?_, ebadf_of_severs hatt hs⟩
  obtain ⟨op, files, hst, rfl⟩ := steps_of_step hs
  refine lookup_of_naming hst hu hsev ?_
  rw [← hlive]
  exact mem_of_getElem? hf

theorem independent_of_two : ∃ w v, (client ℕ).run (client ℕ).init [.openOn 7 ⟨true, false, true⟩,
        .openOn 9 ⟨true, false, true⟩, .perform 1 (.writeAt [1, 2] 0), .close 0,
        .removeFile 7] = some w ∧ (∀ e, (w.driver.call (.readAt 1 4 0)).2 ≠ .returned (.error e)) ∧
      w.step (.removeFile 9) = some v ∧
      ∃ (f : ℕ) (file : UringFile), v.files[f]? = some file ∧ file.live = true ∧
        (v.driver.call (.readAt file.handle 4 0)).2 = .returned (.error (.os ebadf)) := by
  have hr : (client ℕ).ReachableUnder (fun w u => w.severs u = false) _ :=
    ⟨[.openOn 7 ⟨true, false, true⟩, .openOn 9 ⟨true, false, true⟩,
      .perform 1 (.writeAt [1, 2] 0), .close 0, .removeFile 7], rfl, by decide⟩
  obtain ⟨hfine, hstep⟩ := independent_until_severed _ hr
  obtain ⟨f, file, hfile, hlive, hbad⟩ := (hstep (.removeFile 9) _ rfl).2 (by decide)
  exact ⟨_, _, rfl, fun e => hfine 1 _ rfl rfl (.readAt 4 0) e (by decide), rfl, f, file, hfile,
    hlive, hbad (.readAt 4 0) rfl⟩

/-- One path is opened twice and the first `UringFile` closed: the second one cannot read.  A path
is opened and removed: its `UringFile` cannot read.  A path is opened and another one renamed over
it: so it is. -/
theorem exists_severed : (∃ w, (client ℕ).run (client ℕ).init [.openOn 7 ⟨true, false, true⟩,
        .openOn 7 ⟨false, false, false⟩, .perform 1 (.writeAt [1, 2] 0), .close 0] = some w ∧
      w.files[1]? = some ⟨0, true⟩ ∧
      (w.driver.call (.readAt 0 4 0)).2 = .returned (.error (.os ebadf))) ∧
    (∃ w, (client ℕ).run (client ℕ).init [.openOn 7 ⟨true, false, true⟩,
        .perform 0 (.writeAt [1, 2] 0), .removeFile 7] = some w ∧ w.files[0]? = some ⟨0, true⟩ ∧
      (w.driver.call (.readAt 0 4 0)).2 = .returned (.error (.os ebadf))) ∧
    ∃ w, (client ℕ).run (client ℕ).init [.openOn 7 ⟨true, false, true⟩,
        .perform 0 (.writeAt [1, 2] 0), .openOn 9 ⟨true, false, true⟩, .rename 9 7] = some w ∧
      w.files[0]? = some ⟨0, true⟩ ∧
      (w.driver.call (.readAt 0 4 0)).2 = .returned (.error (.os ebadf)) :=
  ⟨⟨_, rfl, rfl, rfl⟩, ⟨_, rfl, rfl, rfl⟩, ⟨_, rfl, rfl, rfl⟩⟩

end Client

end RustyTokio.Sim

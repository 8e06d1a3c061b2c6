import RustyTokio.Io.SimBooks

/-!
# What a crash of a `SimDriver` leaves

A file should come back from a crash as it was at its last honest `fsync`.  The driver keeps one
mark in the file, and what is below the mark comes back as it is at the time of the crash.
-/

namespace RustyTokio.Sim

open Transition List Option SimDriver FiniteMap SimFile SimState Finmap

/-! ## The contents at the last honest `fsync` -/

/-- A driver, and for every handle what its file held when `fsync` last did its work. -/
structure Watched (P : Type) where
  driver : SimDriver P
  synced : ℕ → List UInt8

section

variable {P : Type} [DecidableEq P]

def SimState.recordSync (s : SimState P) (synced : ℕ → List UInt8) : Op P → Reply → ℕ → List UInt8
  | .fsync handle _, .returned (.ok _) =>
    if s.fsyncLies then synced
    else
      match s.files.lookup handle with
      | some file => Function.update synced handle file.data
      | none => synced
  | _, _ => synced

def Watched.call (w : Watched P) (op : Op P) : Watched P where
  driver := (w.driver.call op).1
  synced := w.driver.inner.recordSync w.synced op (w.driver.call op).2

def watched (P : Type) [DecidableEq P] : System (Watched P) (Op P) where
  init := ⟨.new, fun _ => []⟩
  step w op := some (w.call op)

/-- If a crash now returns a driver, that driver has the same paths, and each of them holds the
content at the last honest `fsync` of its file. -/
def Watched.Faithful (w : Watched P) : Prop :=
  ∀ d, w.driver.call .crashAndReopen = (d, .returned (.ok .unit)) →
    d.inner.paths = w.driver.inner.paths ∧
    ∀ path handle, w.driver.inner.paths.lookup path = some handle →
      (d.inner.files.lookup handle).map SimFile.data = some (w.synced handle)

/-! ## The calls that change bytes below a mark -/

def SimState.writes (s : SimState P) (handle : ℕ) (src : List UInt8) (pos : ℕ) : Bool :=
  decide (handle ∉ s.closed ∧ pos + src.length < 2 ^ 64) &&
    (s.growTo .debug handle (pos + src.length)).2.any Except.isOk

/-- A write that puts other bytes below the mark, a `set_len` to fewer bytes than the mark, or an
`open` that truncates a file with a mark. -/
def SimState.disturbs (s : SimState P) : Op P → Bool
  | .open path flags =>
    flags.trunc && !(flags.creat && flags.excl) &&
      ((s.paths.lookup path).bind fun handle => s.files.lookup handle).any fun file =>
        decide (0 < file.durableLen)
  | .writeAt handle src pos =>
    s.writes handle src pos &&
      (s.files.lookup handle).any fun file =>
        decide ((file.written pos (src.take (s.applyLen src.length))
          (pos + src.length)).durable.data ≠ file.durable.data)
  | .setLen handle len =>
    (s.files.lookup handle).any fun file => decide (len < file.durableLen)
  | _ => false

def SimDriver.disturbs (d : SimDriver P) (op : Op P) : Bool :=
  !d.poisoned && d.inner.disturbs op

end

namespace SimFile

variable {file : SimFile} {n : ℕ}

theorem durable_resize (h : file.durableLen ≤ file.data.length) :
    (file.resize n).durable.data = file.durable.data :=
  take_append_of_le_length h

theorem durable_shrink (h : file.durableLen ≤ n) :
    (file.shrink n).durable.data = file.durable.data := by
  simp only [durable, shrink, min_eq_left h, take_take]

theorem durable_sync (file : SimFile) : file.sync.durable.data = file.data := take_length

theorem durable_durable (file : SimFile) : file.durable.durable.data = file.durable.data :=
  take_length

theorem length_durable (h : file.durableLen ≤ file.data.length) :
    file.durable.data.length = file.durableLen := length_take_of_le h

end SimFile

namespace SimState

variable {P : Type} [DecidableEq P] {s t : SimState P} {op : Op P}

omit [DecidableEq P] in
theorem lookup_reopened (s : SimState P) (handle : ℕ) :
    s.reopened.files.lookup handle = (s.files.lookup handle).map SimFile.durable :=
  lookup_mapValues SimFile.durable handle

omit [DecidableEq P] in
theorem writes_of_admits {handle pos : ℕ} {src : List UInt8} {file : SimFile}
    (hc : handle ∉ s.closed) (hf : s.files.lookup handle = some file)
    (ha : s.Admits file (pos + src.length)) (hstop : pos + src.length < 2 ^ 64) :
    s.writes handle src pos := by
  rw [writes, decide_eq_true ⟨hc, hstop⟩, growTo_eq _ hf ha.1, if_neg ha.2]
  rfl

omit [DecidableEq P] in
theorem admits_of_growTo {handle newLen : ℕ} {file : SimFile} {r : Except ℤ Unit}
    (hf : s.files.lookup handle = some file) (hg : (s.growTo .debug handle newLen).2 = some r)
    (hok : r.isOk) : s.Admits file newLen := by
  by_cases hx : s.Overruns file newLen
  · rw [growTo_of_overruns hf hx] at hg
    cases hg
  · rw [growTo_eq _ hf hx] at hg
    split at hg <;> cases hg
    · cases hok
    next hroom => exact ⟨hx, hroom⟩

/-- The durable data of every file is what `synced` says. -/
structure Keeps (s : SimState P) (synced : ℕ → List UInt8) : Prop where
  kept : ∀ handle file, s.files.lookup handle = some file → file.durable.data = synced handle
  fresh : ∀ handle, s.nextHandle ≤ handle → synced handle = []

namespace Keeps

variable {synced : ℕ → List UInt8} {handle : ℕ} {file : SimFile}

omit [DecidableEq P] in
theorem change {file' : SimFile} (h : s.Keeps synced) (hf : s.files.lookup handle = some file)
    (hd : file'.durable.data = file.durable.data) (hfiles : t.files = s.files.insert handle file')
    (hn : t.nextHandle = s.nextHandle) : t.Keeps synced := by
  refine ⟨?_, hn ▸ h.fresh⟩
  rw [hfiles]
  exact forall_insert (hd.trans (h.kept handle file hf)) h.kept

omit [DecidableEq P] in
theorem congr (h : s.Keeps synced) (hf : t.files = s.files) (hn : t.nextHandle = s.nextHandle) :
    t.Keeps synced := ⟨hf ▸ h.kept, hn ▸ h.fresh⟩

omit [DecidableEq P] in
theorem discard (h : s.Keeps synced) (handle : ℕ) : (s.discard handle).Keeps synced := by
  rw [SimState.discard]
  split
  · exact ⟨fun i file hi => h.kept i file (of_lookup_erase hi).2, h.fresh⟩
  · exact h

theorem sync (h : s.Keeps synced) (hs : s.Sound) (hf : s.files.lookup handle = some file) :
    SimState.Keeps { s with files := s.files.insert handle file.sync }
      (Function.update synced handle file.data) := by
  refine ⟨fun i f hi => ?_, fun i hi => ?_⟩
  · rw [lookup_insert_eq] at hi
    rw [Function.update_apply]
    split at hi
    next heq => rw [if_pos heq, ← some.inj hi, durable_sync]
    next hne =>
      rw [if_neg hne]
      exact h.kept i f hi
  · have hlt : handle < s.nextHandle := hs.fresh handle (mem_of_lookup_eq_some hf)
    have hge : s.nextHandle ≤ i := hi
    rw [Function.update_of_ne (by omega)]
    exact h.fresh i hi

end Keeps

theorem keeps_of_steps {r : Except Error Value} {synced : ℕ → List UInt8}
    (h : s.Keeps synced) (hs : s.Sound) (hop : s.disturbs op = false) (hst : s.Steps op t r) :
    t.Keeps (s.recordSync synced op (.returned r)) := by
  cases hst with
  | failed he =>
    cases op <;> exact h
  | created hp hn =>
    refine ⟨?_, fun i hi => h.fresh i (Nat.le_of_succ_le hi)⟩
    exact forall_insert (h.fresh _ le_rfl).symm h.kept
  | opened hp ht | closed | renamed hp ht => exact h.congr rfl rfl
  | @truncated path flags handle file hp hf ht hx =>
    have hmark : file.durableLen = 0 := by
      simpa [disturbs, ht, hx, hp, hf] using hop
    have hnone : SimFile.empty.durable.data = file.durable.data := by
      simp only [SimFile.durable, SimFile.empty, hmark, List.take_zero]
    exact h.change hf hnone rfl rfl
  | read hc hf hpos => exact h
  | @wrote handle pos src file hc hf ha hstop =>
    refine h.change hf ?_ rfl rfl
    rw [disturbs, writes_of_admits hc hf ha hstop, hf, Bool.true_and, Option.any_some,
      decide_eq_false_iff_not, not_not] at hop
    exact hop
  | @synced handle datasync file hc hl hf =>
    have hrecord : s.recordSync synced (.fsync handle datasync) (.returned (.ok .unit)) =
        Function.update synced handle file.data := by
      simp [recordSync, hl, hf]
    rw [hrecord]
    exact h.sync hs hf
  | @lied handle datasync hc hl =>
    simp only [recordSync, hl, if_true]
    exact h
  | allocated hf ha | extended hf hle ha =>
    exact h.change hf (durable_resize (hs.durable _ _ hf)) rfl rfl
  | @shrunk handle len file hf hlt =>
    have hmark : file.durableLen ≤ len := by
      simpa [disturbs, hf] using hop
    exact h.change hf (durable_shrink hmark) rfl rfl
  | replaced hp ht hne | removed hp =>
    refine Keeps.discard ?_ _
    exact h.congr rfl rfl
  | configured ht => cases ht <;> exact h.congr rfl rfl
  | crashed hu =>
    refine ⟨fun i file hi => ?_, h.fresh⟩
    rw [lookup_reopened] at hi
    obtain ⟨old, hold, rfl⟩ := Option.map_eq_some_iff.mp hi
    rw [durable_durable]
    exact h.kept i old hold

theorem changes_of_disturbs (hs : s.Sound) (hop : s.disturbs op) :
    ∃ t r handle file file', op.apply s = (t, some r) ∧ t.paths = s.paths ∧
      (∀ synced, s.recordSync synced op (.returned r) = synced) ∧
      s.files.lookup handle = some file ∧ t.files.lookup handle = some file' ∧
      file'.durable.data ≠ file.durable.data := by
  cases op with
  | «open» path flags =>
    rw [disturbs, Bool.and_eq_true, Bool.and_eq_true, Option.any_eq_true] at hop
    obtain ⟨⟨ht, hx⟩, file, hfile, hmark⟩ := hop
    obtain ⟨handle, hp, hf⟩ := bind_eq_some_iff.mp hfile
    have ha := apply_open_of_trunc hp hf ht (Bool.not_eq_true' _ ▸ hx)
    refine ⟨_, _, handle, file, .empty, ha, rfl, fun _ => rfl, hf, lookup_insert _, ?_⟩
    intro heq
    have hlen := length_durable (hs.durable _ _ hf)
    rw [← heq] at hlen
    exact absurd (of_decide_eq_true hmark) (by rw [← hlen]; decide)
  | writeAt handle src pos =>
    rw [disturbs, Bool.and_eq_true, writes, Bool.and_eq_true, decide_eq_true_eq,
      Option.any_eq_true, Option.any_eq_true] at hop
    obtain ⟨⟨⟨hc, hstop⟩, g, hg, hok⟩, file, hf, hmark⟩ := hop
    obtain ⟨hx, hroom⟩ := admits_of_growTo hf hg hok
    have ha := apply_writeAt hc hf (not_or.mpr ⟨not_le.mpr hstop, hx⟩) hroom
    exact ⟨_, _, handle, file, _, ha, rfl, fun _ => rfl, hf, lookup_insert _,
      of_decide_eq_true hmark⟩
  | setLen handle len =>
    obtain ⟨file, hf, hmark⟩ := (any_eq_true _ _).mp hop
    have hd := hs.durable _ _ hf
    have hlt : len < file.durableLen := of_decide_eq_true hmark
    refine ⟨_, _, handle, file, file.shrink len, apply_setLen_of_lt hf (by omega), rfl,
      fun _ => rfl, hf, lookup_insert _, ?_⟩
    intro heq
    have hlen := length_durable hd
    rw [← heq] at hlen
    simp only [SimFile.durable, SimFile.shrink, length_take] at hlen
    omega
  | _ => cases hop

end SimState

/-! ## Every run -/

namespace Watched

variable {P : Type} [DecidableEq P] {w : Watched P}

theorem driver_reachable (h : (watched P).Reachable w) : (Sim.driver P).Reachable w.driver := by
  refine System.inv_of_reachable (I := fun w => (Sim.driver P).Reachable w.driver)
    System.reachable_init (fun w op v hr hs => ?_) h
  cases hs
  exact hr.step rfl

theorem keeps_of_reachableUnder
    (h : (watched P).ReachableUnder (fun w op => w.driver.disturbs op = false) w)
    (hp : w.driver.poisoned = false) : w.driver.inner.Keeps w.synced := by
  refine h.inv (I := fun w => w.driver.poisoned = false → w.driver.inner.Keeps w.synced)
    (fun _ => ?_) ?_ hp
  · refine ⟨fun i f hi => ?_, fun _ _ => rfl⟩
    simp [watched, SimDriver.new, SimState.empty] at hi
  · intro w op v hr hk hop hs
    rw [← some.inj hs, call]
    rcases call_cases w.driver op with ⟨t, heq⟩ | ⟨t, r, hp, hst, heq⟩ <;> rw [heq]
    · exact fun h => absurd h (by simp)
    · rw [SimDriver.disturbs, hp, Bool.not_false, Bool.true_and] at hop
      exact fun _ => keeps_of_steps (hk hp) (sound_of_reachable (driver_reachable hr) hp) hop hst

theorem faithful_of_keeps (hr : (Sim.driver P).Reachable w.driver)
    (h : w.driver.poisoned = false → w.driver.inner.Keeps w.synced) : w.Faithful := by
  intro d hd
  obtain ⟨hp, t, -, heq⟩ := of_returned (congrArg Prod.snd hd)
  rw [crash_returns hr hp] at hd
  obtain rfl := (Prod.mk.inj hd).1
  refine ⟨rfl, fun path handle hpath => ?_⟩
  have hs := sound_of_reachable hr hp
  obtain ⟨file, hf⟩ := Finmap.mem_iff.mp (hs.indexes.named path handle hpath)
  rw [lookup_reopened, hf, map_some, map_some, (h hp).kept handle file hf]

theorem not_faithful_of_disturbs {op : Op P} (hr : (Sim.driver P).Reachable w.driver)
    (h : w.driver.poisoned = false → w.driver.inner.Keeps w.synced) (hop : w.driver.disturbs op) :
    ¬ (w.call op).Faithful := by
  rw [SimDriver.disturbs, Bool.and_eq_true] at hop
  have hp : w.driver.poisoned = false := by simpa using hop.1
  have hs := sound_of_reachable hr hp
  obtain ⟨t, r, handle, file, file', ha, hpaths, hrecord, hf, hf', hne⟩ :=
    changes_of_disturbs hs hop.2
  have hcall := call_of_apply hp ha
  have hnext : (Sim.driver P).Reachable ⟨t, false⟩ := hr.step (congrArg (some ∘ Prod.fst) hcall)
  obtain ⟨path, hpath⟩ := hs.indexes.reached handle (mem_of_lookup_eq_some hf)
  have hw : w.call op = ⟨⟨t, false⟩, w.synced⟩ := by
    rw [call, hcall, hrecord]
  rw [hw]
  intro hfaith
  have hlost := (hfaith _ (crash_returns hnext rfl)).2 path handle (hpaths ▸ hpath)
  rw [lookup_reopened, hf', map_some, map_some, ← (h hp).kept handle file hf] at hlost
  exact hne (some.inj hlost)

/-- **Crashes.**  As long as no call has changed bytes below a mark, a crash returns a driver in
which every path holds the content at the last honest `fsync` of its file, or nothing if there was
none.  After the first call that did, a crash does not. -/
theorem faithful_until_disturbed (w : Watched P)
    (h : (watched P).ReachableUnder (fun w op => w.driver.disturbs op = false) w) : w.Faithful ∧
    (w.driver.poisoned = false → ∃ d, w.driver.call .crashAndReopen = (d, .returned (.ok .unit))) ∧
    ∀ op, w.driver.disturbs op = true → ¬ (w.call op).Faithful := by
  have hr := driver_reachable h.reachable
  have hk := keeps_of_reachableUnder h
  exact ⟨faithful_of_keeps hr hk, fun hp => ⟨_, crash_returns hr hp⟩,
    fun op hop => not_faithful_of_disturbs hr hk hop⟩

theorem faithful_of_append :
    ∃ w, (watched ℕ).run (watched ℕ).init [.open 7 ⟨true, false, false⟩, .writeAt 0 [1, 2] 0,
        .fsync 0 false, .writeAt 0 [3, 4] 2] = some w ∧
      w.synced 0 = [1, 2] ∧ w.Faithful ∧ ¬ (w.call (.writeAt 0 [9] 0)).Faithful := by
  refine Exists.imp (fun w hrun => ⟨hrun, ?_⟩) ⟨_, rfl⟩
  obtain ⟨hfaith, -, hnot⟩ := faithful_until_disturbed w ⟨_, hrun, by decide⟩
  cases hrun
  exact ⟨rfl, hfaith, hnot _ (by decide)⟩

/-- Three bytes are synced.  Bytes written over them survive a crash without an `fsync`; a `set_len`
and an `O_TRUNC` without an `fsync` lose them. -/
theorem exists_unfaithful_crashes :
    ∃ w, (watched ℕ).run (watched ℕ).init [.open 7 ⟨true, false, false⟩, .writeAt 0 [1, 2, 3] 0,
        .fsync 0 false] = some w ∧ w.synced 0 = [1, 2, 3] ∧
      (((w.call (.writeAt 0 [9] 0)).call .crashAndReopen).driver.inner.files.lookup 0 =
        some ⟨[9, 2, 3], 3⟩) ∧
      (((w.call (.setLen 0 1)).call .crashAndReopen).driver.inner.files.lookup 0 = some ⟨[1], 1⟩) ∧
      (((w.call (.open 7 ⟨true, false, true⟩)).call .crashAndReopen).driver.inner.files.lookup 0 =
        some ⟨[], 0⟩) ∧ ((w.call (.writeAt 0 [9] 0)).synced 0 = [1, 2, 3] ∧
        (w.call (.setLen 0 1)).synced 0 = [1, 2, 3] ∧
        (w.call (.open 7 ⟨true, false, true⟩)).synced 0 = [1, 2, 3]) :=
  ⟨_, rfl, rfl, rfl, rfl, rfl, rfl, rfl, rfl⟩

end Watched

end RustyTokio.Sim

import RustyTokio.Transition.Futures
import RustyTokio.Transition.System
import Mathlib.Data.List.Nodup
import Mathlib.Logic.Function.Basic

/-!
# `UringFile` and the numbers of its files

An operation on a `UringFile` is an entry with a bare file descriptor.  It waits in the queue of the
driver until the driver thread moves it to the ring, and the kernel looks the number up when it
takes the entry from there; `set_len` is a closure on the blocking pool.
-/

namespace RustyTokio.UringFs

open Transition List Option Table Function

inductive Code where
  | readAt (pos len : ℕ)
  | writeAt (buf : List ℕ) (pos : ℕ)
  | fsync (datasync : Bool)
  | fallocate (offset len : ℕ)
  | setLen (len : ℕ)
  deriving DecidableEq

/-- The operation is a closure on the blocking pool, not an entry. -/
def Code.isBlocking : Code → Bool
  | .setLen _ => true
  | _ => false

structure Op where
  file : ℕ
  /-- The number in the entry, or in the closure. -/
  fd : ℕ
  /-- The file that `UringFile` has opened. -/
  node : ℕ
  code : Code
  /-- The future has not ended and was not dropped. -/
  live : Bool
  deriving DecidableEq

inductive Stage where
  | opened
  | closing
  /-- The kernel has taken that entry and has yet to carry it out. -/
  | issued
  | closed
  deriving DecidableEq

structure File where
  fd : ℕ
  node : ℕ
  stage : Stage
  deriving DecidableEq

inductive Entry where
  | op (i : ℕ)
  | close (f : ℕ)
  deriving DecidableEq

structure World where
  /-- The numbers that are in use, and what each is open on. -/
  table : ℕ → Option ℕ
  files : List File
  ops : List Op
  pending : List Entry
  /-- What `drain_pending` has taken from there and not yet pushed. -/
  taken : List Entry
  ring : List Entry
  /-- The closures on the blocking pool, by the operations they are for. -/
  jobs : List ℕ
  /-- What the operations were carried out on; `none` if the number was not in use. -/
  executed : List (ℕ × Option ℕ)

inductive Label where
  | open (fd node : ℕ)
  | foreignOpen (fd node : ℕ)
  | foreignClose (fd : ℕ)
  | submit (f : ℕ) (code : Code)
  | finish (i : ℕ)
  | cancel (i : ℕ)
  | drain
  | push
  /-- `drain_pending` finds the ring full twice, and the entry is gone. -/
  | lose
  | issue
  | finishClose (f : ℕ)
  | truncate (k : ℕ)
  | close (f : ℕ)
  | drop (f : ℕ)
  deriving DecidableEq

namespace World

def queue (w : World) : List Entry := w.ring ++ w.taken ++ w.pending

def unborrowed (w : World) (f : ℕ) : Bool := w.ops.all fun o => !(o.live && o.file == f)

def owned (w : World) (fd : ℕ) : Bool :=
  w.files.any fun file => file.fd == fd && file.stage != .closed

def setStage (w : World) (f : ℕ) (stage : Stage) : World :=
  { w with files := w.files.modify f fun file => { file with stage := stage } }

def closeFd (w : World) (f fd : ℕ) : World :=
  { w.setStage f .closed with table := update w.table fd none }

/-- An operation is carried out on whatever its number is open on. -/
def execute (w : World) (i : ℕ) : World :=
  { w with executed := w.executed ++ [(i, w.ops[i]?.bind fun o => w.table o.fd)] }

/-- `IoUringDriver::submit`, or `spawn_blocking` for `set_len`. -/
def submit (w : World) (f : ℕ) (file : File) (code : Code) : World :=
  let ops := w.ops ++ [⟨f, file.fd, file.node, code, true⟩]
  if code.isBlocking then { w with ops := ops, jobs := w.jobs ++ [w.ops.length] }
  else { w with ops := ops, pending := w.pending ++ [.op w.ops.length] }

def issue (w : World) : Entry → World
  | .op i => w.execute i
  | .close f => w.setStage f .issued

def endFuture (w : World) (i : ℕ) : World :=
  { w with ops := w.ops.modify i fun o => { o with live := false } }

def step (w : World) : Label → Option World
  | .open fd node =>
    if w.table fd = none then
      some
        { w with
          table := update w.table fd (some node)
          files := w.files ++ [⟨fd, node, .opened⟩] }
    else none
  | .foreignOpen fd node =>
    if w.table fd = none then
      some { w with table := update w.table fd (some node) }
    else none
  | .foreignClose fd =>
    if w.owned fd then none else some { w with table := update w.table fd none }
  | .submit f code =>
    w.files[f]?.bind fun file =>
      if file.stage = .opened then some (w.submit f file code) else none
  | .finish i => if i ∈ w.executed.map Prod.fst then some (w.endFuture i) else none
  | .cancel i => some (w.endFuture i)
  | .drain => if w.taken = [] then some { w with taken := w.pending, pending := [] } else none
  | .push =>
    match w.taken with
    | [] => none
    | e :: rest => some { w with taken := rest, ring := w.ring ++ [e] }
  | .lose =>
    match w.taken with
    | [] => none
    | _ :: rest => some { w with taken := rest }
  | .issue =>
    match w.ring with
    | [] => none
    | e :: rest => some (({ w with ring := rest } : World).issue e)
  | .finishClose f =>
    w.files[f]?.bind fun file =>
      if file.stage = .issued then some (w.closeFd f file.fd) else none
  | .truncate k =>
    w.jobs[k]?.map ({ w with jobs := w.jobs.eraseIdx k } : World).execute
  | .close f =>
    w.files[f]?.bind fun file =>
      if file.stage = .opened ∧ w.unborrowed f then
        some { w.setStage f .closing with pending := w.pending ++ [.close f] }
      else none
  | .drop f =>
    w.files[f]?.bind fun file =>
      -- `close` has set `closed`, and then `Drop` does nothing
      if file.stage = .opened ∧ w.unborrowed f then some (w.closeFd f file.fd) else none

end World

def process : System World Label where
  init := ⟨fun _ => none, [], [], [], [], [], [], []⟩
  step := World.step

namespace World

def isOf (w : World) (f i : ℕ) : Bool := w.ops[i]?.any fun o => o.file == f

/-- An operation of the file is still to be carried out. -/
def unfinished (w : World) (f : ℕ) : Bool :=
  (w.queue.any fun e => match e with
    | .op i => w.isOf f i
    | .close _ => false) || w.jobs.any (w.isOf f)

/-- A number is closed while an operation with it is still to be carried out. -/
def abandons (w : World) : Label → Bool
  | .finishClose f => w.unfinished f
  | .drop f => w.unfinished f
  | _ => false

/-- An operation was carried out on a file that its `UringFile` did not open. -/
def Strays (w : World) : Prop :=
  ∃ (i node : ℕ) (o : Op), (i, some node) ∈ w.executed ∧ w.ops[i]? = some o ∧ node ≠ o.node

/-- The operation is still to be executed. -/
def Waits (w : World) (i : ℕ) : Prop := .op i ∈ w.queue ∨ i ∈ w.jobs

variable {w : World}

theorem unfinished_iff {f : ℕ} : w.unfinished f ↔
    ∃ (i : ℕ) (o : Op), w.Waits i ∧ w.ops[i]? = some o ∧ o.file = f := by
  simp only [unfinished, Bool.or_eq_true, List.any_eq_true, isOf, Waits]
  constructor
  · rintro (⟨e, he, hf⟩ | ⟨i, hi, hf⟩)
    · cases e with
      | op i =>
        obtain ⟨o, ho, hof⟩ := (Option.any_eq_true _ _).mp hf
        exact ⟨i, o, .inl he, ho, beq_iff_eq.mp hof⟩
      | close f' => cases hf
    · obtain ⟨o, ho, hof⟩ := (Option.any_eq_true _ _).mp hf
      exact ⟨i, o, .inr hi, ho, beq_iff_eq.mp hof⟩
  · rintro ⟨i, o, hw | hw, ho, rfl⟩
    · exact .inl ⟨.op i, hw, by simp [ho]⟩
    · exact .inr ⟨i, hw, by simp [ho]⟩

/-! ## What a step does -/

inductive Steps (w : World) : Label → World → Prop where
  | open {fd node} (hfree : w.table fd = none) :
      Steps w (.open fd node)
        { w with
          table := update w.table fd (some node)
          files := w.files ++ [⟨fd, node, .opened⟩] }
  | foreignOpen {fd node} (hfree : w.table fd = none) :
      Steps w (.foreignOpen fd node) { w with table := update w.table fd (some node) }
  | foreignClose {fd} (hno : w.owned fd = false) :
      Steps w (.foreignClose fd) { w with table := update w.table fd none }
  | submit {f code file} (hf : w.files[f]? = some file)
      (hs : file.stage = .opened) : Steps w (.submit f code) (w.submit f file code)
  | endFuture {i label} : Steps w label (w.endFuture i)
  | shift {label pending taken ring}
      (hq : (ring ++ taken ++ pending).Sublist w.queue) :
      Steps w label { w with pending := pending, taken := taken, ring := ring }
  | issue {e rest} (hr : w.ring = e :: rest) :
      Steps w .issue (({ w with ring := rest } : World).issue e)
  | closeFd {f file label} (hl : label = .finishClose f ∨ label = .drop f)
      (hf : w.files[f]? = some file) (hs : file.stage = .opened ∨ file.stage = .issued) :
      Steps w label (w.closeFd f file.fd)
  | truncate {k i} (hk : w.jobs[k]? = some i) :
      Steps w (.truncate k) (({ w with jobs := w.jobs.eraseIdx k } : World).execute i)
  | close {f file} (hf : w.files[f]? = some file) (hs : file.stage = .opened) :
      Steps w (.close f) { w.setStage f .closing with pending := w.pending ++ [.close f] }

variable {e : Entry} {rest : List Entry} {v : World} {l : Label} {i : ℕ}

theorem queue_of_ring (hr : w.ring = e :: rest) :
    w.queue = e :: (rest ++ w.taken ++ w.pending) := by
  rw [queue, hr, cons_append, cons_append]

theorem queue_push (ht : w.taken = e :: rest) : w.ring ++ [e] ++ rest ++ w.pending = w.queue := by
  rw [queue, ht, append_assoc w.ring, singleton_append]

theorem closeFd_of_step {f : ℕ} (hl : l = .finishClose f ∨ l = .drop f) (hs : w.step l = some v) :
    ∃ file, w.files[f]? = some file ∧ (file.stage = .opened ∨ file.stage = .issued) ∧
      w.closeFd f file.fd = v := by
  rcases hl with rfl | rfl
  · obtain ⟨file, hf, hstage, hv⟩ := bind_guard_eq_some.mp hs
    exact ⟨file, hf, .inr hstage, hv⟩
  · obtain ⟨file, hf, ⟨hstage, -⟩, hv⟩ := bind_guard_eq_some.mp hs
    exact ⟨file, hf, .inl hstage, hv⟩

theorem steps_of_step (hs : w.step l = some v) : w.Steps l v := by
  cases l with
  | «open» fd node =>
    obtain ⟨hfree, rfl⟩ := of_guard hs
    exact .open hfree
  | foreignOpen fd node =>
    obtain ⟨hfree, rfl⟩ := of_guard hs
    exact .foreignOpen hfree
  | foreignClose fd =>
    obtain ⟨hno, rfl⟩ := of_guard_not hs
    exact .foreignClose (Bool.not_eq_true _ ▸ hno)
  | submit f code =>
    obtain ⟨file, hf, hstage, rfl⟩ := bind_guard_eq_some.mp hs
    exact .submit hf hstage
  | finish i =>
    obtain ⟨-, rfl⟩ := of_guard hs
    exact .endFuture
  | cancel i => exact some.inj hs ▸ .endFuture
  | drain =>
    obtain ⟨ht, hs⟩ := ite_none_right_eq_some.mp hs
    refine some.inj hs ▸ .shift ?_
    rw [queue, ht, append_nil, append_nil]
  | push =>
    simp only [step] at hs
    split at hs
    · cases hs
    next e rest ht =>
      refine some.inj hs ▸ .shift ?_
      rw [queue_push ht]
  | lose =>
    simp only [step] at hs
    split at hs
    · cases hs
    next e rest ht =>
      refine some.inj hs ▸ .shift ?_
      rw [queue, ht]
      exact ((sublist_cons_self e rest).append_left _).append_right _
  | issue =>
    simp only [step] at hs
    split at hs
    · cases hs
    next e rest hr => exact some.inj hs ▸ .issue hr
  | finishClose f =>
    obtain ⟨file, hf, hstage, rfl⟩ := closeFd_of_step (.inl rfl) hs
    exact .closeFd (.inl rfl) hf hstage
  | truncate k =>
    obtain ⟨i, hk, rfl⟩ := map_eq_some_iff.mp hs
    exact .truncate hk
  | close f =>
    obtain ⟨file, hf, ⟨hstage, -⟩, rfl⟩ := bind_guard_eq_some.mp hs
    exact .close hf hstage
  | drop f =>
    obtain ⟨file, hf, hstage, rfl⟩ := closeFd_of_step (.inr rfl) hs
    exact .closeFd (.inr rfl) hf hstage

/-! ## Whose number it is -/

/-- A file that is not closed owns its descriptor, alone. -/
structure Owning (w : World) : Prop where
  owns : ∀ (f : ℕ) (file : File), w.files[f]? = some file → file.stage ≠ .closed →
    w.table file.fd = some file.node
  alone : ∀ (f g : ℕ) (file file' : File), w.files[f]? = some file → w.files[g]? = some file' →
    file.stage ≠ .closed → file'.stage ≠ .closed → file.fd = file'.fd → f = g

/-- The entries in the queues are distinct and of known operations. -/
structure Queued (w : World) : Prop where
  distinct : w.queue.Nodup
  known : ∀ i, w.Waits i → i < w.ops.length
  closes : ∀ f, .close f ∈ w.queue → ∃ file, w.files[f]? = some file ∧ file.stage = .closing

/-- An operation keeps the descriptor and node of its file. -/
structure Recorded (w : World) : Prop where
  ops : ∀ (i : ℕ) (o : Op), w.ops[i]? = some o →
    ∃ file, w.files[o.file]? = some file ∧ file.fd = o.fd ∧ file.node = o.node
  past : ∀ i node, (i, some node) ∈ w.executed → i < w.ops.length

structure Sound (w : World) : Prop where
  owning : w.Owning
  queued : w.Queued
  recorded : w.Recorded

section Files

variable {w : World} {fd f : ℕ} {file : File}

theorem Owning.ne_of_free (h : w.Owning) (hfree : w.table fd = none)
    (hf : w.files[f]? = some file) (hs : file.stage ≠ .closed) : file.fd ≠ fd := by
  rintro rfl
  cases (h.owns f file hf hs).symm.trans hfree

theorem Owning.update (h : w.Owning) {x : Option ℕ}
    (hne : ∀ (f : ℕ) (file : File), w.files[f]? = some file → file.stage ≠ .closed → file.fd ≠ fd) :
    Owning { w with table := Function.update w.table fd x } := by
  refine ⟨fun f file hf hs => ?_, h.alone⟩
  exact (update_of_ne (hne f file hf hs) _ _).trans (h.owns f file hf hs)

theorem Owning.open (h : w.Owning) {node : ℕ} (hfree : w.table fd = none) : Owning { w with
      table := Function.update w.table fd (some node)
      files := w.files ++ [⟨fd, node, .opened⟩] } := by
  have hne : ∀ {f : ℕ} {file : File}, w.files[f]? = some file → file.stage ≠ .closed →
      file.fd ≠ fd := h.ne_of_free hfree
  refine ⟨fun f file hf hs => ?_, fun f g file file' hf hg hs hs' hfd => ?_⟩
  · rcases of_snoc hf with hf | ⟨-, rfl⟩
    · exact (update_of_ne (hne hf hs) _ _).trans (h.owns f file hf hs)
    · exact update_self ..
  · rcases of_snoc hf with hf | ⟨rfl, rfl⟩ <;> rcases of_snoc hg with hg | ⟨rfl, rfl⟩
    · exact h.alone f g file file' hf hg hs hs' hfd
    · exact absurd hfd (hne hf hs)
    · exact absurd hfd.symm (hne hg hs')
    · rfl

theorem Owning.setStage (h : w.Owning) (hf : w.files[f]? = some file)
    (hs : file.stage ≠ .closed) (stage : Stage) : (w.setStage f stage).Owning := by
  -- who is not closed now was not closed before, with the same number
  have hold : ∀ (g : ℕ) (file' : File), (w.setStage f stage).files[g]? = some file' →
      file'.stage ≠ .closed → ∃ file'', w.files[g]? = some file'' ∧ file''.stage ≠ .closed ∧
        file''.fd = file'.fd ∧ file''.node = file'.node := by
    intro g file' hg hs'
    rcases of_modify hg with ⟨rfl, file'', hg', rfl⟩ | ⟨-, hg⟩
    · cases hf.symm.trans hg'
      exact ⟨file, hf, hs, rfl, rfl⟩
    · exact ⟨file', hg, hs', rfl, rfl⟩
  refine ⟨fun g file' hg hs' => ?_, fun g g' file₁ file₂ hg hg' hs₁ hs₂ hfd => ?_⟩
  · obtain ⟨file'', hg', hs'', hfd, hnode⟩ := hold g file' hg hs'
    rw [← hfd, ← hnode]
    exact h.owns g file'' hg' hs''
  · obtain ⟨file₁', h₁, hs₁', hfd₁, -⟩ := hold g file₁ hg hs₁
    obtain ⟨file₂', h₂, hs₂', hfd₂, -⟩ := hold g' file₂ hg' hs₂
    exact h.alone g g' file₁' file₂' h₁ h₂ hs₁' hs₂' (hfd₁.trans (hfd.trans hfd₂.symm))

theorem Owning.closeFd (h : w.Owning) (hf : w.files[f]? = some file)
    (hs : file.stage ≠ .closed) : (w.closeFd f file.fd).Owning := by
  refine (h.setStage hf hs .closed).update fun g file' hg hs' hfd => ?_
  rcases of_modify hg with ⟨-, _, -, rfl⟩ | ⟨hfg, hg⟩
  · exact hs' rfl
  · exact hfg (h.alone f g file file' hf hg hs hs' hfd.symm)

theorem Recorded.setStage (h : w.Recorded) (f : ℕ) (stage : Stage) :
    (w.setStage f stage).Recorded := by
  refine ⟨fun i o ho => ?_, h.past⟩
  obtain ⟨file, hf, hfd, hnode⟩ := h.ops i o ho
  obtain rfl | hff := eq_or_ne f o.file
  · exact ⟨_, modify_self hf _, hfd, hnode⟩
  · exact ⟨file, (modify_of_ne hff _).trans hf, hfd, hnode⟩

theorem Recorded.execute (h : w.Recorded) (i : ℕ) : (w.execute i).Recorded := by
  refine ⟨h.ops, fun j node hmem => ?_⟩
  rcases mem_append.mp hmem with hmem | hmem
  · exact h.past j node hmem
  · obtain ⟨rfl, hnode⟩ := Prod.mk.inj (mem_singleton.mp hmem)
    obtain ⟨o, ho, -⟩ := bind_eq_some_iff.mp hnode.symm
    exact (lt_of_some ho)

theorem ops_of_endFuture {i j : ℕ} {o : Op} (ho : (w.endFuture i).ops[j]? = some o) :
    ∃ o', w.ops[j]? = some o' ∧ o'.file = o.file ∧ o'.fd = o.fd ∧ o'.node = o.node := by
  rcases of_modify ho with ⟨-, o', ho', rfl⟩ | ⟨-, ho⟩
  · exact ⟨o', ho', rfl, rfl, rfl⟩
  · exact ⟨o, ho, rfl, rfl, rfl⟩

theorem Recorded.endFuture (h : w.Recorded) (i : ℕ) : (w.endFuture i).Recorded := by
  refine ⟨fun j o ho => ?_, fun j node hmem => ?_⟩
  · obtain ⟨o', ho', hfile, hfd, hnode⟩ := ops_of_endFuture ho
    rw [← hfile, ← hfd, ← hnode]
    exact h.ops j o' ho'
  · rw [World.endFuture, length_modify]
    exact h.past j node hmem

theorem Queued.sublist {v : World} (h : w.Queued) (hq : v.queue.Sublist w.queue)
    (hjobs : v.jobs ⊆ w.jobs) (hops : v.ops = w.ops)
    (hfiles : ∀ f, .close f ∈ v.queue → v.files[f]? = w.files[f]?) : v.Queued := by
  refine ⟨hq.nodup h.distinct, fun i hi => ?_, fun f hf => ?_⟩
  · rw [hops]
    exact h.known i (hi.imp (fun hm => hq.subset hm) fun hm => hjobs hm)
  · rw [hfiles f hf]
    exact h.closes f (hq.subset hf)

theorem Queued.notMem_close (h : w.Queued) (hf : w.files[f]? = some file)
    (hs : file.stage ≠ .closing) : .close f ∉ w.queue := by
  intro hmem
  obtain ⟨file', hf', hs'⟩ := h.closes f hmem
  cases hf.symm.trans hf'
  exact hs hs'

end Files

theorem submit_frame (w : World) (f : ℕ) (file : File) (code : Code) :
    (w.submit f file code).table = w.table ∧ (w.submit f file code).files = w.files ∧
      (w.submit f file code).executed = w.executed ∧
      (w.submit f file code).ops = w.ops ++ [⟨f, file.fd, file.node, code, true⟩] := by
  rw [World.submit]
  split <;> exact ⟨rfl, rfl, rfl, rfl⟩

theorem queue_submit (w : World) (f : ℕ) (file : File) (code : Code) :
    ((w.submit f file code).queue = w.queue ∧
        (w.submit f file code).jobs = w.jobs ++ [w.ops.length]) ∨
      ((w.submit f file code).queue = w.queue ++ [.op w.ops.length] ∧
        (w.submit f file code).jobs = w.jobs) := by
  rw [World.submit]
  split
  · exact .inl ⟨rfl, rfl⟩
  · exact .inr ⟨(append_assoc _ _ _).symm, rfl⟩

variable {f : ℕ} {file : File}

theorem waits_of_submit {code : Code}
    (h : (w.submit f file code).Waits i) : w.Waits i ∨ i = w.ops.length := by
  rcases queue_submit w f file code with ⟨hq, hj⟩ | ⟨hq, hj⟩
  · rw [Waits, hq, hj, mem_append, mem_singleton] at h
    exact (or_assoc.mpr h).imp_left id
  · rw [Waits, hq, hj, mem_append, mem_singleton] at h
    rcases h with (h | h) | h
    · exact .inl (.inl h)
    · exact .inr (Entry.op.inj h)
    · exact .inl (.inr h)

theorem Queued.submit (h : w.Queued) (f : ℕ) (file : File) (code : Code) :
    (w.submit f file code).Queued := by
  obtain ⟨-, hfiles, -, hops⟩ := submit_frame w f file code
  have hlen : (w.submit f file code).ops.length = w.ops.length + 1 := by
    rw [hops, length_append, length_singleton]
  refine ⟨?_, fun i hi => ?_, fun g hg => ?_⟩
  · rcases queue_submit w f file code with ⟨hq, -⟩ | ⟨hq, -⟩
    · rw [hq]
      exact h.distinct
    · rw [hq, ← concat_eq_append]
      exact List.Nodup.concat (fun he => Nat.lt_irrefl _ (h.known _ (.inl he))) h.distinct
  · rw [hlen]
    rcases waits_of_submit hi with hi | rfl
    · exact Nat.lt_succ_of_lt (h.known i hi)
    · exact Nat.lt_succ_self _
  · rw [hfiles]
    rcases queue_submit w f file code with ⟨hq, -⟩ | ⟨hq, -⟩
    · exact h.closes g (hq ▸ hg)
    · rw [hq, mem_append, mem_singleton] at hg
      exact h.closes g (hg.resolve_right (by simp))

theorem Recorded.submit (h : w.Recorded) (code : Code)
    (hf : w.files[f]? = some file) : (w.submit f file code).Recorded := by
  obtain ⟨-, hfiles, hexec, hops⟩ := submit_frame w f file code
  refine ⟨fun i o ho => ?_, fun i node hmem => ?_⟩
  · rw [hfiles]
    rw [hops] at ho
    rcases of_snoc ho with ho | ⟨-, rfl⟩
    · exact h.ops i o ho
    · exact ⟨file, hf, rfl, rfl⟩
  · rw [hexec] at hmem
    rw [hops, length_append]
    exact Nat.lt_add_right _ (h.past i node hmem)

theorem Queued.setStage (h : w.Queued) (hf : .close f ∉ w.queue)
    (stage : Stage) : (w.setStage f stage).Queued := by
  refine h.sublist (Sublist.refl _) (Subset.refl _) rfl fun g hg => ?_
  have hne : f ≠ g := by
    rintro rfl
    exact hf hg
  exact modify_of_ne hne _

theorem Queued.issue (h : w.Queued)
    (hr : w.ring = e :: rest) : Queued (({ w with ring := rest } : World).issue e) := by
  have hqueue := queue_of_ring hr
  have hrest : Queued { w with ring := rest } := by
    refine h.sublist ?_ (Subset.refl _) rfl fun _ _ => rfl
    rw [hqueue]
    exact sublist_cons_self _ _
  cases e with
  | op i => exact ⟨hrest.distinct, hrest.known, hrest.closes⟩
  | close f =>
    -- the entry was the only one for this close
    have hnodup := h.distinct
    rw [hqueue] at hnodup
    exact hrest.setStage (nodup_cons.mp hnodup).1 .issued

theorem Queued.close (h : w.Queued) (hf : w.files[f]? = some file) (hs : file.stage = .opened) :
    Queued { w.setStage f .closing with pending := w.pending ++ [.close f] } := by
  have hno : .close f ∉ w.queue := h.notMem_close hf (by rw [hs]; simp)
  have hstage := h.setStage hno .closing
  have hqueue : w.ring ++ w.taken ++ (w.pending ++ [.close f]) = w.queue ++ [.close f] :=
    (append_assoc _ _ _).symm
  refine ⟨?_, fun i hi => ?_, fun g hg => ?_⟩
  · simp only [queue, World.setStage, hqueue]
    rw [← concat_eq_append]
    exact List.Nodup.concat hno h.distinct
  · refine h.known i ?_
    simp only [Waits, queue, World.setStage, hqueue] at hi
    refine hi.imp_left fun hm => ?_
    exact (mem_append.mp hm).resolve_right (by simp)
  · simp only [queue, World.setStage, hqueue] at hg
    rcases mem_append.mp hg with hg | hg
    · exact hstage.closes g hg
    · rw [mem_singleton] at hg
      cases hg
      exact ⟨_, modify_self hf _, rfl⟩

theorem sound_of_steps (h : w.Sound) (hs : w.Steps l v) : v.Sound := by
  obtain ⟨ho, hq, hr⟩ := h
  cases hs with
  | «open» hfree =>
    refine ⟨ho.open hfree, ⟨hq.distinct, hq.known, fun f hf => ?_⟩, fun i o hi => ?_, hr.past⟩
    · obtain ⟨file, hfile, hstage⟩ := hq.closes f hf
      exact ⟨file, append_of_some hfile _, hstage⟩
    · obtain ⟨file, hfile, hrest⟩ := hr.ops i o hi
      exact ⟨file, append_of_some hfile _, hrest⟩
  | foreignOpen hfree =>
    exact ⟨ho.update fun f file hf hs => ho.ne_of_free hfree hf hs,
      ⟨hq.distinct, hq.known, hq.closes⟩, ⟨hr.ops, hr.past⟩⟩
  | @foreignClose fd hno =>
    refine ⟨ho.update fun f file hf hs hfd => ?_, ⟨hq.distinct, hq.known, hq.closes⟩,
      ⟨hr.ops, hr.past⟩⟩
    have := any_eq_false.mp hno file (mem_of_getElem? hf)
    simp [hfd, hs] at this
  | @submit f code file hf hs =>
    obtain ⟨htable, hfiles, -, -⟩ := submit_frame w f file code
    refine ⟨⟨?_, ?_⟩, hq.submit f file code, hr.submit code hf⟩
    · rw [htable, hfiles]
      exact ho.owns
    · rw [hfiles]
      exact ho.alone
  | @endFuture i label =>
    refine ⟨⟨ho.owns, ho.alone⟩, ⟨hq.distinct, fun j hj => ?_, hq.closes⟩, hr.endFuture i⟩
    rw [World.endFuture, length_modify]
    exact hq.known j hj
  | shift hsub =>
    exact ⟨⟨ho.owns, ho.alone⟩, hq.sublist hsub (Subset.refl _) rfl fun _ _ => rfl,
      ⟨hr.ops, hr.past⟩⟩
  | @issue e rest hring =>
    refine ⟨?_, hq.issue hring, ?_⟩
    · cases e with
      | op i => exact ⟨ho.owns, ho.alone⟩
      | close f =>
        obtain ⟨file, hf, hs⟩ := hq.closes f (queue_of_ring hring ▸ mem_cons_self)
        have hst := ho.setStage hf (by rw [hs]; simp) .issued
        exact ⟨hst.owns, hst.alone⟩
    · have hrest : Recorded { w with ring := rest } := ⟨hr.ops, hr.past⟩
      cases e with
      | op i => exact hrest.execute i
      | close f => exact hrest.setStage f .issued
  | @closeFd f file label hl hf hs =>
    have hopen : file.stage ≠ .closed := by rcases hs with hs | hs <;> rw [hs] <;> simp
    have hno : .close f ∉ w.queue :=
      hq.notMem_close hf (by rcases hs with hs | hs <;> rw [hs] <;> simp)
    have hq' := hq.setStage hno .closed
    have hr' := hr.setStage f .closed
    exact ⟨ho.closeFd hf hopen, ⟨hq'.distinct, hq'.known, hq'.closes⟩, ⟨hr'.ops, hr'.past⟩⟩
  | @truncate k i hk =>
    have hrest : Recorded { w with jobs := w.jobs.eraseIdx k } := ⟨hr.ops, hr.past⟩
    refine ⟨⟨ho.owns, ho.alone⟩, ?_, hrest.execute i⟩
    exact hq.sublist (Sublist.refl _) (eraseIdx_sublist _ _).subset rfl fun _ _ => rfl
  | @close f file hf hs =>
    have hst := ho.setStage hf (by rw [hs]; simp) .closing
    have hr' := hr.setStage f .closing
    exact ⟨⟨hst.owns, hst.alone⟩, hq.close hf hs, ⟨hr'.ops, hr'.past⟩⟩

theorem sound_of_reachable (h : process.Reachable w) : w.Sound := by
  refine System.inv_of_reachable (I := Sound) ⟨?_, ?_, ?_⟩
    (fun _ _ _ hI hs => sound_of_steps hI (steps_of_step hs)) h
  · constructor <;> simp [process]
  · constructor <;> simp [process, queue, Waits]
  · constructor <;> simp [process]

/-! ## While nothing is abandoned -/

/-- No entry waits for a closed file, and none was executed on another node. -/
structure Kept (w : World) : Prop where
  safe : ∀ (i : ℕ) (o : Op) (file : File), w.Waits i → w.ops[i]? = some o →
    w.files[o.file]? = some file → file.stage ≠ .closed
  right : ∀ (i node : ℕ) (o : Op), (i, some node) ∈ w.executed → w.ops[i]? = some o → node = o.node

section Kept

variable {w : World}

theorem Kept.execute (h : w.Kept) (hw : w.Sound) {i : ℕ} (hi : w.Waits i) : (w.execute i).Kept := by
  refine ⟨h.safe, fun j node o hmem ho => ?_⟩
  rcases mem_append.mp hmem with hmem | hmem
  · exact h.right j node o hmem ho
  · obtain ⟨rfl, hnode⟩ := Prod.mk.inj (mem_singleton.mp hmem)
    obtain ⟨o', ho', htable⟩ := bind_eq_some_iff.mp hnode.symm
    cases ho.symm.trans ho'
    obtain ⟨file, hf, hfd, hfn⟩ := hw.recorded.ops j o ho
    have howns := hw.owning.owns o.file file hf (h.safe j o file hi ho hf)
    rw [hfd, htable] at howns
    exact (some.inj howns).trans hfn

theorem Kept.fewer {v : World} (h : w.Kept) (hwaits : ∀ i, v.Waits i → w.Waits i)
    (hops : v.ops = w.ops) (hfiles : v.files = w.files) (hexec : v.executed = w.executed) :
    v.Kept := by
  refine ⟨fun i o file hi ho hf => ?_, fun i node o hmem ho => ?_⟩
  · exact h.safe i o file (hwaits i hi) (hops ▸ ho) (hfiles ▸ hf)
  · exact h.right i node o (hexec ▸ hmem) (hops ▸ ho)

theorem Kept.setStage (h : w.Kept) {stage : Stage}
    (hs : stage = .closed → w.unfinished f = false) : (w.setStage f stage).Kept := by
  refine ⟨fun i o file hi ho hf => ?_, h.right⟩
  rcases of_modify hf with ⟨hfo, file', hf', rfl⟩ | ⟨-, hf⟩
  · intro hclosed
    exact Bool.false_ne_true ((hs hclosed).symm.trans (unfinished_iff.mpr ⟨i, o, hi, ho, hfo.symm⟩))
  · exact h.safe i o file hi ho hf

theorem Kept.submit (h : w.Kept) (hw : w.Sound) {code : Code}
    (hf : w.files[f]? = some file) (hs : file.stage = .opened) : (w.submit f file code).Kept := by
  obtain ⟨-, hfiles, hexec, hops⟩ := submit_frame w f file code
  refine ⟨fun i o file' hi ho hf' => ?_, fun i node o hmem ho => ?_⟩
  · rw [hops] at ho
    rw [hfiles] at hf'
    rcases of_snoc ho with ho | ⟨-, rfl⟩
    · have hlt := (lt_of_some ho)
      exact h.safe i o file' ((waits_of_submit hi).resolve_right (Nat.ne_of_lt hlt)) ho hf'
    · rw [← some.inj (hf.symm.trans hf'), hs]
      simp
  · rw [hexec] at hmem
    rw [hops] at ho
    have hlt := hw.recorded.past i node hmem
    exact h.right i node o hmem ((of_snoc ho).resolve_right fun hi => Nat.ne_of_lt hlt hi.1)

theorem Kept.endFuture (h : w.Kept) (i : ℕ) : (w.endFuture i).Kept := by
  refine ⟨fun j o file hj ho hf => ?_, fun j node o hmem ho => ?_⟩
  · obtain ⟨o', ho', hfile, -⟩ := ops_of_endFuture ho
    exact h.safe j o' file hj ho' (hfile ▸ hf)
  · obtain ⟨o', ho', -, -, hnode⟩ := ops_of_endFuture ho
    exact (h.right j node o' hmem ho').trans hnode

end Kept

theorem kept_of_steps (hw : w.Sound) (h : w.Kept)
    (hl : w.abandons l = false) (hs : w.Steps l v) : v.Kept := by
  cases hs with
  | «open» hfree =>
    refine ⟨fun i o file hi ho hf => ?_, h.right⟩
    rcases of_snoc hf with hf | ⟨-, rfl⟩
    · exact h.safe i o file hi ho hf
    · simp
  | foreignOpen hfree | foreignClose hno => exact h.fewer (fun _ hi => hi) rfl rfl rfl
  | submit hf hstage => exact h.submit hw hf hstage
  | endFuture => exact h.endFuture _
  | shift hsub => exact h.fewer (fun i hi => hi.imp_left fun hm => hsub.subset hm) rfl rfl rfl
  | @issue e rest hring =>
    have hfewer : ∀ i, Waits { w with ring := rest } i → w.Waits i := by
      intro i hi
      refine hi.imp_left fun hm => ?_
      rw [queue_of_ring hring]
      exact mem_cons_of_mem _ hm
    cases e with
    | op i =>
      have hi : w.Waits i := .inl (queue_of_ring hring ▸ mem_cons_self)
      exact (h.execute hw hi).fewer hfewer rfl rfl rfl
    | close f =>
      exact (h.fewer hfewer rfl rfl rfl : Kept { w with ring := rest }).setStage (by simp)
  | @closeFd f file label hlabel hf hstage =>
    have hno : w.unfinished f = false := by
      rcases hlabel with rfl | rfl <;> exact hl
    exact (h.setStage fun _ => hno : (w.setStage f .closed).Kept).fewer (fun _ hi => hi) rfl rfl rfl
  | @truncate k i hk =>
    refine (h.execute hw (.inr (mem_of_getElem? hk))).fewer (fun j hj => ?_) rfl rfl rfl
    exact hj.imp_right fun hm => (eraseIdx_sublist _ _).subset hm
  | @close f file hf hstage =>
    have hst : (w.setStage f .closing).Kept := h.setStage (by simp)
    refine hst.fewer (fun i hi => hi.imp_left fun hm => ?_) rfl rfl rfl
    rcases mem_append.mp hm with hm | hm
    · exact mem_append_left _ hm
    · exact mem_append_right _ ((mem_append.mp hm).resolve_right (by simp))

theorem kept_of_reachableUnder
    (h : process.ReachableUnder (fun w l => w.abandons l = false) w) : w.Kept := by
  have hinit : process.init.Kept := by
    constructor <;> simp [process]
  exact h.inv hinit fun w l v hr hI hl hs =>
    kept_of_steps (sound_of_reachable hr) hI hl (steps_of_step hs)

/-! ## After something was abandoned -/

/-- The descriptor of the operation is another file's now. -/
def Misdirected (w : World) (i : ℕ) : Prop :=
  ∃ (o : Op) (node : ℕ), w.ops[i]? = some o ∧ w.table o.fd = some node ∧ node ≠ o.node

theorem Misdirected.strays (h : w.Misdirected i) : (w.execute i).Strays := by
  obtain ⟨o, node, ho, htable, hne⟩ := h
  refine ⟨i, node, o, mem_append_right _ ?_, ho, hne⟩
  rw [ho, bind_some, htable]
  exact mem_singleton_self _

def serving (l : Label) : Prop :=
  (∃ fd node, l = .foreignOpen fd node) ∨ l = .drain ∨ l = .push ∨ l = .issue ∨
    ∃ k, l = .truncate k

def distance (w : World) : ℕ := w.ring.length + 2 * w.taken.length + 3 * w.pending.length

theorem issue_frame (w : World) (e : Entry) :
    (w.issue e).table = w.table ∧ (w.issue e).ops = w.ops ∧ (w.issue e).queue = w.queue ∧
      (w.issue e).distance = w.distance := by
  cases e <;> exact ⟨rfl, rfl, rfl, rfl⟩

theorem leadsTo_strays (h : w.Misdirected i) (hi : .op i ∈ w.queue) :
    process.LeadsTo serving Strays w := by
  refine .of_rank (I := fun w => w.Misdirected i ∧ .op i ∈ w.queue) distance
    (fun w ⟨h, hi⟩ => .inr ?_) ⟨h, hi⟩
  cases hr : w.ring with
  | cons e rest =>
    refine ⟨.issue, ({ w with ring := rest } : World).issue e,
      .inr (.inr (.inr (.inl rfl))), by simp [process, step, hr], ?_⟩
    by_cases he : e = .op i
    · subst he
      exact .inl (Misdirected.strays h)
    · obtain ⟨htable, hops, hqueue, hdist⟩ := issue_frame { w with ring := rest } e
      refine .inr ⟨⟨?_, ?_⟩, ?_⟩
      · rw [Misdirected, htable, hops]
        exact h
      · rw [queue_of_ring hr] at hi
        rw [hqueue]
        exact (mem_cons.mp hi).resolve_left (Ne.symm he)
      · rw [hdist]
        simp only [distance, hr, length_cons]
        omega
  | nil =>
    cases ht : w.taken with
    | cons e rest =>
      refine ⟨.push, { w with taken := rest, ring := w.ring ++ [e] }, .inr (.inr (.inl rfl)),
        by simp [process, step, ht], .inr ⟨⟨h, ?_⟩, ?_⟩⟩
      · rw [← queue_push ht] at hi
        exact hi
      · simp only [distance, hr, ht, length_append, length_cons, length_nil]
        omega
    | nil =>
      rw [queue, hr, ht] at hi
      have hpos := length_pos_of_mem hi
      refine ⟨.drain, { w with taken := w.pending, pending := [] }, .inr (.inl rfl),
        by simp [process, step, ht], .inr ⟨⟨h, ?_⟩, ?_⟩⟩
      · rw [queue, hr, append_nil]
        exact hi
      · simp only [distance, hr, ht, length_nil, nil_append] at hpos ⊢
        omega

theorem leadsTo_strays_of_free {o : Op} (hi : w.Waits i)
    (ho : w.ops[i]? = some o) (hfree : w.table o.fd = none) : process.LeadsTo serving Strays w := by
  have hstep : process.step w (.foreignOpen o.fd (o.node + 1)) =
      some { w with table := update w.table o.fd (some (o.node + 1)) } := by
    simp [process, step, hfree]
  have hmis : Misdirected
      { w with table := update w.table o.fd (some (o.node + 1)) } i :=
    ⟨o, o.node + 1, ho, update_self .., Nat.succ_ne_self _⟩
  refine .of_step (.inl ⟨_, _, rfl⟩) hstep ?_
  rcases hi with hi | hi
  · exact leadsTo_strays hmis hi
  · obtain ⟨k, hk⟩ := getElem?_of_mem hi
    have hrun : process.step { w with table := update w.table o.fd (some (o.node + 1)) }
        (.truncate k) = some (World.execute { w with
          table := update w.table o.fd (some (o.node + 1))
          jobs := w.jobs.eraseIdx k } i) := by
      simp [process, step, hk]
    exact .of_step (.inr (.inr (.inr (.inr ⟨k, rfl⟩)))) hrun
      (.now (Misdirected.strays hmis))

theorem leadsTo_strays_of_closeFd {f : ℕ} (hw : w.Sound)
    (hf : w.files[f]? = some file) (hun : w.unfinished f) :
    process.LeadsTo serving Strays (w.closeFd f file.fd) := by
  obtain ⟨i, o, hi, ho, rfl⟩ := unfinished_iff.mp hun
  obtain ⟨file', hf', hfd, -⟩ := hw.recorded.ops i o ho
  cases hf.symm.trans hf'
  refine leadsTo_strays_of_free hi ho ?_
  rw [← hfd]
  exact update_self ..

theorem leadsTo_strays_of_abandons (hw : w.Sound)
    (hl : w.abandons l) (hs : w.step l = some v) : process.LeadsTo serving Strays v := by
  cases l with
  | finishClose f =>
    obtain ⟨file, hf, -, rfl⟩ := closeFd_of_step (.inl rfl) hs
    exact leadsTo_strays_of_closeFd hw hf hl
  | drop f =>
    obtain ⟨file, hf, -, rfl⟩ := closeFd_of_step (.inr rfl) hs
    exact leadsTo_strays_of_closeFd hw hf hl
  | _ => cases hl

/-- **The file an operation is on.**  Every operation was carried out on the file that its
`UringFile` had opened, or failed, as long as no number is closed while an operation with it is
still to be carried out.  When one is, the number can go to another file first. -/
theorem not_strays_unless_abandons (w : World) :
    (process.ReachableUnder (fun w l => w.abandons l = false) w → ¬ w.Strays) ∧
    ∀ l v, process.Reachable w → w.abandons l = true → w.step l = some v →
      process.LeadsTo serving Strays v := by
  constructor
  · rintro h ⟨i, node, o, hmem, ho, hne⟩
    exact hne ((kept_of_reachableUnder h).right i node o hmem ho)
  · intro l v hr hl hs
    exact leadsTo_strays_of_abandons (sound_of_reachable hr) hl hs

theorem not_strays_after_close : (∃ w, process.ReachableUnder (fun w l => w.abandons l = false) w ∧
      w.executed = [(0, some 10)] ∧ w.table 3 = some 11 ∧ ¬ w.Strays) ∧
    ∃ w v : World, w.step (.drop 0) = some v ∧ process.LeadsTo serving Strays v := by
  constructor
  · have hr : process.ReachableUnder (fun w l => w.abandons l = false) _ :=
      ⟨[.open 3 10, .submit 0 (.writeAt [1, 2] 0), .cancel 0, .close 0, .drain, .push, .push,
        .issue, .issue, .finishClose 0, .open 3 11], rfl, by decide⟩
    exact ⟨_, hr, rfl, rfl, (not_strays_unless_abandons _).1 hr⟩
  · have hw : ∃ w v : World, process.Reachable w ∧ w.abandons (.drop 0) ∧
        w.step (.drop 0) = some v :=
      ⟨_, _, ⟨[.open 3 10, .submit 0 (.writeAt [1, 2] 0), .cancel 0], rfl⟩, rfl, rfl⟩
    obtain ⟨w, v, hr, hl, hs⟩ := hw
    exact ⟨w, v, hs, (not_strays_unless_abandons w).2 (.drop 0) v hr hl hs⟩

/-- The future of a write is dropped and then the file, before the driver thread runs; and the
future of a `set_len` is dropped and then the file is closed, before the blocking pool runs.  Both
numbers go to another `UringFile`, and both operations are carried out on its file. -/
theorem exists_strays :
    (∃ w, process.run process.init [.open 3 10, .submit 0 (.writeAt [1, 2] 0), .cancel 0, .drop 0,
        .open 3 11, .drain, .push, .issue] = some w ∧ w.executed = [(0, some 11)] ∧ w.Strays) ∧
    ∃ w, process.run process.init [.open 3 10, .submit 0 (.setLen 0), .cancel 0, .close 0, .drain,
        .push, .issue, .finishClose 0, .open 3 11, .truncate 0] = some w ∧
      w.executed = [(0, some 11)] ∧ w.Strays := by
  refine ⟨⟨_, rfl, rfl, 0, 11, ⟨0, 3, 10, .writeAt [1, 2] 0, false⟩, ?_, rfl, by decide⟩,
    ⟨_, rfl, rfl, 0, 11, ⟨0, 3, 10, .setLen 0, false⟩, ?_, rfl, by decide⟩⟩
  · exact mem_singleton_self _
  · exact mem_singleton_self _

end World

end RustyTokio.UringFs

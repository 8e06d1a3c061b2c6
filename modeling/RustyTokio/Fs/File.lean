import RustyTokio.Transition.Leftover
import Mathlib.Algebra.Order.Ring.Int

/-!
# `fs::File`

Every operation of a `File` moves the `std::fs::File` into a closure on the blocking pool and polls
for it to come back.
-/

namespace RustyTokio.Fs

open Transition Transition.Leftover Handle

structure OsFile where
  content : List ℕ
  cursor : ℕ
  append : Bool
  permissions : ℕ
  synced : List ℕ
  deriving DecidableEq

inductive SeekFrom where
  | start (pos : ℕ)
  | fromEnd (offset : ℤ)
  | current (offset : ℤ)
  deriving DecidableEq

inductive Request where
  | read (remaining maxBufSize : ℕ)
  | write (buf : List ℕ) (maxBufSize : ℕ)
  | seek (pos : SeekFrom)
  | setLen (size : ℕ)
  | setPermissions (perm : ℕ)
  | syncAll
  | syncData
  | tryClone
  deriving DecidableEq

inductive Op where
  | read (result : Except ℕ (List ℕ))
  | write (result : Except ℕ ℕ)
  | seek (result : Except ℕ ℕ)
  | setLen (result : Except ℕ Unit)
  | setPermissions (result : Except ℕ Unit)
  | syncAll (result : Except ℕ Unit)
  | syncData (result : Except ℕ Unit)
  | tryClone (result : Except ℕ Unit)
  deriving DecidableEq

inductive Kind where
  | read
  | write
  | seek
  | setLen
  | setPermissions
  | syncAll
  | syncData
  | tryClone
  deriving DecidableEq

def Op.kind : Op → Kind
  | .read _ => .read
  | .write _ => .write
  | .seek _ => .seek
  | .setLen _ => .setLen
  | .setPermissions _ => .setPermissions
  | .syncAll _ => .syncAll
  | .syncData _ => .syncData
  | .tryClone _ => .tryClone

def Request.kind : Request → Kind
  | .read _ _ => .read
  | .write _ _ => .write
  | .seek _ => .seek
  | .setLen _ => .setLen
  | .setPermissions _ => .setPermissions
  | .syncAll => .syncAll
  | .syncData => .syncData
  | .tryClone => .tryClone

/-! ## The closures -/

inductive Choice where
  | ok (n : ℕ)
  | error (code : ℕ)
  deriving DecidableEq

namespace OsFile

def readable (f : OsFile) (want : ℕ) : ℕ := min want (f.content.length - f.cursor)

/-- `Read::read`.  It reads nothing only into an empty chunk or at the end of the file. -/
def read (f : OsFile) (want n : ℕ) : Option (OsFile × List ℕ) :=
  if n ≤ f.readable want ∧ (n = 0 → f.readable want = 0) then
    some ({ f with cursor := f.cursor + n }, (f.content.drop f.cursor).take n)
  else none

def written (content : List ℕ) (place : ℕ) (data : List ℕ) : List ℕ :=
  content.take place ++ List.replicate (place - content.length) 0 ++ data ++
    content.drop (place + data.length)

def write (f : OsFile) (data : List ℕ) (n : ℕ) : Option OsFile :=
  if n ≤ data.length then
    let place := if f.append then f.content.length else f.cursor
    some
      { f with
        content := written f.content place (data.take n)
        cursor := place + n }
  else none

def target (f : OsFile) : SeekFrom → Option ℕ
  | .start pos => some pos
  | .fromEnd offset =>
    if 0 ≤ f.content.length + offset then some (f.content.length + offset).toNat else none
  | .current offset => if 0 ≤ f.cursor + offset then some (f.cursor + offset).toNat else none

end OsFile

def perform (f : OsFile) : Request → Choice → Option (OsFile × Op)
  | .read remaining maxBufSize, .ok n =>
    (f.read (min remaining maxBufSize) n).map fun r => (r.1, .read (.ok r.2))
  | .read _ _, .error code => some (f, .read (.error code))
  | .write buf maxBufSize, .ok n =>
    (f.write (buf.take (min buf.length maxBufSize)) n).map fun f' => (f', .write (.ok n))
  | .write _ _, .error code => some (f, .write (.error code))
  | .seek pos, .ok _ =>
    (f.target pos).map fun place => ({ f with cursor := place }, .seek (.ok place))
  | .seek _, .error code => some (f, .seek (.error code))
  | .setLen size, .ok _ =>
    some
      ({ f with content := f.content.take size ++ List.replicate (size - f.content.length) 0 },
        .setLen (.ok ()))
  | .setLen _, .error code => some (f, .setLen (.error code))
  | .setPermissions perm, .ok _ =>
    some ({ f with permissions := perm }, .setPermissions (.ok ()))
  | .setPermissions _, .error code => some (f, .setPermissions (.error code))
  | .syncAll, .ok _ => some ({ f with synced := f.content }, .syncAll (.ok ()))
  | .syncAll, .error code => some (f, .syncAll (.error code))
  | .syncData, .ok _ => some ({ f with synced := f.content }, .syncData (.ok ()))
  | .syncData, .error code => some (f, .syncData (.error code))
  | .tryClone, .ok _ => some (f, .tryClone (.ok ()))
  | .tryClone, .error code => some (f, .tryClone (.error code))

/-! ## The `poll` methods -/

/-- The `Op`s that the `poll` method of an operation returns.  It goes on after the others. -/
def Kind.takes : Kind → Kind → Bool
  -- `poll_read`
  | .read, op => op == .read
  -- `poll_write`
  | .write, op => op == .write
  -- `poll_seek`
  | .seek, op => op == .seek
  -- `poll_dispatch`, for four operations alike
  | .setLen, op | .setPermissions, op | .syncAll, op | .syncData, op =>
    op == .setLen || op == .setPermissions || op == .syncAll || op == .syncData
  -- `poll_try_clone`
  | .tryClone, op => op == .tryClone

/-- The chunk fits into the buffer; otherwise `poll_read` panics. -/
def fits : Request → Op → Bool
  | .read remaining _, .read (.ok chunk) => chunk.length ≤ remaining
  | _, _ => true

def file (f : OsFile) : Handle OsFile Request Choice Op where
  device := f
  exec := perform
  accepts request job := request.kind.takes job.kind
  fits := fits
  spawns := true
  poisons := true

variable {f : OsFile} {request : Request}

theorem kind_of_perform {f' : OsFile} {choice : Choice} {op : Op}
    (h : perform f request choice = some (f', op)) : op.kind = request.kind := by
  cases request <;> cases choice <;> simp only [perform, Option.map_eq_some_iff] at h
  all_goals first
    | (obtain ⟨_, _, heq⟩ := h
       rw [← (Prod.mk.inj heq).2]
       rfl)
    | (rw [← (pair_of_some h).2]
       rfl)

/-! ## Whose result an operation gets -/

theorem perform_error (f : OsFile) (request : Request) (code : ℕ) :
    ∃ op, perform f request (.error code) = some (f, op) ∧ ∀ r, fits r op := by
  cases request <;> refine ⟨_, rfl, fun r => ?_⟩ <;> cases r <;> rfl

theorem exists_canAnswer (g : OsFile) (job : Request)
    {progress : Progress Op} (hu : (file f).usable request progress) :
    ∃ op, (file f).CanAnswer g job op progress ∧ fits request op := by
  obtain ⟨op, hp, hfits⟩ := perform_error g job 5
  cases progress with
  | done op' => exact ⟨op', rfl, hu⟩
  | crashed => cases hu
  | waiting | running => exact ⟨op, ⟨_, _, hp⟩, hfits request⟩

/-- **Results belong to their call, unless an operation inherits one.**  As long as no operation
begins over a leftover whose `Op` its `poll` method returns, every result came from a call of
`std::fs` made for it, with its arguments.  An operation that begins otherwise can end with the
result of another. -/
theorem results_own_unless_inherits (f : OsFile) (s : State OsFile Request Op) :
    ((file f).system.ReachableUnder (fun s l => (file f).inherits s l = false) s →
      ∀ x ∈ s.results, ∀ owner job op, x.outcome = .answered owner job op →
        owner = x.call ∧ job = x.request ∧ (x.call, x.request, op) ∈ s.log ∧
          ∃ before choice after, perform before x.request choice = some (after, op)) ∧
    ∀ l t, (file f).system.Reachable s → (file f).inherits s l = true → (file f).step s l = some t →
        (file f).system.LeadsTo Handle.Finishing (fun u => ∃ x ∈ u.results, ∃ owner job op,
            x.outcome = .answered owner job op ∧ owner ≠ x.call) t := by
  constructor
  · intro h x hx owner job op ho
    obtain ⟨hcall, hjob, hlog⟩ := own_of_reachableUnder h x hx owner job op ho
    exact ⟨hcall, hjob, hlog, exec_of_mem_log h.reachable _ hlog⟩
  · intro l t hr hl hs
    cases steps_of_step hs with
    | call request hc =>
      -- the handle holds a leftover, of an earlier call
      simp only [Handle.inherits] at hl
      split at hl
      next owner job progress hslot =>
        obtain ⟨ha, hu⟩ := Bool.and_eq_true_iff.mp hl
        obtain ⟨op, hcan, hfits⟩ := exists_canAnswer s.device job hu
        have howner := ((sound_of_reachable hr).slot _ _ _ hslot).1
        have hlt := (lt_of_some howner)
        refine (leadsTo_taken_of_call hslot ha hcan).mono
          fun u hx => ⟨_, hx, owner, job, op, ?_⟩
        exact ⟨if_pos hfits, ne_of_lt hlt⟩
      · cases hl
    | _ => cases hl

def five : OsFile := ⟨[1, 2, 3, 4, 5], 0, false, 0, []⟩

theorem results_own_after_read :
    (∃ s, (file five).system.ReachableUnder (fun s l => (file five).inherits s l = false) s ∧
      s.results = [⟨1, .write [7] 9, .answered 1 (.write [7] 9) (.write (.ok 1))⟩] ∧
      (1, Request.write [7] 9, Op.write (.ok 1)) ∈ s.log) ∧
    ∃ s t, (file five).step s (.call (.write [7] 9)) = some t ∧
      (file five).system.LeadsTo Handle.Finishing (fun u => ∃ x ∈ u.results, ∃ owner job op,
          x.outcome = .answered owner job op ∧ owner ≠ x.call) t := by
  constructor
  · have hr : (file five).system.ReachableUnder (fun s l => (file five).inherits s l = false) _ :=
      ⟨[.call (.read 2 9), .start, .suspend, .drop, .work (.ok 2), .call (.write [7] 9), .take,
        .start, .work (.ok 1), .take], rfl, by decide⟩
    obtain ⟨-, -, hlog, -⟩ := (results_own_unless_inherits five _).1 hr _
      (List.mem_singleton_self _) _ _ _ rfl
    exact ⟨_, hr, rfl, hlog⟩
  · have hs : ∃ s t, (file five).system.Reachable s ∧
        (file five).inherits s (.call (.write [7] 9)) ∧
        (file five).step s (.call (.write [7] 9)) = some t :=
      ⟨_, _, ⟨[.call (.write [8, 9] 9), .start, .suspend, .drop], rfl⟩, rfl, rfl⟩
    obtain ⟨s, t, hr, hl, hst⟩ := hs
    exact ⟨s, t, hst, (results_own_unless_inherits five s).2 _ t hr hl hst⟩

/-- Two operations that get the result of another.  A `write` of two bytes returns the count of
five that an earlier one had written, and its own bytes are not written.  A `sync_all` returns
with the success of a `set_len`, and nothing was synced. -/
theorem exists_result_of_another :
    (∃ s, (file five).system.run (file five).system.init [.call (.write [6, 7, 8, 9, 10] 16),
        .start, .suspend, .drop, .work (.ok 5), .call (.write [0, 0] 16), .take] = some s ∧
      s.results = [⟨1, .write [0, 0] 16,
        .answered 0 (.write [6, 7, 8, 9, 10] 16) (.write (.ok 5))⟩] ∧
      s.device.content = [6, 7, 8, 9, 10] ∧ s.slot = .idle) ∧
    ∃ s, (file five).system.run (file five).system.init [.call (.setLen 3), .start, .suspend, .drop,
        .work (.ok 0), .call .syncAll, .take] = some s ∧
      s.results = [⟨1, .syncAll, .answered 0 (.setLen 3) (.setLen (.ok ()))⟩] ∧
      s.device.synced = [] ∧ s.device.content = [1, 2, 3] :=
  ⟨⟨_, rfl, rfl, rfl, rfl⟩, ⟨_, rfl, rfl, rfl, rfl⟩⟩

end RustyTokio.Fs

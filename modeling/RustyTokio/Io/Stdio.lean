import RustyTokio.Transition.Leftover

/-!
# `Stdin`, `Stdout` and `Stderr`

A handle to a standard stream holds one boxed future at most: it waits for the lock of the stream,
has a worker call `std::io`, and comes back with the result.
-/

namespace RustyTokio.Stdio

open Transition Transition.Leftover List Option Handle

/-! ## Writing -/

inductive WriteChoice where
  | ok
  /-- So many bytes were passed on before the error. -/
  | error (passed code : ℕ)
  deriving DecidableEq

def writeAll (stream buf : List ℕ) : WriteChoice → Option (List ℕ × Except ℕ ℕ)
  | .ok => some (stream ++ buf, .ok buf.length)
  | .error passed code =>
    if passed ≤ buf.length then some (stream ++ buf.take passed, .error code) else none

def pollWriteLocked (stream : List ℕ) : Handle (List ℕ) (List ℕ) WriteChoice (Except ℕ ℕ) where
  device := stream
  exec := writeAll
  -- whatever is in the handle is polled to its end and returned
  accepts _ _ := true
  fits _ _ := true
  -- the boxed future takes the lock first
  spawns := false
  poisons := false

def stdout (stream : List ℕ) : Handle (List ℕ) (List ℕ) WriteChoice (Except ℕ ℕ) :=
  pollWriteLocked stream

def stderr (stream : List ℕ) : Handle (List ℕ) (List ℕ) WriteChoice (Except ℕ ℕ) :=
  pollWriteLocked stream

/-- A write begins over a leftover that has written, or may write, another buffer. -/
def mixes (s : State (List ℕ) (List ℕ) (Except ℕ ℕ)) : Label (List ℕ) WriteChoice → Bool
  | .call buf =>
    match s.slot with
    | .busy _ _ (.done (.error _)) => false
    | .busy _ _ .crashed => false
    | .busy _ job _ => job != buf
    | _ => false
  | _ => false

/-- A count was returned for the buffer of its own write. -/
def Counted (_number : ℕ) (buf : List ℕ) (_owner : ℕ) (job : List ℕ) (answer : Except ℕ ℕ) : Prop :=
  ∀ n, answer = .ok n → job = buf

variable {stream : List ℕ} {s : State (List ℕ) (List ℕ) (Except ℕ ℕ)}
  {l : Label (List ℕ) WriteChoice} {remaining : ℕ}

theorem apt_of_not_mixes (h : mixes s l = false) : (pollWriteLocked stream).Apt Counted s l := by
  cases l with
  | call buf =>
    intro owner job progress hslot _ answer hg n hn
    simp only [mixes, hslot] at h
    cases progress with
    | done answer' =>
      obtain ⟨rfl, -⟩ := hg
      subst hn
      simpa using h
    | crashed => exact hg.elim
    | waiting | running => simpa using h
  | _ => trivial

theorem infix_of_mem_log (h : (pollWriteLocked stream).system.Reachable s) :
    ∀ e ∈ s.log, ∀ n, e.2.2 = .ok n → n = e.2.1.length ∧ e.2.1 <:+: s.device := by
  refine System.inv_of_reachable
    (I := fun s => ∀ e ∈ s.log, ∀ n, e.2.2 = .ok n → n = e.2.1.length ∧ e.2.1 <:+: s.device)
    (by simp [Handle.system]) ?_ h
  intro s l t hI hs
  cases steps_of_step hs with
  | @work owner job choice stream' answer hslot he =>
    -- the stream only grows
    have hgrow : s.device <+: stream' := by
      cases choice with
      | ok =>
        obtain ⟨rfl, -⟩ := pair_of_some he
        exact prefix_append _ _
      | error passed code =>
        obtain ⟨-, he⟩ := ite_none_right_eq_some.mp he
        obtain ⟨rfl, -⟩ := pair_of_some he
        exact prefix_append _ _
    intro e hmem n hn
    rcases mem_append.mp hmem with hmem | hmem
    · obtain ⟨hlen, hin⟩ := hI e hmem n hn
      exact ⟨hlen, hin.trans hgrow.isInfix⟩
    · rw [mem_singleton.mp hmem] at hn ⊢
      subst hn
      cases choice with
      | ok =>
        obtain ⟨rfl, hlen⟩ := pair_of_some he
        exact ⟨(Except.ok.inj hlen).symm, suffix_append _ _ |>.isInfix⟩
      | error passed code =>
        obtain ⟨-, he⟩ := ite_none_right_eq_some.mp he
        exact absurd (pair_of_some he).2 (by simp)
  | _ => exact hI

theorem written_of_reachableUnder
    (h : (pollWriteLocked stream).system.ReachableUnder (fun s l => mixes s l = false) s) :
    ∀ x ∈ s.results, ∀ owner job n, x.outcome = .answered owner job (.ok n) →
      n ≤ x.request.length ∧ s.requests[owner]? = some x.request ∧
        (owner, x.request, .ok n) ∈ s.log ∧ x.request.take n <:+: s.device := by
  intro x hx owner job n ho
  have hmeets : (pollWriteLocked stream).Meets Counted s :=
    meets_of_reachableUnder (fun _ _ _ _ _ => rfl) (h.mono fun _ _ => apt_of_not_mixes)
  have hsound := sound_of_reachable h.reachable
  obtain rfl := hmeets.results x hx owner job (.ok n) ho n rfl
  have hlog := (hsound.results x hx).2 (owner, x.request, .ok n) (by rw [ho]; rfl)
  obtain ⟨hlen, hin⟩ := infix_of_mem_log h.reachable _ hlog n rfl
  refine ⟨Nat.le_of_eq hlen, hsound.log _ hlog, hlog, ?_⟩
  rwa [hlen, take_length]

theorem exists_count_of_mixes (stream : List ℕ) {buf : List ℕ} (h : mixes s (.call buf)) :
    ∃ owner job progress n, s.slot = .busy owner job progress ∧ job ≠ buf ∧
      (pollWriteLocked stream).CanAnswer s.device job (.ok n) progress := by
  simp only [mixes] at h
  cases hslot : s.slot with
  | idle | poisoned => simp [hslot] at h
  | busy owner job progress =>
    rw [hslot] at h
    cases progress with
    | crashed => cases h
    | waiting | running => exact ⟨owner, job, _, _, rfl, bne_iff_ne.mp h, .ok, _, rfl⟩
    | done answer =>
      cases answer with
      | error code => cases h
      | ok n => exact ⟨owner, job, _, n, rfl, bne_iff_ne.mp h, rfl⟩

theorem leadsTo_mixed {t : State (List ℕ) (List ℕ) (Except ℕ ℕ)} (hl : mixes s l)
    (hs : (pollWriteLocked stream).step s l = some t) :
    (pollWriteLocked stream).system.LeadsTo Handle.Finishing
      (fun u => ∃ x ∈ u.results, ∃ owner job n,
        x.outcome = .answered owner job (.ok n) ∧ job ≠ x.request) t := by
  cases steps_of_step hs with
  | call buf hc =>
    obtain ⟨owner, job, progress, n, hslot, hne, hcan⟩ := exists_count_of_mixes stream hl
    exact (leadsTo_taken_of_call hslot rfl hcan).mono
      fun u hx => ⟨_, hx, owner, job, n, rfl, hne⟩
  | _ => cases hl

/-! ## Reading -/

inductive ReadChoice where
  | ok (chunk : List ℕ)
  | error (code : ℕ)
  deriving DecidableEq

def read (want : ℕ) : ReadChoice → Option (Unit × Except ℕ (List ℕ))
  | .ok chunk => if chunk.length ≤ want then some ((), .ok chunk) else none
  | .error code => some ((), .error code)

/-- The chunk fits into the buffer; otherwise `poll_read` panics. -/
def fits (remaining : ℕ) : Except ℕ (List ℕ) → Bool
  | .ok chunk => chunk.length ≤ remaining
  | .error _ => true

def stdin : Handle Unit ℕ ReadChoice (Except ℕ (List ℕ)) where
  device := ()
  exec _ := read
  accepts _ _ := true
  fits := fits
  spawns := false
  poisons := false

/-- A read begins with less room than the leftover needs, or may need. -/
def crowds (s : State Unit ℕ (Except ℕ (List ℕ))) : Label ℕ ReadChoice → Bool
  | .call remaining =>
    match s.slot with
    | .busy _ _ (.done answer) => !fits remaining answer
    | .busy _ _ .crashed => false
    | .busy _ want _ => decide (remaining < want)
    | _ => false
  | _ => false

theorem admits_of_le {want : ℕ} (h : want ≤ remaining) : stdin.Admits () remaining want := by
  intro choice device answer he
  cases choice with
  | ok chunk =>
    obtain ⟨hlen, he⟩ := ite_none_right_eq_some.mp he
    obtain ⟨-, rfl⟩ := pair_of_some he
    exact decide_eq_true (Nat.le_trans hlen h)
  | error code =>
    obtain ⟨-, rfl⟩ := pair_of_some he
    rfl

theorem roomy_of_not_crowds {s : State Unit ℕ (Except ℕ (List ℕ))} {l : Label ℕ ReadChoice}
    (h : crowds s l = false) : stdin.Roomy s l := by
  cases l with
  | call remaining =>
    intro owner want progress hslot _
    simp only [crowds, hslot] at h
    cases progress with
    | done answer =>
      rw [Bool.not_eq_false'] at h
      exact h
    | crashed => trivial
    | waiting | running => exact admits_of_le (by simpa using h)
  | _ => trivial

theorem snug_of_reachableUnder {s : State Unit ℕ (Except ℕ (List ℕ))}
    (h : stdin.system.ReachableUnder (fun s l => crowds s l = false) s) : stdin.Snug s :=
  Handle.snug_of_reachableUnder (fun _ _ => admits_of_le (Nat.le_refl _))
    (h.mono fun _ _ => roomy_of_not_crowds)

theorem exists_chunk_of_crowds {s : State Unit ℕ (Except ℕ (List ℕ))}
    (h : crowds s (.call remaining)) :
    ∃ owner want progress answer, s.slot = .busy owner want progress ∧
      stdin.CanAnswer s.device want answer progress ∧ ¬ fits remaining answer := by
  -- a chunk may be as long as it was wanted
  have full : ∀ want, stdin.exec s.device want (.ok (List.replicate want 0)) =
      some ((), .ok (List.replicate want 0)) := fun want => if_pos (by simp)
  have long : ∀ want, remaining < want →
      ¬ fits remaining (.ok (List.replicate want 0)) := fun want hlt => by
    simpa [fits] using hlt
  simp only [crowds] at h
  cases hslot : s.slot with
  | idle | poisoned => simp [hslot] at h
  | busy owner want progress =>
    rw [hslot] at h
    cases progress with
    | crashed => cases h
    | waiting | running =>
      exact ⟨owner, want, _, _, rfl, ⟨_, _, full want⟩, long want (of_decide_eq_true h)⟩
    | done answer => exact ⟨owner, want, _, answer, rfl, rfl, by simpa using h⟩

theorem leadsTo_crowded {s t : State Unit ℕ (Except ℕ (List ℕ))} {l : Label ℕ ReadChoice}
    (hl : crowds s l) (hs : stdin.step s l = some t) : stdin.system.LeadsTo Handle.Finishing
      (fun u => ∃ x ∈ u.results, ∃ owner want answer, x.outcome = .panicked owner want answer)
      t := by
  cases steps_of_step hs with
  | call remaining hc =>
    obtain ⟨owner, want, progress, answer, hslot, hcan, hfits⟩ := exists_chunk_of_crowds hl
    exact (leadsTo_taken_of_call hslot rfl hcan).mono
      fun u hx => ⟨_, hx, owner, want, answer, if_neg hfits⟩
  | _ => cases hl

/-! ## Both contracts -/

/-- **The contracts of the standard streams hold as long as no call begins over a leftover it
cannot stand for.**  Then `Ok(n)` of a write means that the first `n` bytes of its buffer were
passed on by a job of its own, and no read panics or gets more than it has room for.  A call that
begins otherwise can break its contract. -/
theorem contract_unless_leftover (stream : List ℕ)
    (H : Handle (List ℕ) (List ℕ) WriteChoice (Except ℕ ℕ))
    (hH : H = stdout stream ∨ H = stderr stream) (s : State (List ℕ) (List ℕ) (Except ℕ ℕ))
    (r : State Unit ℕ (Except ℕ (List ℕ))) :
    (H.system.ReachableUnder (fun s l => mixes s l = false) s →
      ∀ x ∈ s.results, ∀ owner job n, x.outcome = .answered owner job (.ok n) →
        n ≤ x.request.length ∧ s.requests[owner]? = some x.request ∧
          (owner, x.request, .ok n) ∈ s.log ∧ x.request.take n <:+: s.device) ∧
    (∀ l t, mixes s l = true → H.step s l = some t → H.system.LeadsTo Handle.Finishing
        (fun u => ∃ x ∈ u.results, ∃ owner job n,
          x.outcome = .answered owner job (.ok n) ∧ job ≠ x.request) t) ∧
    (stdin.system.ReachableUnder (fun s l => crowds s l = false) r →
      (∀ x ∈ r.results, ∀ owner want answer, x.outcome ≠ .panicked owner want answer) ∧
      ∀ x ∈ r.results, ∀ owner want chunk, x.outcome = .answered owner want (.ok chunk) →
        chunk.length ≤ x.request) ∧ ∀ l t, crowds r l = true → stdin.step r l = some t →
      stdin.system.LeadsTo Handle.Finishing (fun u => ∃ x ∈ u.results, ∃ owner want answer,
          x.outcome = .panicked owner want answer) t := by
  obtain rfl : H = pollWriteLocked stream := hH.elim (fun h => h) fun h => h
  refine ⟨written_of_reachableUnder, fun l t => leadsTo_mixed, fun h => ?_,
    fun l t => leadsTo_crowded⟩
  have hsnug := snug_of_reachableUnder h
  refine ⟨hsnug.results, fun x hx owner want chunk ho => ?_⟩
  exact of_decide_eq_true (hsnug.answered x hx owner want (.ok chunk) ho)

theorem contract_after_retry :
    (∃ s, (stdout []).system.ReachableUnder (fun s l => mixes s l = false) s ∧
      s.results = [⟨1, [7, 8], .answered 0 [7, 8] (.ok 2)⟩] ∧ [7, 8] <:+: s.device) ∧
    (∃ s t, (stderr []).step s (.call [9]) = some t ∧ (stderr []).system.LeadsTo Handle.Finishing
        (fun u => ∃ x ∈ u.results, ∃ owner job n,
          x.outcome = .answered owner job (.ok n) ∧ job ≠ x.request) t) ∧
    (∃ r, stdin.system.ReachableUnder (fun s l => crowds s l = false) r ∧
      r.results = [⟨1, 3, .answered 0 2 (.ok [5, 6])⟩] ∧ [5, 6].length ≤ 3) ∧
    ∃ r t, stdin.step r (.call 1) = some t ∧ stdin.system.LeadsTo Handle.Finishing
        (fun u => ∃ x ∈ u.results, ∃ owner want answer,
          x.outcome = .panicked owner want answer) t := by
  refine ⟨?_, ?_, ?_, ?_⟩
  · have hr : (stdout []).system.ReachableUnder (fun s l => mixes s l = false) _ :=
      ⟨[.call [7, 8], .start, .launch, .suspend, .drop, .work .ok, .call [7, 8], .take], rfl,
        by decide⟩
    have h := (contract_unless_leftover [] (stdout []) (.inl rfl) _ stdin.system.init).1 hr
      ⟨1, [7, 8], .answered 0 [7, 8] (.ok 2)⟩ (.head _) _ _ _ rfl
    exact ⟨_, hr, rfl, h.2.2.2⟩
  · have hs : ∃ s t, mixes s (.call [9]) ∧ (stderr []).step s (.call [9]) = some t :=
      ⟨⟨[], .busy 0 [7, 8] .waiting, none, [[7, 8]], [], []⟩, _, rfl, rfl⟩
    obtain ⟨s, t, hl, hst⟩ := hs
    exact ⟨s, t, hst, (contract_unless_leftover [] (stderr []) (.inr rfl) s
      stdin.system.init).2.1 _ t hl hst⟩
  · have hr : stdin.system.ReachableUnder (fun s l => crowds s l = false) _ :=
      ⟨[.call 2, .start, .launch, .suspend, .drop, .call 3, .work (.ok [5, 6]), .take], rfl,
        by decide⟩
    have h := ((contract_unless_leftover [] (stdout []) (.inl rfl) (stdout []).system.init
      _).2.2.1 hr).2 ⟨1, 3, .answered 0 2 (.ok [5, 6])⟩ (.head _) _ _ _ rfl
    exact ⟨_, hr, rfl, h⟩
  · have hs : ∃ r t, crowds r (.call 1) ∧ stdin.step r (.call 1) = some t :=
      ⟨⟨(), .busy 0 2 .waiting, none, [2], [], []⟩, _, rfl, rfl⟩
    obtain ⟨r, t, hl, hst⟩ := hs
    exact ⟨r, t, hst, (contract_unless_leftover [] (stdout []) (.inl rfl)
      (stdout []).system.init r).2.2.2 _ t hl hst⟩

/-- A write of five bytes is dropped, and a write of two returns five; its own bytes are never
passed on.  A read of four bytes is dropped, and one with room for one panics. -/
theorem exists_contract_broken :
    (∃ s, (stdout []).system.run (stdout []).system.init [.call [1, 2, 3, 4, 5], .start, .launch,
        .suspend, .drop, .work .ok, .call [8, 9], .take] = some s ∧
      s.results = [⟨1, [8, 9], .answered 0 [1, 2, 3, 4, 5] (.ok 5)⟩] ∧
      s.device = [1, 2, 3, 4, 5] ∧ s.slot = .idle) ∧
    ∃ r, stdin.system.run stdin.system.init [.call 4, .start, .launch, .suspend, .drop,
        .work (.ok [1, 2, 3, 4]), .call 1, .take] = some r ∧
      r.results = [⟨1, 1, .panicked 0 4 (.ok [1, 2, 3, 4])⟩] :=
  ⟨⟨_, rfl, rfl, rfl, rfl⟩, ⟨_, rfl, rfl⟩⟩

end RustyTokio.Stdio

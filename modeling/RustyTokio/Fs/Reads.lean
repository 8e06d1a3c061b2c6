import RustyTokio.Fs.File

/-!
# Reads of a `File` that may be dropped

A `read` that is dropped has taken its bytes from the file, and they wait in the handle for the next
`read`, which copies the chunk into its own buffer.  When the chunk was read for a larger one,
`poll_read` panics and the bytes are lost.
-/

namespace RustyTokio.Fs

open Transition Transition.Leftover List Option Handle

def isRead : Label Request Choice → Bool
  | .call request => request.kind == .read
  | _ => true

/-- How long the chunk of a job in flight is, or may become. -/
def needed (f : OsFile) (job : Request) : Progress Op → ℕ
  | .done (.read (.ok chunk)) => chunk.length
  | .done _ => 0
  | .crashed => 0
  | _ =>
    match job with
    | .read remaining maxBufSize => f.readable (min remaining maxBufSize)
    | _ => 0

/-- A `read` begins with less room than the leftover needs. -/
def crowds (s : State OsFile Request Op) : Label Request Choice → Bool
  | .call (.read remaining _) =>
    match s.slot with
    | .busy _ job progress => decide (remaining < needed s.device job progress)
    | _ => false
  | _ => false

def bytesOf (x : Result Request Op) : List ℕ :=
  match x.outcome with
  | .answered _ _ (.read (.ok chunk)) => chunk
  | _ => []

def delivered (s : State OsFile Request Op) : List ℕ := s.results.flatMap bytesOf

def inHand : Slot Request Op → List ℕ
  | .busy _ _ (.done (.read (.ok chunk))) => chunk
  | _ => []

/-! ## One `read` -/

variable {f : OsFile} {s : State OsFile Request Op} {want n : ℕ} {chunk : List ℕ} {g : OsFile}
  {job : Request} {l : Label Request Choice}

theorem length_of_read {f' : OsFile}
    (h : f.read want n = some (f', chunk)) : chunk.length = n ∧ n ≤ f.readable want := by
  obtain ⟨⟨hn, -⟩, heq⟩ := ite_none_right_eq_some.mp h
  obtain ⟨-, rfl⟩ := pair_of_some heq
  refine ⟨?_, hn⟩
  rw [length_take, length_drop]
  exact min_eq_left (hn.trans (min_le_right _ _))

theorem exists_read (f : OsFile) (want : ℕ) :
    ∃ f' chunk, f.read want (f.readable want) = some (f', chunk) :=
  ⟨_, _, if_pos ⟨le_rfl, fun h => h⟩⟩

theorem admits_of_needed {request : Request}
    (h : ∀ remaining maxBufSize, request = .read remaining maxBufSize →
      needed g job .running ≤ remaining) : (file f).Admits g request job := by
  intro choice g' op hp
  cases request with
  | read remaining maxBufSize =>
    cases job with
    | read remaining' maxBufSize' =>
      cases choice with
      | ok n =>
        obtain ⟨⟨g'', chunk⟩, hread, heq⟩ := map_eq_some_iff.mp hp
        cases heq
        obtain ⟨hlen, hle⟩ := length_of_read hread
        exact decide_eq_true (hlen.trans_le (hle.trans (h _ _ rfl)))
      | error code =>
        obtain ⟨-, rfl⟩ := pair_of_some hp
        rfl
    | _ =>
      -- the `Op` of another operation is no chunk
      have hkind := kind_of_perform hp
      cases op with
      | read result => simp [Op.kind, Request.kind] at hkind
      | _ => rfl
  | _ => rfl

theorem admits_self (f g : OsFile) (request : Request) : (file f).Admits g request request := by
  refine admits_of_needed fun remaining maxBufSize heq => ?_
  subst heq
  exact (min_le_left _ _).trans (min_le_left _ _)

theorem roomy_of_not_crowds (h : crowds s l = false) : (file f).Roomy s l := by
  cases l with
  | call request =>
    intro owner job progress hslot ha
    -- there is room for whatever the job needs
    have hroom : ∀ remaining maxBufSize, request = .read remaining maxBufSize →
        needed s.device job progress ≤ remaining := by
      rintro remaining maxBufSize rfl
      simpa [crowds, hslot] using h
    cases progress with
    | done op =>
      cases request with
      | read remaining maxBufSize =>
        cases op with
        | read result =>
          cases result with
          | ok chunk => exact decide_eq_true (hroom _ _ rfl)
          | error code => rfl
        | _ => rfl
      | _ => rfl
    | crashed => trivial
    | waiting | running => exact admits_of_needed hroom
  | _ => trivial

/-! ## Reads one after the other -/

/-- What was delivered and what is in hand: the file from `f.cursor` to the cursor. -/
structure Gapless (f : OsFile) (s : State OsFile Request Op) : Prop where
  reads : ∀ r ∈ s.requests, r.kind = .read
  content : s.device.content = f.content
  cursor : f.cursor ≤ s.device.cursor
  bytes : delivered s ++ inHand s.slot =
    (f.content.drop f.cursor).take (s.device.cursor - f.cursor)

theorem take_append_read {g' : OsFile}
    (hcontent : g.content = f.content) (hcursor : f.cursor ≤ g.cursor)
    (h : g.read want n = some (g', chunk)) : g'.content = f.content ∧ f.cursor ≤ g'.cursor ∧
      (f.content.drop f.cursor).take (g.cursor - f.cursor) ++ chunk =
        (f.content.drop f.cursor).take (g'.cursor - f.cursor) := by
  obtain ⟨-, heq⟩ := ite_none_right_eq_some.mp h
  cases heq
  refine ⟨hcontent, hcursor.trans (Nat.le_add_right _ _), ?_⟩
  have hsum : g.cursor + n - f.cursor = g.cursor - f.cursor + n := by omega
  have hdrop : f.cursor + (g.cursor - f.cursor) = g.cursor := by omega
  rw [hsum, take_add, drop_drop, hdrop, hcontent]

theorem gapless_of_step {t : State OsFile Request Op}
    (h : Gapless f s) (hsound : Sound s) (hsnug : (file f).Snug s) (hl : isRead l)
    (hs : (file f).Steps s l t) : Gapless f t := by
  -- a job in flight is a `read`
  have hjob : ∀ {owner job progress}, s.slot = .busy owner job progress → job.kind = .read :=
    fun hslot => h.reads _ (mem_of_getElem? (hsound.slot _ _ _ hslot).1)
  have hbytes := h.bytes
  cases hs with
  | call request hc =>
    refine ⟨fun r hr => ?_, h.content, h.cursor, h.bytes⟩
    rcases mem_append.mp hr with hr | hr
    · exact h.reads r hr
    · rw [mem_singleton.mp hr]
      exact beq_iff_eq.mp hl
  | start hslot hc | launch hslot | crash hslot =>
    rw [hslot] at hbytes
    exact ⟨h.reads, h.content, h.cursor, hbytes⟩
  | @work owner job choice g op hslot he =>
    rw [hslot] at hbytes
    have hnone : delivered s = (f.content.drop f.cursor).take (s.device.cursor - f.cursor) :=
      (append_nil _).symm.trans hbytes
    cases job with
    | read remaining maxBufSize =>
      cases choice with
      | ok n =>
        obtain ⟨⟨g', chunk⟩, hread, heq⟩ := map_eq_some_iff.mp he
        cases heq
        obtain ⟨hcontent, hcursor, happend⟩ := take_append_read h.content h.cursor hread
        exact ⟨h.reads, hcontent, hcursor, (congrArg (· ++ chunk) hnone).trans happend⟩
      | error code =>
        cases he
        exact ⟨h.reads, h.content, h.cursor, hbytes⟩
    | _ => exact absurd (hjob hslot) (by simp [Request.kind])
  | @taken owner number job request op hslot hc ha =>
    refine ⟨h.reads, h.content, h.cursor, ?_⟩
    have hfits : (file f).fits request op := hsnug.call _ hc _ _ _ hslot ha
    have hgot : bytesOf ⟨number, request, (file f).outcome request owner job op⟩ =
        inHand s.slot := by
      rw [Handle.outcome, if_pos hfits, hslot]
      cases op with
      | read result => cases result <;> rfl
      | _ => rfl
    rw [← hbytes, ← hgot]
    simp [delivered, inHand]
  | drained hslot hc ha =>
    -- a `read` takes the chunk of a `read`
    have hreq := h.reads _ (mem_of_getElem? (hsound.call _ hc).1)
    refine absurd ?_ ha
    simp only [file, hreq, hjob hslot]
    rfl
  | failed hslot hslot' hc =>
    refine ⟨h.reads, h.content, h.cursor, ?_⟩
    have hnone : inHand s.slot = [] := by
      rcases hslot with hslot | ⟨owner, job, hslot⟩ <;> rw [hslot] <;> rfl
    rw [← hbytes, hnone]
    rcases hslot' with rfl | rfl <;> simp [delivered, inHand, bytesOf]
  | suspend hc | resume hc | drop hc => exact ⟨h.reads, h.content, h.cursor, h.bytes⟩

def calm (s : State OsFile Request Op) (l : Label Request Choice) : Bool :=
  isRead l && !crowds s l

theorem gapless_of_reachableUnder (h : (file f).system.ReachableUnder (fun s l => calm s l) s) :
    (file f).Snug s ∧ Gapless f s := by
  refine h.inv (I := fun s => (file f).Snug s ∧ Gapless f s) ?_ ?_
  · refine ⟨⟨by simp [Handle.system], by simp [Handle.system], by simp [Handle.system]⟩, ?_⟩
    exact ⟨by simp [Handle.system], rfl, le_rfl, by simp [Handle.system, delivered, inHand, file]⟩
  · rintro s l t hr ⟨hsnug, hgap⟩ hl hs
    obtain ⟨hread, hcalm⟩ := Bool.and_eq_true_iff.mp hl
    have hroomy : (file f).Roomy s l := roomy_of_not_crowds (by simpa using hcalm)
    have hsteps := steps_of_step hs
    exact ⟨hsnug.step (admits_self f) hroomy hsteps,
      gapless_of_step hgap (sound_of_reachable hr) hsnug hread hsteps⟩

/-! ## A `read` that is crowded -/

theorem exists_chunk_of_needed
    (hr : (file f).system.Reachable s) {owner : ℕ} {progress : Progress Op}
    (hslot : s.slot = .busy owner job progress) (hpos : 0 < needed s.device job progress) :
    job.kind = .read ∧ ∃ chunk, (file f).CanAnswer s.device job (.read (.ok chunk)) progress ∧
      chunk.length = needed s.device job progress := by
  have fresh : 0 < needed s.device job .running → job.kind = .read ∧
      ∃ chunk, (file f).CanAnswer s.device job (.read (.ok chunk)) .running ∧
        chunk.length = needed s.device job .running := by
    intro hpos
    cases job with
    | read remaining maxBufSize =>
      obtain ⟨g, chunk, hread⟩ := exists_read s.device (min remaining maxBufSize)
      have hp : perform s.device (.read remaining maxBufSize)
          (.ok (s.device.readable (min remaining maxBufSize))) = some (g, .read (.ok chunk)) := by
        rw [perform, hread, map_some]
      exact ⟨rfl, chunk, ⟨.ok (s.device.readable (min remaining maxBufSize)), g, hp⟩,
        (length_of_read hread).1⟩
    | _ => simp [needed] at hpos
  cases progress with
  | done op =>
    cases op with
    | read result =>
      cases result with
      | ok chunk =>
        have hlog := ((sound_of_reachable hr).slot _ _ _ hslot).2 _ rfl
        obtain ⟨before, choice, after, hp⟩ := exec_of_mem_log hr _ hlog
        exact ⟨(kind_of_perform hp).symm, chunk, rfl, rfl⟩
      | error code => simp [needed] at hpos
    | _ => simp [needed] at hpos
  | crashed => simp [needed] at hpos
  | waiting | running => exact fresh hpos

/-- **Reads are safe and without gaps, unless one is crowded.**  Let nothing but reads be made on a
file, dropped at any point, and each find room for the chunk that a dropped one may leave.  Then no
read panics or gets too much, and they get the bytes of the file in order.  A read with less room
can panic. -/
theorem reads_gapless_unless_crowds (f : OsFile) (s : State OsFile Request Op) :
    ((file f).system.ReachableUnder (fun s l => calm s l = true) s →
      (∀ x ∈ s.results, ∀ owner job op, x.outcome ≠ .panicked owner job op) ∧
      (∀ x ∈ s.results, ∀ remaining maxBufSize, x.request = .read remaining maxBufSize →
        (bytesOf x).length ≤ remaining) ∧ delivered s <+: f.content.drop f.cursor) ∧
    ∀ l t, (file f).system.Reachable s → crowds s l = true → (file f).step s l = some t →
      (file f).system.LeadsTo Handle.Finishing
        (fun u => ∃ x ∈ u.results, ∃ owner job op, x.outcome = .panicked owner job op) t := by
  constructor
  · intro h
    obtain ⟨hsnug, hgap⟩ := gapless_of_reachableUnder h
    refine ⟨hsnug.results, fun x hx remaining maxBufSize hreq => ?_, ?_⟩
    · rw [bytesOf]
      split
      next owner job chunk ho =>
        have hfits : fits x.request (.read (.ok chunk)) := hsnug.answered x hx _ _ _ ho
        rw [hreq] at hfits
        exact of_decide_eq_true hfits
      · exact Nat.zero_le _
    · have hpre := prefix_append (delivered s) (inHand s.slot)
      rw [hgap.bytes] at hpre
      exact hpre.trans <| take_prefix _ _
  · intro l t hr hl hs
    cases steps_of_step hs with
    | call request hc =>
      cases request with
      | read remaining maxBufSize =>
        simp only [crowds] at hl
        split at hl
        next owner job progress hslot =>
          have hlt := of_decide_eq_true hl
          obtain ⟨hkind, chunk, hcan, hlen⟩ :=
            exists_chunk_of_needed hr hslot (Nat.zero_lt_of_lt hlt)
          have ha : (file f).accepts (.read remaining maxBufSize) job := by
            simp only [file, hkind]
            rfl
          refine (leadsTo_taken_of_call hslot ha hcan).mono
            fun u hx => ⟨_, hx, owner, job, .read (.ok chunk), if_neg ?_⟩
          simp only [file, fits, decide_eq_true_eq]
          omega
        · cases hl
      | _ => cases hl
    | _ => cases hl

theorem reads_gapless_after_drop :
    (∃ s, (file five).system.ReachableUnder (fun s l => calm s l = true) s ∧
      delivered s = [1, 2, 3, 4, 5] ∧ delivered s <+: [1, 2, 3, 4, 5]) ∧
    ∃ s t, (file five).step s (.call (.read 1 9)) = some t ∧
      (file five).system.LeadsTo Handle.Finishing
        (fun u => ∃ x ∈ u.results, ∃ owner job op, x.outcome = .panicked owner job op) t := by
  constructor
  · have hr : (file five).system.ReachableUnder (fun s l => calm s l) _ :=
      ⟨[.call (.read 2 9), .start, .suspend, .drop, .call (.read 3 9), .work (.ok 2), .take,
        .call (.read 3 9), .start, .work (.ok 3), .take], rfl, by decide⟩
    exact ⟨_, hr, rfl, ((reads_gapless_unless_crowds five _).1 hr).2.2⟩
  · have hs : ∃ s t, (file five).system.Reachable s ∧ crowds s (.call (.read 1 9)) ∧
        (file five).step s (.call (.read 1 9)) = some t :=
      ⟨_, _, ⟨[.call (.read 2 9), .start, .suspend, .drop], rfl⟩, rfl, rfl⟩
    obtain ⟨s, t, hr, hl, hst⟩ := hs
    exact ⟨s, t, hst, (reads_gapless_unless_crowds five s).2 _ t hr hl hst⟩

/-- A `read` with room for four bytes is dropped, and one with room for one panics over its
chunk.  The next starts after the chunk. -/
theorem exists_read_panicked :
    ∃ s, (file five).system.run (file five).system.init [.call (.read 4 9), .start, .suspend, .drop,
        .work (.ok 4), .call (.read 1 9), .take, .call (.read 9 9), .start, .work (.ok 1), .take] =
        some s ∧ s.results = [⟨1, .read 1 9, .panicked 0 (.read 4 9) (.read (.ok [1, 2, 3, 4]))⟩,
        ⟨2, .read 9 9, .answered 2 (.read 9 9) (.read (.ok [5]))⟩] ∧ delivered s = [5] :=
  ⟨_, rfl, rfl, rfl⟩

end RustyTokio.Fs

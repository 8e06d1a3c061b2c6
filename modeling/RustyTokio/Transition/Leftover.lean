import RustyTokio.Transition.Futures
import RustyTokio.Transition.System

/-!
# A handle with one job in flight

A handle through which calls are made one after the other.  A call hands a job to a worker and waits
for the answer; a call that is given up leaves its job behind in the handle, and the next call has
to wait for that job first.
-/

namespace RustyTokio.Transition
namespace Leftover

open List Option Table

inductive Progress (α : Type*) where
  | waiting
  | running
  | done (answer : α)
  | crashed
  deriving DecidableEq

inductive Slot (ρ α : Type*) where
  | idle
  /-- A job, and the number of the call that started it. -/
  | busy (owner : ℕ) (job : ρ) (progress : Progress α)
  | poisoned
  deriving DecidableEq

structure Call (ρ : Type*) where
  number : ℕ
  request : ρ
  /-- It is being polled, or its last poll was pending. -/
  polling : Bool
  deriving DecidableEq

inductive Outcome (ρ α : Type*) where
  | answered (owner : ℕ) (job : ρ) (answer : α)
  | panicked (owner : ℕ) (job : ρ) (answer : α)
  | failed
  deriving DecidableEq

def Outcome.source {ρ α : Type*} : Outcome ρ α → Option (ℕ × ρ × α)
  | .answered owner job answer => some (owner, job, answer)
  | .panicked owner job answer => some (owner, job, answer)
  | .failed => none

structure Result (ρ α : Type*) where
  call : ℕ
  request : ρ
  outcome : Outcome ρ α
  deriving DecidableEq

structure State (σ ρ α : Type*) where
  device : σ
  slot : Slot ρ α
  call : Option (Call ρ)
  requests : List ρ
  /-- The jobs that were carried out: for which call, what, and the answer. -/
  log : List (ℕ × ρ × α)
  results : List (Result ρ α)
  deriving DecidableEq

inductive Label (ρ χ : Type*) where
  | call (request : ρ)
  | start
  | launch
  | work (choice : χ)
  | crash
  | take
  | suspend
  | resume
  | drop
  deriving DecidableEq

structure Handle (σ ρ χ α : Type*) where
  device : σ
  /-- What a job does to the device, and its answer; `choice` is what the device leaves open. -/
  exec : σ → ρ → χ → Option (σ × α)
  /-- A call with this request takes the answer of a job with that. -/
  accepts : ρ → ρ → Bool
  fits : ρ → α → Bool
  /-- A job is handed to a worker when it is started. -/
  spawns : Bool
  /-- A crash takes the device along. -/
  poisons : Bool

variable {σ ρ χ α : Type*}

namespace Handle

variable (H : Handle σ ρ χ α)

def started : Progress α := if H.spawns then .running else .waiting

def broken : Slot ρ α := if H.poisons then .poisoned else .idle

def outcome (request : ρ) (owner : ℕ) (job : ρ) (answer : α) : Outcome ρ α :=
  if H.fits request answer then .answered owner job answer else .panicked owner job answer

def step (s : State σ ρ α) : Label ρ χ → Option (State σ ρ α)
  | .call request =>
    match s.call with
    | none =>
      some
        { s with
          call := some ⟨s.requests.length, request, true⟩
          requests := s.requests ++ [request] }
    | some _ => none
  | .start =>
    match s.slot, s.call with
    | .idle, some ⟨number, request, true⟩ =>
      some { s with slot := .busy number request H.started }
    | _, _ => none
  | .launch =>
    match s.slot, s.call with
    | .busy owner job .waiting, some ⟨_, _, true⟩ =>
      some { s with slot := .busy owner job .running }
    | _, _ => none
  | .work choice =>
    match s.slot with
    | .busy owner job .running =>
      (H.exec s.device job choice).map fun result =>
        { s with
          device := result.1
          slot := .busy owner job (.done result.2)
          log := s.log ++ [(owner, job, result.2)] }
    | _ => none
  | .crash =>
    match s.slot with
    | .busy owner job .running => some { s with slot := .busy owner job .crashed }
    | _ => none
  | .take =>
    match s.slot, s.call with
    | .busy owner job (.done answer), some ⟨number, request, true⟩ =>
      if H.accepts request job then
        some
          { s with
            slot := .idle
            call := none
            results := s.results ++ [⟨number, request, H.outcome request owner job answer⟩] }
      else some { s with slot := .idle }
    | .busy _ _ .crashed, some ⟨number, request, true⟩ =>
      some
        { s with
          slot := H.broken
          call := none
          results := s.results ++ [⟨number, request, .failed⟩] }
    | .poisoned, some ⟨number, request, true⟩ =>
      some { s with call := none, results := s.results ++ [⟨number, request, .failed⟩] }
    | _, _ => none
  | .suspend =>
    match s.slot, s.call with
    | .busy _ _ .waiting, some ⟨number, request, true⟩ =>
      some { s with call := some ⟨number, request, false⟩ }
    | .busy _ _ .running, some ⟨number, request, true⟩ =>
      some { s with call := some ⟨number, request, false⟩ }
    | _, _ => none
  | .resume =>
    match s.call with
    | some ⟨number, request, false⟩ => some { s with call := some ⟨number, request, true⟩ }
    | _ => none
  | .drop =>
    match s.call with
    | some ⟨_, _, false⟩ => some { s with call := none }
    | _ => none

def system : System (State σ ρ α) (Label ρ χ) where
  init := ⟨H.device, .idle, none, [], [], []⟩
  step := H.step

/-! ## What a step does -/

inductive Steps (s : State σ ρ α) : Label ρ χ → State σ ρ α → Prop where
  | call (request : ρ) (hc : s.call = none) :
      Steps s (.call request)
        { s with
          call := some ⟨s.requests.length, request, true⟩
          requests := s.requests ++ [request] }
  | start {number request} (hs : s.slot = .idle)
      (hc : s.call = some ⟨number, request, true⟩) :
      Steps s .start { s with slot := .busy number request H.started }
  | launch {owner job} (hs : s.slot = .busy owner job .waiting) :
      Steps s .launch { s with slot := .busy owner job .running }
  | work {owner job choice device answer}
      (hs : s.slot = .busy owner job .running)
      (he : H.exec s.device job choice = some (device, answer)) :
      Steps s (.work choice)
        { s with
          device := device
          slot := .busy owner job (.done answer)
          log := s.log ++ [(owner, job, answer)] }
  | crash {owner job} (hs : s.slot = .busy owner job .running) :
      Steps s .crash { s with slot := .busy owner job .crashed }
  | taken {owner number job request answer}
      (hs : s.slot = .busy owner job (.done answer))
      (hc : s.call = some ⟨number, request, true⟩) (ha : H.accepts request job) :
      Steps s .take
        { s with
          slot := .idle
          call := none
          results := s.results ++ [⟨number, request, H.outcome request owner job answer⟩] }
  | drained {owner number job request answer}
      (hs : s.slot = .busy owner job (.done answer))
      (hc : s.call = some ⟨number, request, true⟩) (ha : ¬ H.accepts request job = true) :
      Steps s .take { s with slot := .idle }
  | failed {number request slot}
      (hs : s.slot = .poisoned ∨ ∃ owner job, s.slot = .busy owner job .crashed)
      (hslot : slot = .idle ∨ slot = .poisoned) (hc : s.call = some ⟨number, request, true⟩) :
      Steps s .take
        { s with
          slot := slot
          call := none
          results := s.results ++ [⟨number, request, .failed⟩] }
  | suspend {number request} (hc : s.call = some ⟨number, request, true⟩) :
      Steps s .suspend { s with call := some ⟨number, request, false⟩ }
  | resume {number request} (hc : s.call = some ⟨number, request, false⟩) :
      Steps s .resume { s with call := some ⟨number, request, true⟩ }
  | drop {number request} (hc : s.call = some ⟨number, request, false⟩) :
      Steps s .drop { s with call := none }

variable {H}

theorem steps_of_step {s t : State σ ρ α} {l : Label ρ χ} (h : H.step s l = some t) :
    H.Steps s l t := by
  cases l with
  | call request =>
    simp only [step] at h
    split at h
    next hc => exact some.inj h ▸ .call request hc
    · cases h
  | start =>
    simp only [step] at h
    split at h
    next hs hc => exact some.inj h ▸ .start hs hc
    · cases h
  | launch =>
    simp only [step] at h
    split at h
    next hs hc => exact some.inj h ▸ .launch hs
    · cases h
  | work choice =>
    simp only [step] at h
    split at h
    next hs =>
      obtain ⟨⟨device, answer⟩, he, rfl⟩ := map_eq_some_iff.mp h
      exact .work hs he
    · cases h
  | crash =>
    simp only [step] at h
    split at h
    next hs => exact some.inj h ▸ .crash hs
    · cases h
  | take =>
    simp only [step] at h
    split at h
    next hs hc =>
      split at h <;> rename_i ha
      · exact some.inj h ▸ .taken hs hc ha
      · exact some.inj h ▸ .drained hs hc ha
    next hs hc =>
      refine some.inj h ▸ .failed (.inr ⟨_, _, hs⟩) ?_ hc
      rw [broken]
      split
      · exact .inr rfl
      · exact .inl rfl
    next hs hc =>
      cases h
      exact .failed (.inl hs) (.inr hs) hc
    · cases h
  | suspend =>
    simp only [step] at h
    split at h
    next hs hc => exact some.inj h ▸ .suspend hc
    next hs hc => exact some.inj h ▸ .suspend hc
    · cases h
  | resume =>
    simp only [step] at h
    split at h
    next hc => exact some.inj h ▸ .resume hc
    · cases h
  | drop =>
    simp only [step] at h
    split at h
    next hc => exact some.inj h ▸ .drop hc
    · cases h

theorem of_outcome_eq_answered {request job job' : ρ} {owner owner' : ℕ} {answer answer' : α}
    (h : H.outcome request owner job answer = .answered owner' job' answer') :
    owner = owner' ∧ job = job' ∧ answer = answer' ∧ H.fits request answer := by
  rw [outcome] at h
  split at h
  next hfits =>
    cases h
    exact ⟨rfl, rfl, rfl, hfits⟩
  · cases h

theorem source_outcome (request : ρ) (owner : ℕ) (job : ρ) (answer : α) :
    (H.outcome request owner job answer).source = some (owner, job, answer) := by
  rw [outcome]
  split <;> rfl

end Handle

/-! ## Where answers come from -/

/-- Who asked for what, and that every answer is in the log. -/
structure Sound (s : State σ ρ α) : Prop where
  call : ∀ c, s.call = some c → s.requests[c.number]? = some c.request ∧
    c.number + 1 = s.requests.length
  slot : ∀ owner job progress, s.slot = .busy owner job progress →
    s.requests[owner]? = some job ∧ ∀ answer, progress = .done answer → (owner, job, answer) ∈ s.log
  log : ∀ e ∈ s.log, s.requests[e.1]? = some e.2.1
  results : ∀ x ∈ s.results, s.requests[x.call]? = some x.request ∧
    ∀ e, x.outcome.source = some e → e ∈ s.log

namespace Sound

variable {s : State σ ρ α} {number : ℕ} {request : ρ} {polling : Bool}

theorem setCall (h : Sound s)
    (hc : s.call = some ⟨number, request, polling⟩) {call : Option (Call ρ)}
    (hcall : ∀ c, call = some c → c.number = number ∧ c.request = request) :
    Sound { s with call := call } := by
  refine ⟨fun c hc' => ?_, h.slot, h.log, h.results⟩
  obtain ⟨hn, hr⟩ := hcall c hc'
  rw [hn, hr]
  exact h.call _ hc

theorem setSlot (h : Sound s) {slot : Slot ρ α}
    (hslot : ∀ owner job progress, slot = .busy owner job progress →
      s.requests[owner]? = some job ∧ ∀ answer, progress ≠ .done answer) :
    Sound { s with slot := slot } := by
  refine ⟨h.call, fun owner job progress hs => ?_, h.log, h.results⟩
  obtain ⟨hr, hd⟩ := hslot owner job progress hs
  exact ⟨hr, fun answer ha => absurd ha (hd answer)⟩

theorem addResult (h : Sound s)
    (hc : s.call = some ⟨number, request, polling⟩) (outcome : Outcome ρ α)
    (ho : ∀ e, outcome.source = some e → e ∈ s.log) :
    Sound { s with results := s.results ++ [⟨number, request, outcome⟩] } := by
  refine ⟨h.call, h.slot, h.log, fun x hx => ?_⟩
  rcases mem_append.mp hx with hx | hx
  · exact h.results x hx
  · rw [mem_singleton.mp hx]
    exact ⟨(h.call _ hc).1, ho⟩

theorem step {H : Handle σ ρ χ α} {t : State σ ρ α} {l : Label ρ χ} (h : Sound s)
    (hs : H.Steps s l t) : Sound t := by
  cases hs with
  | call request hc =>
    refine ⟨fun c hc' => ?_, fun owner job progress hb => ?_, fun e he => ?_, fun x hx => ?_⟩
    · cases hc'
      exact ⟨getElem?_concat_length, by simp⟩
    · exact ⟨append_of_some (h.slot owner job progress hb).1 _, (h.slot owner job progress hb).2⟩
    · exact append_of_some (h.log e he) _
    · exact ⟨append_of_some (h.results x hx).1 _, (h.results x hx).2⟩
  | start hs hc =>
    refine h.setSlot fun owner job progress hb => ?_
    cases hb
    refine ⟨(h.call _ hc).1, fun answer => ?_⟩
    rw [Handle.started]
    split <;> simp
  | launch hs | crash hs =>
    refine h.setSlot fun owner job progress hb => ?_
    cases hb
    exact ⟨(h.slot _ _ _ hs).1, by simp⟩
  | work hs he =>
    have hjob := (h.slot _ _ _ hs).1
    refine ⟨h.call, fun owner job progress hb => ?_, fun e he => ?_, fun x hx => ?_⟩
    · cases hb
      refine ⟨hjob, fun answer ha => ?_⟩
      rw [← Progress.done.inj ha]
      exact mem_append_right _ (mem_singleton.mpr rfl)
    · rcases mem_append.mp he with he | he
      · exact h.log e he
      · rw [mem_singleton.mp he]
        exact hjob
    · exact ⟨(h.results x hx).1, fun e he => mem_append_left _ ((h.results x hx).2 e he)⟩
  | @taken owner number job request answer hs hc ha =>
    have hres := h.addResult hc (H.outcome request owner job answer) fun e he => by
      rw [Handle.source_outcome] at he
      exact some.inj he ▸ (h.slot _ _ _ hs).2 _ rfl
    exact ⟨by simp, by simp, hres.log, hres.results⟩
  | drained hs hc ha => exact h.setSlot (by simp)
  | failed hs hslot hc =>
    have hres := h.addResult hc .failed (by simp [Outcome.source])
    refine ⟨by simp, fun owner job progress hb => ?_, hres.log, hres.results⟩
    rcases hslot with rfl | rfl <;> cases hb
  | suspend hc | resume hc => exact h.setCall hc fun c hc' => some.inj hc' ▸ ⟨rfl, rfl⟩
  | drop hc => exact h.setCall hc (by simp)

end Sound

namespace Handle

variable {H : Handle σ ρ χ α} {s t : State σ ρ α} {K : ℕ → ρ → ℕ → ρ → α → Prop} {l : Label ρ χ}
  {request job : ρ} {answer : α} {progress : Progress α} {owner number : ℕ}

theorem sound_of_reachable (h : H.system.Reachable s) : Sound s :=
  System.inv_of_reachable (I := Sound) (by constructor <;> simp [system])
    (fun _ _ _ hI hs => hI.step (steps_of_step hs)) h

theorem exec_of_mem_log (h : H.system.Reachable s) :
    ∀ e ∈ s.log, ∃ before choice after, H.exec before e.2.1 choice = some (after, e.2.2) := by
  refine System.inv_of_reachable
    (I := fun s => ∀ e ∈ s.log, ∃ before choice after,
      H.exec before e.2.1 choice = some (after, e.2.2)) (by simp [system]) ?_ h
  intro s l t hI hs
  cases steps_of_step hs with
  | work hslot he =>
    intro e hmem
    rcases mem_append.mp hmem with hmem | hmem
    · exact hI e hmem
    · rw [mem_singleton.mp hmem]
      exact ⟨_, _, _, he⟩
  | _ => exact hI

/-! ## A relation between calls and jobs -/

/-- The job may still give the answer, or has given it, and it fits the request. -/
def Gives (H : Handle σ ρ χ α) (request : ρ) (answer : α) : Progress α → Prop
  | .done answer' => answer' = answer ∧ H.fits request answer = true
  | .crashed => False
  | _ => True

/-- The call takes an answer of the job only if the two are related. -/
def Matched (H : Handle σ ρ χ α) (K : ℕ → ρ → ℕ → ρ → α → Prop) (s : State σ ρ α) (number : ℕ)
    (request : ρ) : Prop :=
  ∀ owner job progress, s.slot = .busy owner job progress → H.accepts request job = true →
    ∀ answer, H.Gives request answer progress → K number request owner job answer

def Apt (H : Handle σ ρ χ α) (K : ℕ → ρ → ℕ → ρ → α → Prop) (s : State σ ρ α) : Label ρ χ → Prop
  | .call request => H.Matched K s s.requests.length request
  | _ => True

structure Meets (H : Handle σ ρ χ α) (K : ℕ → ρ → ℕ → ρ → α → Prop) (s : State σ ρ α) : Prop where
  call : ∀ c, s.call = some c → H.Matched K s c.number c.request
  results : ∀ x ∈ s.results, ∀ owner job answer, x.outcome = .answered owner job answer →
    K x.call x.request owner job answer

theorem Meets.step
    (hK : ∀ number request answer, K number request number request answer) (h : H.Meets K s)
    (hl : H.Apt K s l) (hs : H.Steps s l t) : H.Meets K t := by
  -- the job does not change, and had no answer before
  have same : ∀ {owner job} {p q : Progress α}, s.slot = .busy owner job p →
      (∀ request answer, H.Gives request answer p) →
      H.Meets K { s with slot := .busy owner job q } := by
    intro owner job p q hslot hp
    refine ⟨fun c hc owner' job' progress hb ha answer _ => ?_, h.results⟩
    cases hb
    exact h.call c hc _ _ _ hslot ha answer (hp _ _)
  cases hs with
  | call request hc =>
    refine ⟨fun c hc' => ?_, h.results⟩
    cases hc'
    exact hl
  | start hs hc =>
    refine ⟨fun c hc' owner job progress hb _ answer _ => ?_, h.results⟩
    cases hb
    rw [← some.inj (hc.symm.trans hc')]
    exact hK _ _ _
  | launch hs | crash hs => exact same hs fun _ _ => trivial
  | @work owner job choice device answer hs he =>
    have hm := same (q := .done answer) hs fun _ _ => trivial
    exact ⟨hm.call, hm.results⟩
  | taken hs hc ha =>
    refine ⟨by simp, forall_mem_append.mpr ⟨h.results, ?_⟩⟩
    refine forall_mem_singleton.mpr fun owner job answer ho => ?_
    obtain ⟨rfl, rfl, rfl, hfits⟩ := of_outcome_eq_answered ho
    exact h.call _ hc _ _ _ hs ha _ ⟨rfl, hfits⟩
  | drained hs hc ha =>
    exact ⟨fun c hc owner job progress hb => absurd hb (by simp), h.results⟩
  | failed hs hslot hc =>
    exact ⟨by simp, forall_mem_append.mpr ⟨h.results, by simp⟩⟩
  | suspend hc | resume hc =>
    have hm := h.call _ hc
    exact ⟨fun c hc' => some.inj hc' ▸ hm, h.results⟩
  | drop hc => exact ⟨by simp, h.results⟩

theorem meets_of_reachableUnder
    (hK : ∀ number request answer, K number request number request answer)
    (h : H.system.ReachableUnder (H.Apt K) s) : H.Meets K s :=
  System.inv_of_reachableUnder (I := H.Meets K) ⟨by simp [system], by simp [system]⟩
    (fun _ _ _ hI hl hs => hI.step hK hl (steps_of_step hs)) h

/-- The job may still give, or has given, an answer that fits the request. -/
def usable (H : Handle σ ρ χ α) (request : ρ) : Progress α → Bool
  | .done answer => H.fits request answer
  | .crashed => false
  | _ => true

theorem usable_of_gives (h : H.Gives request answer progress) : H.usable request progress := by
  cases progress with
  | done answer' =>
    obtain ⟨rfl, hfits⟩ := h
    exact hfits
  | crashed => exact h.elim
  | waiting | running => rfl

/-- A call is made over a leftover whose answer it would take. -/
def inherits (H : Handle σ ρ χ α) (s : State σ ρ α) : Label ρ χ → Bool
  | .call request =>
    match s.slot with
    | .busy _ job progress => H.accepts request job && H.usable request progress
    | _ => false
  | _ => false

/-- **Without such a call, every answer is that of a job of the call itself.** -/
theorem own_of_reachableUnder (h : H.system.ReachableUnder (fun s l => H.inherits s l = false) s) :
    ∀ x ∈ s.results, ∀ owner job answer, x.outcome = .answered owner job answer →
      owner = x.call ∧ job = x.request ∧ (x.call, x.request, answer) ∈ s.log := by
  intro x hx owner job answer ho
  have hmeets : H.Meets (fun number _ owner _ _ => owner = number) s := by
    refine meets_of_reachableUnder (fun _ _ _ => rfl) (h.mono fun s l hl => ?_)
    cases l with
    | call request =>
      intro owner job progress hs ha answer hg
      simp [inherits, hs, usable_of_gives hg, ha] at hl
    | _ => trivial
  have hsound := sound_of_reachable h.reachable
  obtain rfl := hmeets.results x hx owner job answer ho
  have hlog := (hsound.results x hx).2 (x.call, job, answer) (by rw [ho]; rfl)
  have hjob : some job = some x.request :=
    (hsound.log _ hlog).symm.trans (hsound.results x hx).1
  cases hjob
  exact ⟨rfl, rfl, hlog⟩

/-! ## Answers that fit -/

/-- Whatever the job can answer fits the request. -/
def Admits (H : Handle σ ρ χ α) (device : σ) (request job : ρ) : Prop :=
  ∀ choice device' answer, H.exec device job choice = some (device', answer) →
    H.fits request answer = true

def Suits (H : Handle σ ρ χ α) (device : σ) (request job : ρ) : Progress α → Prop
  | .done answer => H.fits request answer = true
  | .crashed => True
  | _ => H.Admits device request job

/-- The call gets an answer that fits, if it gets one. -/
def Fitted (H : Handle σ ρ χ α) (s : State σ ρ α) (request : ρ) : Prop :=
  ∀ owner job progress, s.slot = .busy owner job progress → H.accepts request job = true →
    H.Suits s.device request job progress

def Roomy (H : Handle σ ρ χ α) (s : State σ ρ α) : Label ρ χ → Prop
  | .call request => H.Fitted s request
  | _ => True

/-- The call in progress will not panic, and none has. -/
structure Snug (H : Handle σ ρ χ α) (s : State σ ρ α) : Prop where
  call : ∀ c, s.call = some c → H.Fitted s c.request
  results : ∀ x ∈ s.results, ∀ owner job answer, x.outcome ≠ .panicked owner job answer
  answered : ∀ x ∈ s.results, ∀ owner job answer, x.outcome = .answered owner job answer →
    H.fits x.request answer = true

theorem Snug.step (hown : ∀ device request, H.Admits device request request) (h : H.Snug s)
    (hl : H.Roomy s l) (hs : H.Steps s l t) : H.Snug t := by
  cases hs with
  | call request hc =>
    refine ⟨fun c hc' => ?_, h.results, h.answered⟩
    cases hc'
    exact hl
  | start hs hc =>
    refine ⟨fun c hc' owner job progress hb _ => ?_, h.results, h.answered⟩
    cases hb
    rw [← some.inj (hc.symm.trans hc'), started]
    split <;> exact hown _ _
  | launch hs =>
    refine ⟨fun c hc owner job progress hb ha => ?_, h.results, h.answered⟩
    cases hb
    have hadmits := h.call c hc _ _ _ hs ha
    exact hadmits
  | crash hs =>
    refine ⟨fun c hc owner job progress hb ha => ?_, h.results, h.answered⟩
    cases hb
    trivial
  | work hs he =>
    refine ⟨fun c hc owner job progress hb ha => ?_, h.results, h.answered⟩
    cases hb
    exact h.call c hc _ _ _ hs ha _ _ _ he
  | taken hs hc ha =>
    have hfits : H.fits _ _ := h.call _ hc _ _ _ hs ha
    refine ⟨by simp, forall_mem_append.mpr ⟨h.results, ?_⟩,
      forall_mem_append.mpr ⟨h.answered, ?_⟩⟩
    · refine forall_mem_singleton.mpr fun owner job answer ho => ?_
      rw [outcome, if_pos hfits] at ho
      cases ho
    · refine forall_mem_singleton.mpr fun owner job answer ho => ?_
      rw [outcome, if_pos hfits] at ho
      cases ho
      exact hfits
  | drained hs hc ha =>
    exact ⟨fun c hc owner job progress hb => absurd hb (by simp), h.results, h.answered⟩
  | failed hs hslot hc =>
    exact ⟨by simp, forall_mem_append.mpr ⟨h.results, by simp⟩,
      forall_mem_append.mpr ⟨h.answered, by simp⟩⟩
  | suspend hc | resume hc =>
    have hm := h.call _ hc
    exact ⟨fun c hc' => some.inj hc' ▸ hm, h.results, h.answered⟩
  | drop hc => exact ⟨by simp, h.results, h.answered⟩

theorem snug_of_reachableUnder (hown : ∀ device request, H.Admits device request request)
    (h : H.system.ReachableUnder H.Roomy s) : H.Snug s :=
  System.inv_of_reachableUnder (I := H.Snug) ⟨by simp [system], by simp [system], by simp [system]⟩
    (fun _ _ _ hI hl hs => hI.step hown hl (steps_of_step hs)) h

/-! ## A call over a leftover -/

/-- The worker finishes the job, and the call takes the answer. -/
def Finishing (l : Label ρ χ) : Prop := l = .launch ∨ (∃ choice, l = .work choice) ∨ l = .take

def CanAnswer (H : Handle σ ρ χ α) (device : σ) (job : ρ) (answer : α) : Progress α → Prop
  | .done answer' => answer' = answer
  | .crashed => False
  | _ => ∃ choice device', H.exec device job choice = some (device', answer)

section

variable (hs : s.slot = .busy owner job progress) (hc : s.call = some ⟨number, request, true⟩)

include hs hc

theorem leadsTo_done (hp : H.CanAnswer s.device job answer progress) : H.system.LeadsTo Finishing
      (fun t => t.slot = .busy owner job (.done answer) ∧ t.call = some ⟨number, request, true⟩)
      s := by
  have running : ∀ {s : State σ ρ α}, s.slot = .busy owner job .running →
      s.call = some ⟨number, request, true⟩ →
      (∃ choice device', H.exec s.device job choice = some (device', answer)) →
      H.system.LeadsTo Finishing
        (fun t => t.slot = .busy owner job (.done answer) ∧
          t.call = some ⟨number, request, true⟩) s := by
    rintro s hs hc ⟨choice, device', he⟩
    have hstep : H.system.step s (.work choice) = some
        { s with
          device := device'
          slot := .busy owner job (.done answer)
          log := s.log ++ [(owner, job, answer)] } := by
      simp only [system, step, hs, he, map_some]
    exact .of_step (.inr (.inl ⟨choice, rfl⟩)) hstep (.now ⟨rfl, hc⟩)
  cases progress with
  | done answer' =>
    obtain rfl : answer' = answer := hp
    exact .now ⟨hs, hc⟩
  | crashed => exact hp.elim
  | running => exact running hs hc hp
  | waiting =>
    have hstep : H.system.step s .launch = some { s with slot := .busy owner job .running } := by
      simp only [system, step, hs, hc]
    exact .of_step (.inl rfl) hstep (running rfl hc hp)

/-- **A call that takes the answer of a leftover** ends with it. -/
theorem leadsTo_taken (ha : H.accepts request job)
    (hp : H.CanAnswer s.device job answer progress) : H.system.LeadsTo Finishing
      (fun t => ⟨number, request, H.outcome request owner job answer⟩ ∈ t.results) s := by
  refine (leadsTo_done hs hc hp).bind fun s hdone => ?_
  have hstep : H.system.step s .take = some
      { s with
        slot := .idle
        call := none
        results := s.results ++ [⟨number, request, H.outcome request owner job answer⟩] } := by
    simp only [system, step, hdone.1, hdone.2, ha, if_true]
  exact .of_step (.inr (.inr rfl)) hstep
    (.now (mem_append_right _ (mem_singleton.mpr rfl)))

theorem leadsTo_drained (ha : ¬ H.accepts request job)
    (hp : H.CanAnswer s.device job answer progress) : H.system.LeadsTo Finishing
      (fun t => t.slot = .idle ∧ t.call = some ⟨number, request, true⟩) s := by
  refine (leadsTo_done hs hc hp).bind fun s hdone => ?_
  have hstep : H.system.step s .take = some { s with slot := .idle } := by
    simp only [system, step, hdone.1, hdone.2, ha, Bool.false_eq_true, if_false]
  exact .of_step (.inr (.inr rfl)) hstep (.now ⟨rfl, hdone.2⟩)

end

theorem leadsTo_taken_of_call (hs : s.slot = .busy owner job progress)
    (ha : H.accepts request job) (hp : H.CanAnswer s.device job answer progress) :
    H.system.LeadsTo Finishing
      (fun t => ⟨s.requests.length, request, H.outcome request owner job answer⟩ ∈ t.results)
      { s with
        call := some ⟨s.requests.length, request, true⟩
        requests := s.requests ++ [request] } :=
  leadsTo_taken (s := { s with
    call := some ⟨s.requests.length, request, true⟩
    requests := s.requests ++ [request] }) hs rfl ha hp

end Handle

end Leftover
end RustyTokio.Transition

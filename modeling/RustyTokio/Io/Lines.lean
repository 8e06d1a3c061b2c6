import RustyTokio.Io.Buffered
import RustyTokio.Transition.System
import RustyTokio.Transition.Text

/-!
# `read_until`, `read_line` and `next_line`

`read_until` (`io/async_io.rs`) fills the buffer of its reader, looks for the byte, appends what it
uses and consumes it, until it has the byte or the stream ends.
-/

namespace RustyTokio.AsyncIo

open Transition Transition.Text List Option BufReader Loop
open Transition.Script (Source)

/-! ## `read_until` -/

structure ReadUntil where
  byte : UInt8
  buf : List UInt8
  total : ℕ
  deriving DecidableEq

namespace ReadUntil

def scan (byte : UInt8) (available : List UInt8) : Bool × ℕ :=
  match available.findIdx? (· == byte) with
  | some i => (true, i + 1)
  | none => (false, available.length)

def pass : ReadUntil × BufReader → (ReadUntil × BufReader) × Option (Poll ℕ)
  | (f, r) =>
    match r.pollFillBuf with
    | (r, .ready (.ok available)) =>
      let (done, used) := scan f.byte available
      (({ f with buf := f.buf ++ available.take used, total := f.total + used }, r.consume used),
        if done || used == 0 then some (.ready (.ok (f.total + used))) else none)
    | (r, .ready (.error e)) => ((f, r), some (.ready (.error e)))
    | (r, .pending) => ((f, r), some .pending)

def left (s : ReadUntil × BufReader) : ℕ := s.2.rest.length

def poll (f : ReadUntil) (r : BufReader) : (ReadUntil × BufReader) × Poll ℕ :=
  Loop.poll pass left (f, r)

def await (polls : ℕ) (f : ReadUntil) (r : BufReader) :
    Option ((ReadUntil × BufReader) × Except Error ℕ) :=
  Loop.await (fun s => poll s.1 s.2) polls (f, r)

/-! ### One pass -/

inductive Scanned (byte : UInt8) (available : List UInt8) : Bool × ℕ → Prop where
  | found {s t : List UInt8} (h : available = s ++ byte :: t) (hs : byte ∉ s) :
      Scanned byte available (true, s.length + 1)
  | missed (h : byte ∉ available) : Scanned byte available (false, available.length)

theorem scanned (byte : UInt8) (available : List UInt8) :
    Scanned byte available (scan byte available) := by
  rw [scan]
  cases hi : available.findIdx? (· == byte) with
  | none =>
    refine .missed fun hmem => ?_
    have := findIdx?_eq_none_iff.mp hi byte hmem
    simp at this
  | some i =>
    obtain ⟨hlt, hat, hbefore⟩ := findIdx?_eq_some_iff_getElem.mp hi
    have hsplit : available = available.take i ++ byte :: available.drop (i + 1) := by
      rw [← beq_iff_eq.mp hat, ← drop_eq_getElem_cons hlt, take_append_drop]
    have hlen : (available.take i).length = i := by
      rw [length_take]
      omega
    have hnot : byte ∉ available.take i := by
      intro hmem
      obtain ⟨j, hj, hget⟩ := getElem_of_mem hmem
      rw [getElem_take] at hget
      exact hbefore j (hlen ▸ hj) (beq_iff_eq.mpr hget)
    have hfound := Scanned.found hsplit hnot
    rwa [hlen] at hfound

theorem take_through (s t : List UInt8) (b : UInt8) :
    (s ++ b :: t).take (s.length + 1) = s ++ [b] := by
  rw [append_cons]
  exact take_left' (by simp)

inductive Passes (f : ReadUntil) (r : BufReader) :
    ReadUntil → BufReader → Option (Poll ℕ) → Prop where
  | pending {r'} (h : r.pollFillBuf = (r', .pending)) : Passes f r f r' (some .pending)
  | failed {r' e} (h : r.pollFillBuf = (r', .ready (.error e))) :
      Passes f r f r' (some (.ready (.error e)))
  | found {r' s t} (h : r.pollFillBuf = (r', .ready (.ok (s ++ f.byte :: t)))) (hs : f.byte ∉ s) :
      Passes f r
        { f with buf := f.buf ++ (s ++ [f.byte]), total := f.total + (s.length + 1) }
        (r'.consume (s.length + 1)) (some (.ready (.ok (f.total + (s.length + 1)))))
  | ended {r'} (h : r.pollFillBuf = (r', .ready (.ok []))) :
      Passes f r f (r'.consume 0) (some (.ready (.ok f.total)))
  | more {r' available} (h : r.pollFillBuf = (r', .ready (.ok available)))
      (hne : available ≠ []) (hnot : f.byte ∉ available) :
      Passes f r
        { f with buf := f.buf ++ available, total := f.total + available.length }
        (r'.consume available.length) none

variable {f f' : ReadUntil} {r r' : BufReader} {result : Option (Poll ℕ)} {c : List UInt8}
  {b : UInt8} {S : List UInt8} {n : ℕ}

theorem passes_of_pass (h : pass (f, r) = ((f', r'), result)) : Passes f r f' r' result := by
  rw [pass] at h
  rcases hfill : r.pollFillBuf with ⟨r₁, _ | e | available⟩ <;> rw [hfill] at h
  · cases h
    exact .pending hfill
  · cases h
    exact .failed hfill
  · have hscanned := scanned f.byte available
    rcases hscan : scan f.byte available with ⟨done, used⟩
    simp only [hscan, Prod.mk.injEq] at h hscanned
    obtain ⟨⟨rfl, rfl⟩, rfl⟩ := h
    cases hscanned with
    | @found s t h hs =>
      subst h
      rw [take_through]
      exact .found hfill hs
    | missed hnot =>
      rw [take_length]
      cases available with
      | nil =>
        rw [append_nil]
        exact .ended hfill
      | cons x available => exact .more hfill (cons_ne_nil _ _) hnot

/-! ### The loop -/

theorem rest_lt_of_pass (h : r.InOrder) (hpass : pass (f, r) = ((f', r'), none)) :
    r'.InOrder ∧ r'.rest.length < r.rest.length := by
  cases passes_of_pass hpass with
  | @more r₁ available hfill hne hnot =>
    have horder := h.of_pollFillBuf hfill
    refine ⟨horder.consume _, ?_⟩
    have hsplit := congrArg List.length (rest_consume horder available.length)
    have hpos := length_pos_iff.mpr hne
    rw [rest_of_pollFillBuf hfill, unread_of_pollFillBuf hfill,
      take_length, length_append] at hsplit
    omega

theorem falls : Loop.Falls pass left fun s => s.2.InOrder :=
  fun _ _ h hpass => rest_lt_of_pass h hpass

theorem poll_eq (h : r.InOrder) : f.poll r = match pass (f, r) with
      | ((f, r), some result) => ((f, r), result)
      | ((f, r), none) => f.poll r := by
  rw [poll, Loop.poll_eq falls h]
  rcases pass (f, r) with ⟨⟨f', r'⟩, _ | result⟩ <;> rfl

/-! ### What a poll takes from the reader -/

theorem consumed_of_pass (h : r.Sound c) (hpass : pass (f, r) = ((f', r'), result)) :
    ∃ new, f'.buf = f.buf ++ new ∧ r'.Sound (c ++ new) := by
  cases passes_of_pass hpass with
  | pending hfill | failed hfill =>
    exact ⟨[], (append_nil _).symm, (append_nil c).symm ▸ h.of_pollFillBuf hfill⟩
  | @found r₁ s t hfill hs =>
    have hconsumed := (h.of_pollFillBuf hfill).consume (s.length + 1)
    rw [unread_of_pollFillBuf hfill, take_through] at hconsumed
    exact ⟨_, rfl, hconsumed⟩
  | ended hfill => exact ⟨[], (append_nil _).symm, (h.of_pollFillBuf hfill).consume 0⟩
  | @more r₁ available hfill hne hnot =>
    have hconsumed := (h.of_pollFillBuf hfill).consume available.length
    rw [unread_of_pollFillBuf hfill, take_length] at hconsumed
    exact ⟨_, rfl, hconsumed⟩

theorem consumed_of_poll {answer : Poll ℕ} (h : r.Sound c) (hpoll : f.poll r = ((f', r'), answer)) :
    ∃ new, f'.buf = f.buf ++ new ∧ r'.Sound (c ++ new) := by
  let I : ReadUntil × BufReader → Prop :=
    fun s => ∃ new, s.1.buf = f.buf ++ new ∧ s.2.Sound (c ++ new)
  have hkeep : ∀ s t result, I s → pass s = (t, result) → I t := by
    rintro ⟨f₁, r₁⟩ ⟨f₂, r₂⟩ result ⟨new, hbuf, hsound⟩ hpass
    obtain ⟨new', hbuf', hsound'⟩ := consumed_of_pass hsound hpass
    refine ⟨new ++ new', ?_, ?_⟩
    · rw [hbuf', hbuf, append_assoc]
    · rw [← append_assoc]
      exact hsound'
  have hspec : I (f.poll r).1 := by
    refine poll_spec (I := I) (Q := fun s _ => I s) ?_ ?_ ?_
    · rintro s t hs hpass
      obtain ⟨new, -, hsound⟩ := id hs
      exact ⟨hkeep s t none hs hpass, (falls s t hsound.toInOrder hpass).2⟩
    · exact fun s t answer hs hpass => hkeep s t (some answer) hs hpass
    · exact ⟨[], (append_nil _).symm, (append_nil c).symm ▸ h⟩
  rw [hpoll] at hspec
  exact hspec

/-! ### A call over a stream in chunks -/

/-- How a piece `p` ends when `rest` comes after it: with the byte, or with the stream. -/
def Ends (b : UInt8) (p rest : List UInt8) : Prop :=
  (∃ s, p = s ++ [b] ∧ b ∉ s) ∨ b ∉ p ∧ rest = []

/-- A call of `read_until` that is not over: `S` is what it has and what is to come. -/
structure Gathering (b : UInt8) (S : List UInt8) (n : ℕ) (s : ReadUntil × BufReader) : Prop where
  fed : s.2.Fed
  short : s.2.inner.script.length ≤ n
  byte : s.1.byte = b
  total : s.1.total = s.1.buf.length
  notMem : b ∉ s.1.buf
  stream : S = s.1.buf ++ s.2.rest

/-- The same when it has returned. -/
structure Gathered (b : UInt8) (S : List UInt8) (n : ℕ) (s : ReadUntil × BufReader)
    (result : Except Error ℕ) : Prop where
  fed : s.2.Fed
  short : s.2.inner.script.length ≤ n
  result_eq : result = .ok s.1.buf.length
  stream : S = s.1.buf ++ s.2.rest
  ends : Ends b s.1.buf s.2.rest

def waits (s : ReadUntil × BufReader) : ℕ := s.2.inner.script.length

theorem Gathering.fresh (h : r.Fed) (hn : r.inner.script.length ≤ n) :
    Gathering b r.rest n (⟨b, [], 0⟩, r) :=
  ⟨h, hn, rfl, rfl, not_mem_nil, rfl⟩

theorem Gathering.pass (h : Gathering b S n (f, r))
    (hpass : ReadUntil.pass (f, r) = ((f', r'), result)) :
    Loop.Goes (Gathering b S n) waits (Gathered b S n) (f, r) (f', r') result := by
  obtain ⟨hfed, hshort, rfl, htotal, hnot, hS⟩ := h
  dsimp only at hfed hshort htotal hnot hS
  cases passes_of_pass hpass with
  | pending hfill =>
    rw [← rest_of_pollFillBuf hfill] at hS
    cases hfed.of_pollFillBuf hfill with
    | pending hfed' hless =>
      exact .pending ⟨hfed', Nat.le_trans (Nat.le_of_lt hless) hshort, rfl, htotal, hnot, hS⟩ hless
  | failed hfill => cases hfed.of_pollFillBuf hfill
  | @found r₁ s t hfill hs =>
    cases hfed.of_pollFillBuf hfill with
    | ok hfed' hunread hle hend =>
      have hsplit := rest_consume hfed'.toInOrder (s.length + 1)
      rw [rest_of_pollFillBuf hfill, ← hunread, take_through] at hsplit
      have hcs : f.byte ∉ f.buf ++ s := by
        rw [mem_append, not_or]
        exact ⟨hnot, hs⟩
      refine .ready ⟨hfed'.consume _, Nat.le_trans hle hshort, congrArg Except.ok ?_, ?_,
        .inl ⟨f.buf ++ s, (append_assoc _ _ _).symm, hcs⟩⟩
      · simp only [htotal, length_append, length_singleton]
      · rw [hS, hsplit, ← append_assoc]
  | @ended r₁ hfill =>
    cases hfed.of_pollFillBuf hfill with
    | ok hfed' hunread hle hend =>
      have hnone := hend rfl
      have hrest : (r₁.consume 0).rest = [] := by
        have hsplit := rest_consume hfed'.toInOrder 0
        rw [rest_of_pollFillBuf hfill, hnone, take_zero, nil_append] at hsplit
        exact hsplit.symm
      refine .ready ⟨hfed'.consume _, Nat.le_trans hle hshort, congrArg Except.ok htotal, ?_,
        .inr ⟨hnot, hrest⟩⟩
      rw [hS, hnone, hrest]
  | @more r₁ available hfill hne hmissed =>
    cases hfed.of_pollFillBuf hfill with
    | ok hfed' hunread hle hend =>
      have hsplit := rest_consume hfed'.toInOrder available.length
      rw [rest_of_pollFillBuf hfill, ← hunread, take_length] at hsplit
      refine .on ⟨hfed'.consume _, Nat.le_trans hle hshort, rfl, ?_, ?_, ?_⟩ hle
      · simp only [htotal, length_append]
      · rw [mem_append, not_or]
        exact ⟨hnot, hmissed⟩
      · rw [hS, hsplit, append_assoc]

theorem Gathering.poll (h : Gathering b S n (f, r)) :
    Loop.Goes (Gathering b S n) waits (Gathered b S n) (f, r) (f.poll r).1 (some (f.poll r).2) :=
  poll_of_goes (fun _ _ _ h hpass => h.pass hpass)
    (fun _ _ h hpass => (rest_lt_of_pass h.fed.toInOrder hpass).2) h

theorem Gathering.await {polls : ℕ} (h : Gathering b S n (f, r))
    (hpolls : r.inner.script.length < polls) :
    ∃ s result, await polls f r = some (s, result) ∧ Gathered b S n s result :=
  await_of_goes (fun _ _ _ h hpass => h.pass hpass)
    (fun _ _ h hpass => (rest_lt_of_pass h.fed.toInOrder hpass).2) h hpolls

end ReadUntil

/-! ## Calls that are awaited -/

def readUntil (polls : ℕ) (byte : UInt8) (r : BufReader) :
    Option (BufReader × List UInt8 × Except Error ℕ) :=
  (ReadUntil.await polls ⟨byte, [], 0⟩ r).map fun ((f, r), result) => (r, f.buf, result)

def again {α : Type} (call : BufReader → Option (BufReader × α)) :
    ℕ → BufReader → Option (BufReader × List α)
  | 0, r => some (r, [])
  | n + 1, r =>
    (call r).bind fun (r, x) => (again call n r).map fun (r, xs) => (r, x :: xs)

theorem again_succ {α : Type} {call : BufReader → Option (BufReader × α)} {n : ℕ}
    {r r₁ r' : BufReader} {x : α} {xs : List α} (h : call r = some (r₁, x))
    (h' : again call n r₁ = some (r', xs)) : again call (n + 1) r = some (r', x :: xs) := by
  simp [again, h, h']

variable {p rest S : List UInt8} {b : UInt8} {r : BufReader} {polls : ℕ}

theorem pieces_of_ends (hS : S = p ++ rest) (hends : ReadUntil.Ends b p rest) :
    p = [] ∧ pieces b S = [] ∧ rest = [] ∨ pieces b S = p :: pieces b rest := by
  rcases hends with ⟨s, rfl, hs⟩ | ⟨hp, rfl⟩
  · refine .inr ?_
    rw [hS, append_assoc]
    exact pieces_append_cons hs rest
  · rw [append_nil] at hS
    subst hS
    by_cases hnil : S = []
    · exact .inl ⟨hnil, by rw [hnil, pieces], rfl⟩
    · exact .inr (pieces_of_notMem hnil hp)

theorem readUntil_spec (h : r.Fed) (hpolls : r.inner.script.length < polls) :
    ∃ r' p, readUntil polls b r = some (r', p, .ok p.length) ∧ r'.Fed ∧
      r'.inner.script.length ≤ r.inner.script.length ∧ r.rest = p ++ r'.rest ∧
      ReadUntil.Ends b p r'.rest := by
  obtain ⟨⟨f', r'⟩, _, hawait, hgathered⟩ :=
    (ReadUntil.Gathering.fresh (b := b) h (Nat.le_refl _)).await hpolls
  obtain rfl := hgathered.result_eq
  refine ⟨r', f'.buf, ?_, hgathered.fed, hgathered.short, hgathered.stream, hgathered.ends⟩
  rw [readUntil, hawait]
  rfl

theorem again_readUntil (n : ℕ) (h : r.Fed) (hpolls : r.inner.script.length < polls) :
    ∃ r' outs, again (readUntil polls b) n r = some (r', outs) ∧ outs.length = n ∧
      ∀ i < n, outs[i]? = some ((pieces b r.rest).getD i [],
        .ok ((pieces b r.rest).getD i []).length) := by
  induction n generalizing r with
  | zero => exact ⟨r, [], rfl, rfl, fun i hi => absurd hi (Nat.not_lt_zero _)⟩
  | succ n ih =>
    obtain ⟨r₁, p, hcall, hfed, hle, hS, hends⟩ := readUntil_spec h hpolls
    obtain ⟨r', outs, hrest, hlen, houts⟩ := ih hfed (Nat.lt_of_le_of_lt hle hpolls)
    refine ⟨r', (p, .ok p.length) :: outs, ?_, by rw [length_cons, hlen], fun i hi => ?_⟩
    · exact again_succ hcall hrest
    · rcases pieces_of_ends hS hends with ⟨rfl, hnone, hrest⟩ | hpieces
      · rw [hnone]
        cases i with
        | zero => rfl
        | succ i =>
          have := houts i (Nat.lt_of_succ_lt_succ hi)
          rw [hrest, pieces] at this
          exact this
      · rw [hpieces]
        cases i with
        | zero => rfl
        | succ i => exact houts i (Nat.lt_of_succ_lt_succ hi)

/-! ### `next_line` -/

/-- What `next_line` returns, and the terminator that it has stripped. -/
structure Line where
  text : List UInt8
  terminator : List UInt8
  deriving DecidableEq

def chomp (buf : List UInt8) : Line :=
  if buf.getLast? = some 10 then
    if buf.dropLast.getLast? = some 13 then ⟨buf.dropLast.dropLast, [13, 10]⟩
    else ⟨buf.dropLast, [10]⟩
  else ⟨buf, []⟩

/-- The end of `read_line`, called with an empty string, and of `next_line`. -/
def lineOf (bytes : List UInt8) (n : ℕ) : Except Error (Option Line) :=
  if bytes.toByteArray.validateUTF8 then
    .ok (if n = 0 then none else some (chomp bytes))
  else .error (.invalidData "stream did not contain valid UTF-8")

def nextLine (polls : ℕ) (r : BufReader) : Option (BufReader × Except Error (Option Line)) :=
  (ReadUntil.await polls ⟨10, [], 0⟩ r).map fun ((f, r), result) => (r, result.bind (lineOf f.buf))

def lineBytes : Except Error (Option Line) → List UInt8
  | .ok (some line) => line.text ++ line.terminator
  | _ => []

theorem chomp_append (buf : List UInt8) : (chomp buf).text ++ (chomp buf).terminator = buf := by
  rw [chomp]
  split
  next hlf =>
    obtain ⟨s, rfl⟩ := getLast?_eq_some_iff.mp hlf
    rw [dropLast_concat]
    split
    next hcr =>
      obtain ⟨t, rfl⟩ := getLast?_eq_some_iff.mp hcr
      rw [dropLast_concat, append_assoc]
      rfl
    · rfl
  · exact append_nil buf

theorem valid_of_ends (h : S.toByteArray.IsValidUTF8) (hS : S = p ++ rest)
    (hends : ReadUntil.Ends 10 p rest) :
    p.toByteArray.IsValidUTF8 ∧ rest.toByteArray.IsValidUTF8 := by
  rcases hends with ⟨s, rfl, -⟩ | ⟨-, rfl⟩
  · rw [hS, append_assoc] at h
    exact isValidUTF8_split (by decide) h
  · rw [hS, append_nil] at h
    exact ⟨h, [], rfl⟩

theorem lineOf_of_valid (h : p.toByteArray.IsValidUTF8) :
    lineOf p p.length = .ok (if p = [] then none else some (chomp p)) := by
  rw [lineOf, if_pos (ByteArray.validateUTF8_eq_true_iff.mpr h)]
  simp only [length_eq_zero_iff]

theorem nextLine_spec (h : r.Fed) (hpolls : r.inner.script.length < polls)
    (hvalid : r.rest.toByteArray.IsValidUTF8) :
    ∃ r' line, nextLine polls r = some (r', .ok line) ∧ r'.Fed ∧
      r'.inner.script.length ≤ r.inner.script.length ∧ r'.rest.toByteArray.IsValidUTF8 ∧
      r.rest = lineBytes (.ok line) ++ r'.rest ∧
      line = (pieces 10 r.rest)[0]?.map chomp ∧ pieces 10 r'.rest = (pieces 10 r.rest).tail := by
  obtain ⟨⟨f', r'⟩, _, hawait, hgathered⟩ :=
    (ReadUntil.Gathering.fresh (b := 10) h (Nat.le_refl _)).await hpolls
  obtain ⟨fed, hle, rfl, hS, hends⟩ := hgathered
  dsimp only at fed hle hS hends
  obtain ⟨hp, hrest⟩ := valid_of_ends hvalid hS hends
  have hcall : nextLine polls r =
      some (r', .ok (if f'.buf = [] then none else some (chomp f'.buf))) := by
    rw [nextLine, hawait, ← lineOf_of_valid hp]
    rfl
  rcases pieces_of_ends hS hends with ⟨hnil, hnone, hend⟩ | hpieces
  · rw [if_pos hnil] at hcall
    rw [hnil] at hS
    refine ⟨r', none, hcall, fed, hle, hrest, hS, ?_, ?_⟩
    · rw [hnone]
      rfl
    · rw [hnone, hend]
      rfl
  · have hne : f'.buf ≠ [] := ((pieces_spec 10 r.rest).1 f'.buf (by rw [hpieces]; simp)).1
    rw [if_neg hne] at hcall
    refine ⟨r', some (chomp f'.buf), hcall, fed, hle, hrest, ?_, ?_, ?_⟩
    · exact hS.trans (congrArg (· ++ r'.rest) (chomp_append f'.buf).symm)
    · rw [hpieces]
      rfl
    · rw [hpieces]
      rfl

theorem again_nextLine (n : ℕ) (h : r.Fed) (hpolls : r.inner.script.length < polls)
    (hvalid : r.rest.toByteArray.IsValidUTF8) :
    ∃ r' outs, again (nextLine polls) n r = some (r', outs) ∧ outs.length = n ∧
      (∀ i < n, outs[i]? = some (.ok ((pieces 10 r.rest)[i]?.map chomp))) ∧
      r.rest = outs.flatMap lineBytes ++ r'.rest ∧
      pieces 10 r'.rest = (pieces 10 r.rest).drop n := by
  induction n generalizing r with
  | zero => exact ⟨r, [], rfl, rfl, fun i hi => absurd hi (Nat.not_lt_zero _), rfl, rfl⟩
  | succ n ih =>
    obtain ⟨r₁, line, hcall, hfed, hle, hvalid', hS, hline, htail⟩ := nextLine_spec h hpolls hvalid
    obtain ⟨r', outs, hrest, hlen, houts, hS', hdrop⟩ :=
      ih hfed (Nat.lt_of_le_of_lt hle hpolls) hvalid'
    refine ⟨r', .ok line :: outs, again_succ hcall hrest, by rw [length_cons, hlen],
      fun i hi => ?_, ?_, ?_⟩
    · cases i with
      | zero => rw [hline, getElem?_cons_zero]
      | succ i =>
        rw [getElem?_cons_succ, houts i (Nat.lt_of_succ_lt_succ hi), htail, getElem?_tail]
    · rw [hS, hS', flatMap_cons, append_assoc]
    · rw [hdrop, htail, drop_tail]

/-- **Pieces and lines do not depend on the chunks.**  However a stream is cut, under a buffer with
room for a byte, the calls of `read_until` get its pieces in order, and then nothing.  If it is
valid UTF-8, the calls of `next_line` get its lines, and then `None`; with the terminators they
were stripped of, the lines are the whole stream. -/
theorem reads_pieces_and_lines (capacity polls : ℕ) (hcapacity : 0 < capacity)
    (script : List (Poll (List UInt8))) (hchunked : (Source.ofScript script).Chunked)
    (hpolls : script.length < polls) (b : UInt8) (n : ℕ) (S : List UInt8)
    (hS : (Source.ofScript script).rest = S) :
    (∃ r outs, again (readUntil polls b) n (.withCapacity capacity (.ofScript script)) =
        some (r, outs) ∧ outs.length = n ∧
      ∀ i < n, outs[i]? = some ((pieces b S).getD i [], .ok ((pieces b S).getD i []).length)) ∧
    ((pieces b S).flatten = S ∧ (∀ p ∈ pieces b S, p ≠ [] ∧ b ∉ p.dropLast) ∧
      ∀ p ∈ (pieces b S).dropLast, p.getLast? = some b) ∧ (S.toByteArray.IsValidUTF8 →
      ∃ r outs, again (nextLine polls) n (.withCapacity capacity (.ofScript script)) =
          some (r, outs) ∧ outs.length = n ∧
        (∀ i < n, outs[i]? = some (.ok ((pieces 10 S)[i]?.map chomp))) ∧
        ((pieces 10 S).length ≤ n → outs.flatMap lineBytes = S)) := by
  have hfed := BufReader.Fed.withCapacity hcapacity hchunked
  have hrest : (BufReader.withCapacity capacity (.ofScript script)).rest = S := hS
  refine ⟨?_, ⟨flatten_pieces b S, pieces_spec b S⟩, fun hvalid => ?_⟩
  · obtain ⟨r, outs, hcalls, hlen, houts⟩ := again_readUntil (b := b) n hfed hpolls
    rw [hrest] at houts
    exact ⟨r, outs, hcalls, hlen, houts⟩
  · rw [← hrest] at hvalid
    obtain ⟨r, outs, hcalls, hlen, houts, hsplit, hdrop⟩ := again_nextLine n hfed hpolls hvalid
    rw [hrest] at houts hsplit hdrop
    refine ⟨r, outs, hcalls, hlen, houts, fun hall => ?_⟩
    have hend : r.rest = [] := by
      rw [← flatten_pieces 10 r.rest, hdrop, drop_eq_nil_of_le hall]
      rfl
    rw [hsplit, hend, append_nil]

theorem reads_pieces_and_lines_of_crlf : ∃ r outs, again (nextLine 6) 3 (.withCapacity 2 (.ofScript
        [.ready (.ok [97, 13]), .pending, .ready (.ok [10, 98]), .pending, .ready (.ok [13])])) =
        some (r, outs) ∧ outs[0]? = some (.ok (some ⟨[97], [13, 10]⟩)) ∧
      outs.flatMap lineBytes = [97, 13, 10, 98, 13] := by
  obtain ⟨-, -, hlines⟩ := reads_pieces_and_lines 2 6 (by decide)
    [.ready (.ok [97, 13]), .pending, .ready (.ok [10, 98]), .pending, .ready (.ok [13])]
    (by decide) (Nat.lt_succ_self _) 10 3 [97, 13, 10, 98, 13] rfl
  obtain ⟨r, outs, hcalls, -, houts, hall⟩ :=
    hlines (ByteArray.validateUTF8_eq_true_iff.mp (by decide))
  exact ⟨r, outs, hcalls, houts 0 (by decide), hall (by decide)⟩

/-! ## Calls that may be dropped -/

structure Lines where
  reader : BufReader
  future : Option ReadUntil
  returned : List Line
  deriving DecidableEq

namespace Lines

inductive Label where
  | poll
  | drop
  deriving DecidableEq

def current (w : Lines) : ReadUntil := w.future.getD ⟨10, [], 0⟩

def pollNextLine (f : ReadUntil) (r : BufReader) : ReadUntil × BufReader × Poll (Option Line) :=
  match f.poll r with
  | ((f, r), .pending) => (f, r, .pending)
  | ((f, r), .ready result) => (f, r, .ready (result.bind (lineOf f.buf)))

def step (w : Lines) : Label → Option Lines
  | .poll =>
    match pollNextLine w.current w.reader with
    | (f, r, .pending) => some { w with reader := r, future := some f }
    | (_, r, .ready (.ok (some line))) => some ⟨r, none, w.returned ++ [line]⟩
    | (_, r, .ready _) => some { w with reader := r, future := none }
  | .drop =>
    match w.future with
    | some _ => some { w with future := none }
    | none => none

def text (w : Lines) : List UInt8 := w.returned.flatMap fun line => line.text ++ line.terminator

/-- A call is dropped that holds bytes. -/
def loses (w : Lines) : Label → Bool
  | .drop => !w.current.buf.isEmpty
  | .poll => false

end Lines

def lines (capacity : ℕ) (script : List (Poll (List UInt8))) : System Lines Lines.Label where
  init := ⟨.withCapacity capacity (.ofScript script), none, []⟩
  step := Lines.step

namespace Lines

variable {w v : Lines} {l : Label} {d capacity : ℕ} {script : List (Poll (List UInt8))}

inductive Steps (w : Lines) : Label → Lines → Prop where
  | pending {f r} (h : w.current.poll w.reader = ((f, r), .pending)) :
      Steps w .poll { w with reader := r, future := some f }
  | line {f r n line} (h : w.current.poll w.reader = ((f, r), .ready (.ok n)))
      (hline : lineOf f.buf n = .ok (some line)) :
      Steps w .poll ⟨r, none, w.returned ++ [line]⟩
  | noLine {f r result} (h : w.current.poll w.reader = ((f, r), .ready result))
      (hnone : ∀ line, result.bind (lineOf f.buf) ≠ .ok (some line)) :
      Steps w .poll { w with reader := r, future := none }
  | drop : Steps w .drop { w with future := none }

theorem steps_of_step (h : w.step l = some v) : Steps w l v := by
  cases l with
  | poll =>
    rw [step, pollNextLine] at h
    rcases hpoll : w.current.poll w.reader with ⟨⟨f, r⟩, _ | result⟩ <;> rw [hpoll] at h
    · exact some.inj h ▸ .pending hpoll
    · dsimp only at h
      rcases hresult : result.bind (lineOf f.buf) with e | _ | line <;> rw [hresult] at h
      · exact some.inj h ▸ .noLine hpoll (by simp [hresult])
      · exact some.inj h ▸ .noLine hpoll (by simp [hresult])
      · cases result with
        | error e => simp [Except.bind] at hresult
        | ok n => exact some.inj h ▸ .line hpoll hresult
  | drop =>
    rw [step] at h
    split at h
    · exact some.inj h ▸ .drop
    · cases h

theorem chomp_of_lineOf {bytes : List UInt8} {n : ℕ} {line : Line}
    (h : lineOf bytes n = .ok (some line)) : line = chomp bytes := by
  rw [lineOf] at h
  split at h
  · split at h
    · cases h
    · exact (some.inj (Except.ok.inj h)).symm
  · cases h

theorem text_returned (r : BufReader) (returned : List Line) (bytes : List UInt8) :
    text ⟨r, none, returned ++ [chomp bytes]⟩ = text ⟨r, none, returned⟩ ++ bytes := by
  simp [text, chomp_append]

/-! ### Lines that fall behind -/

/-- At least `d` consumed bytes are neither in a line nor in the buffer. -/
def Behind (d : ℕ) (w : Lines) : Prop :=
  ∃ c, w.reader.Sound c ∧ (text w).length + w.current.buf.length + d ≤ c.length

theorem Behind.of_poll {f : ReadUntil} {r : BufReader} {answer : Poll ℕ} (h : w.Behind d)
    (hpoll : w.current.poll w.reader = ((f, r), answer)) :
    ∃ c, r.Sound c ∧ (text w).length + f.buf.length + d ≤ c.length := by
  obtain ⟨c, hsound, hle⟩ := h
  obtain ⟨new, hbuf, hsound'⟩ := ReadUntil.consumed_of_poll hsound hpoll
  refine ⟨c ++ new, hsound', ?_⟩
  rw [hbuf, length_append, length_append]
  omega

theorem Behind.step (h : w.Behind d) (hs : Steps w l v) : v.Behind d := by
  cases hs with
  | pending hpoll => exact h.of_poll hpoll
  | line hpoll hline =>
    obtain ⟨c, hsound, hle⟩ := h.of_poll hpoll
    refine ⟨c, hsound, ?_⟩
    rw [chomp_of_lineOf hline, text_returned, length_append]
    exact hle
  | noLine hpoll hnone =>
    obtain ⟨c, hsound, hle⟩ := h.of_poll hpoll
    refine ⟨c, hsound, ?_⟩
    change (text w).length + 0 + d ≤ _
    omega
  | drop =>
    obtain ⟨c, hsound, hle⟩ := h
    refine ⟨c, hsound, ?_⟩
    change (text w).length + 0 + d ≤ c.length
    omega

theorem Behind.run {labels : List Label}
    (h : w.Behind d) (hrun : (lines capacity script).run w labels = some v) : v.Behind d :=
  System.inv_of_any_run (I := Behind d) (fun _ _ _ hI hs => hI.step (steps_of_step hs)) h hrun

theorem behind_of_reachable (h : (lines capacity script).Reachable w) : w.Behind 0 :=
  System.inv_of_reachable (I := Behind 0)
    ⟨[], BufReader.Sound.withCapacity capacity script, Nat.le_refl _⟩
    (fun _ _ _ hI hs => hI.step (steps_of_step hs)) h

theorem behind_of_loses (h : w.Behind 0) (hl : w.loses l) (hs : Steps w l v) : v.Behind 1 := by
  cases hs with
  | drop =>
    obtain ⟨c, hsound, hle⟩ := h
    have hheld : w.current.buf ≠ [] := by simpa [loses] using hl
    have hpos := length_pos_iff.mpr hheld
    refine ⟨c, hsound, ?_⟩
    change (text w).length + 0 + 1 ≤ c.length
    omega
  | pending | line | noLine => cases hl

theorem Behind.text_lt {c : List UInt8} (h : w.Behind 1)
    (hc : c ++ w.reader.unread = w.reader.inner.produced) : (text w).length < c.length := by
  obtain ⟨c', hsound, hle⟩ := h
  obtain rfl : c = c' := append_cancel_right (hc.trans hsound.produced.symm)
  omega

/-! ### Lines that keep up -/

/-- Every consumed byte is in a line or in the current buffer. -/
structure Intact (w : Lines) : Prop where
  sound : w.reader.Sound (text w ++ w.current.buf)
  call : ∃ S : List UInt8, S.toByteArray.IsValidUTF8 ∧
    ∃ n, ReadUntil.Gathering 10 S n (w.current, w.reader)

theorem Intact.step (h : w.Intact) (hl : w.loses l = false) (hs : Steps w l v) : v.Intact := by
  obtain ⟨S, hvalid, n, hon⟩ := h.call
  have hgoes := hon.poll
  cases hs with
  | pending hpoll =>
    obtain ⟨new, hbuf, hsound⟩ := ReadUntil.consumed_of_poll h.sound hpoll
    rw [hpoll] at hgoes
    cases hgoes with
    | pending hon' hless =>
      refine ⟨?_, S, hvalid, n, hon'⟩
      rw [append_assoc, ← hbuf] at hsound
      exact hsound
  | @line f r _ line hpoll hline =>
    obtain ⟨new, hbuf, hsound⟩ := ReadUntil.consumed_of_poll h.sound hpoll
    rw [hpoll] at hgoes
    cases hgoes with
    | ready hgathered =>
      refine ⟨?_, r.rest, (valid_of_ends hvalid hgathered.stream hgathered.ends).2, _,
        .fresh hgathered.fed (Nat.le_refl _)⟩
      rw [chomp_of_lineOf hline, text_returned]
      rw [append_assoc, ← hbuf] at hsound
      exact (append_nil (text w ++ f.buf)).symm ▸ hsound
  | @noLine f r result hpoll hnone =>
    obtain ⟨new, hbuf, hsound⟩ := ReadUntil.consumed_of_poll h.sound hpoll
    rw [hpoll] at hgoes
    dsimp only at hgoes
    cases hgoes with
    | ready hgathered =>
      obtain ⟨fed, -, rfl, hS, hends⟩ := hgathered
      obtain ⟨hvalidp, hvalidr⟩ := valid_of_ends hvalid hS hends
      -- only an empty piece gives no line
      have hempty : f.buf = [] := by
        by_contra hne
        exact hnone (chomp f.buf) ((lineOf_of_valid hvalidp).trans (by rw [if_neg hne]))
      refine ⟨?_, r.rest, hvalidr, _, .fresh fed (Nat.le_refl _)⟩
      rw [append_assoc, ← hbuf, hempty] at hsound
      exact hsound
  | drop =>
    have hheld : w.current.buf = [] := by simpa [loses] using hl
    have hS := hon.stream
    refine ⟨?_, w.reader.rest, ?_, _, .fresh hon.fed (Nat.le_refl _)⟩
    · have hsound := h.sound
      rw [hheld] at hsound
      exact hsound
    · rwa [hS, hheld, nil_append] at hvalid

/-- **Lines are whole unless a call is dropped that holds bytes.**  As long as none is, the lines
returned, with the terminators they were stripped of, are what was consumed, whenever no call is in
progress.  Once one is, they are fewer bytes than were consumed, in every run from there on. -/
theorem keeps_unless_loses (capacity : ℕ) (hcapacity : 0 < capacity)
    (script : List (Poll (List UInt8))) (hchunked : (Source.ofScript script).Chunked)
    (hvalid : (Source.ofScript script).rest.toByteArray.IsValidUTF8) (w : Lines) :
    ((lines capacity script).ReachableUnder (fun w l => w.loses l = false) w → w.future = none →
      text w ++ w.reader.unread = w.reader.inner.produced) ∧
    ∀ l v, (lines capacity script).Reachable w → w.loses l = true → w.step l = some v →
      ∀ labels u, (lines capacity script).run v labels = some u →
        ∀ c, c ++ u.reader.unread = u.reader.inner.produced → (text u).length < c.length := by
  constructor
  · intro h hidle
    have hfed := BufReader.Fed.withCapacity hcapacity hchunked
    have hinit : (lines capacity script).init.Intact :=
      ⟨BufReader.Sound.withCapacity capacity script, _, hvalid, _, .fresh hfed (Nat.le_refl _)⟩
    have hintact : w.Intact :=
      System.inv_of_reachableUnder (I := Intact) hinit
        (fun _ _ _ hI hl hs => hI.step hl (steps_of_step hs)) h
    have hsound := hintact.sound
    rw [current, hidle] at hsound
    exact (append_nil (text w)) ▸ hsound.produced
  · intro l v hr hl hs labels u hrun c hc
    have hbehind := behind_of_loses (behind_of_reachable hr) hl (steps_of_step hs)
    exact (hbehind.run hrun).text_lt hc

def abc : List (Poll (List UInt8)) :=
  [.pending, .ready (.ok [97, 98]), .pending, .ready (.ok [99, 10])]

theorem keeps_unless_loses_of_abc :
    (∃ w, (lines 4 abc).ReachableUnder (fun w l => w.loses l = false) w ∧
      text w ++ w.reader.unread = w.reader.inner.produced ∧ text w = [97, 98, 99, 10]) ∧
    ∃ u, (lines 4 abc).run (lines 4 abc).init [.poll, .poll, .drop, .poll] = some u ∧
      (text u).length < [97, 98, 99, 10].length := by
  have hall := keeps_unless_loses 4 (by decide) abc (by decide)
    (ByteArray.validateUTF8_eq_true_iff.mp (by decide))
  constructor
  · have hr : (lines 4 abc).ReachableUnder (fun w l => w.loses l = false) _ :=
      ⟨[.poll, .drop, .poll, .poll], rfl, by decide⟩
    exact ⟨_, hr, (hall _).1 hr rfl, rfl⟩
  · have hw : ∃ w v u, (lines 4 abc).run (lines 4 abc).init [.poll, .poll] = some w ∧
        w.loses .drop ∧ w.step .drop = some v ∧ (lines 4 abc).run v [.poll] = some u ∧
        [97, 98, 99, 10] ++ u.reader.unread = u.reader.inner.produced :=
      ⟨_, _, _, rfl, rfl, rfl, rfl, rfl⟩
    obtain ⟨w, v, u, hw, hl, hs, hrun, hc⟩ := hw
    have hdrop : (lines 4 abc).run w [.drop, .poll] = some u :=
      System.run_cons_eq_some.mpr ⟨v, hs, hrun⟩
    exact ⟨u, (System.run_append hw).trans hdrop,
      (hall w).2 .drop v ⟨_, hw⟩ hl hs [.poll] u hrun _ hc⟩

/-- A call that is dropped after the first chunk: the line returned next is `c`, and `abc\n` was
consumed. -/
theorem exists_line_without_front :
    ∃ u, (lines 4 abc).run (lines 4 abc).init [.poll, .poll, .drop, .poll] = some u ∧
      u.future = none ∧ u.returned = [⟨[99], [10]⟩] ∧ u.reader.unread = [] ∧
      u.reader.inner.produced = [97, 98, 99, 10] :=
  ⟨_, rfl, rfl, rfl, rfl, rfl⟩

end Lines

end RustyTokio.AsyncIo

import RustyTokio.Io.Duplex

/-!
# `simplex`, and whether the end of a pipe is final

`simplex` (`io/simplex.rs`) makes one `Pipe` behind a mutex and two handles on it, each of which can
read and write it.  Its calls are those of `duplex` with a text of its own; `drop` sets both flags
under the one lock.
-/

namespace RustyTokio.InMemory

open Transition Pipe

namespace Simplex

def message : String := "the other half of this simplex pair was dropped"

/-- The pipe, which handles are there, and which were told of the end. -/
structure World where
  pipe : Pipe
  live : Duplex.Side → Bool
  ended : Duplex.Side → Bool

inductive Label where
  | pollRead (s : Duplex.Side) (waker room : ℕ)
  | pollWrite (s : Duplex.Side) (waker : ℕ) (data : List UInt8)
  | pollShutdown (s : Duplex.Side)
  | drop (s : Duplex.Side)
  deriving DecidableEq

namespace World

def pollRead (w : World) (s : Duplex.Side) (waker room : ℕ) : World :=
  let answer := w.pipe.pollRead waker room
  { w with
    pipe := answer.1
    ended := Function.update w.ended s
      (w.ended s || decide (0 < room ∧ answer.2.1 = .ready (.ok []))) }

def step (w : World) : Label → Option World
  | .pollRead s waker room => if w.live s then some (w.pollRead s waker room) else none
  | .pollWrite s waker data =>
    if w.live s then some { w with pipe := (w.pipe.pollWrite message waker data).1 } else none
  | .pollShutdown s => if w.live s then some { w with pipe := w.pipe.close.1 } else none
  | .drop s =>
    if w.live s then
      some { w with pipe := w.pipe.close.1.dropRead.1, live := Function.update w.live s false }
    else none

/-- A write puts a byte into the pipe while a handle is there that was told of the end. -/
def revives (w : World) : Label → Bool
  | .pollWrite _ _ data =>
    (w.live .a && w.ended .a || w.live .b && w.ended .b) && w.pipe.takes data
  | _ => false

end World

def simplex (maxBufSize : ℕ) : System World Label where
  init := ⟨.new maxBufSize, fun _ => true, fun _ => false⟩
  step := World.step

namespace World

variable {w v : World} {l : Label}

def AtEnd (w : World) : Prop :=
  ∀ s, w.live s = true → w.ended s = true → w.pipe.buf = [] ∧ w.pipe.writeHalfClosed = true

theorem atEnd_pollRead (h : w.AtEnd) (s : Duplex.Side) (waker room : ℕ) :
    (w.pollRead s waker room).AtEnd := by
  have hstays : w.pipe.buf = [] ∧ w.pipe.writeHalfClosed →
      (w.pollRead s waker room).pipe.buf = [] ∧
        (w.pollRead s waker room).pipe.writeHalfClosed := by
    intro hend
    rw [pollRead, pollRead_eof hend.1 hend.2]
    exact hend
  intro t hlive he
  obtain rfl | hts := eq_or_ne t s
  · have htold : w.ended t ∨
        0 < room ∧ (w.pipe.pollRead waker room).2.1 = .ready (.ok []) := by
      simpa [pollRead] using he
    rcases htold with hold | ⟨hr, hnone⟩
    · exact hstays (h t hlive hold)
    · exact hstays (eof_of_pollRead hr hnone)
  · have hold : w.ended t := by
      simpa [pollRead, Function.update_of_ne hts] using he
    exact hstays (h t hlive hold)

theorem pollWrite_closed (p : Pipe) (waker : ℕ) (data : List UInt8) :
    (p.pollWrite message waker data).1.writeHalfClosed = p.writeHalfClosed := by
  cases hd : p.readHalfDropped with
  | true => rw [pollWrite_broken hd]
  | false =>
    rcases Nat.lt_or_ge p.buf.length p.capacity with hf | hf
    · rw [pollWrite_put hd hf]
    · rw [pollWrite_wait hd hf]

theorem atEnd_of_step (hs : w.step l = some v) (hl : w.revives l = false) (h : w.AtEnd) :
    v.AtEnd := by
  cases l with
  | pollRead s waker room =>
    obtain ⟨-, rfl⟩ := of_guard hs
    exact atEnd_pollRead h s waker room
  | pollWrite s waker data =>
    obtain ⟨-, rfl⟩ := of_guard hs
    intro t hlive he
    obtain ⟨hb, hc⟩ := h t hlive he
    have hlive' : w.live t := hlive
    have he' : w.ended t := he
    have htakes : w.pipe.takes data = false := by
      cases t <;> simpa [revives, hlive', he'] using hl
    exact ⟨(buf_of_not_takes htakes).trans hb, (pollWrite_closed _ _ _).trans hc⟩
  | pollShutdown s =>
    obtain ⟨-, rfl⟩ := of_guard hs
    exact fun t hlive he => ⟨(h t hlive he).1, rfl⟩
  | drop s =>
    obtain ⟨-, rfl⟩ := of_guard hs
    intro t hlive he
    obtain rfl | hts := eq_or_ne t s
    · exact absurd hlive (by simp)
    · have hlive' : w.live t := by simpa [Function.update_of_ne hts] using hlive
      exact ⟨(h t hlive' he).1, rfl⟩

theorem eof_of_ended {maxBufSize : ℕ}
    (h : (simplex maxBufSize).ReachableUnder (fun w l => w.revives l = false) w)
    (s : Duplex.Side) (hlive : w.live s) (he : w.ended s) (waker room : ℕ) :
    (w.pipe.pollRead waker room).2.1 = .ready (.ok []) := by
  have hend : w.AtEnd :=
    System.inv_of_reachableUnder (I := AtEnd) (fun _ _ he => absurd he Bool.false_ne_true)
      (fun _ _ _ hI hl hs => atEnd_of_step hs hl hI) h
  obtain ⟨hb, hc⟩ := hend s hlive he
  rw [pollRead_eof hb hc]

theorem read_of_revives (hs : w.step l = some v) (hl : w.revives l) :
    ∃ s, v.live s ∧ v.ended s ∧ ∀ waker room, 0 < room →
      ∃ b bs, (v.pipe.pollRead waker room).2.1 = .ready (.ok (b :: bs)) := by
  cases l with
  | pollWrite t waker data =>
    simp only [revives, Bool.and_eq_true, Bool.or_eq_true] at hl
    obtain ⟨htold, htakes⟩ := hl
    obtain ⟨-, rfl⟩ := of_guard hs
    have hread : ∀ waker' room, 0 < room → ∃ b bs,
        ((w.pipe.pollWrite message waker data).1.pollRead waker' room).2.1 =
          .ready (.ok (b :: bs)) :=
      fun _ _ hr => exists_byte_of_takes htakes hr
    rcases htold with ⟨hlive, he⟩ | ⟨hlive, he⟩
    · exact ⟨.a, hlive, he, hread⟩
    · exact ⟨.b, hlive, he, hread⟩
  | pollRead | pollShutdown | drop => cases hl

end World

end Simplex

/-! ## The end is final until a write revives the pipe -/

/-- **Where the end is final.**  On both kinds of pipe: in every run in which no write puts a byte
into a pipe whose reader was told of the end, an end that was told is told so by every later read;
and right after a write that does, an end that was told reads bytes. -/
theorem eof_final (maxBufSize : ℕ) :
    (∀ w, (Duplex.duplex maxBufSize).ReachableUnder (fun w l => w.revives l = false) w →
      ∀ s, w.stage s = .live → (w.incoming s).ended = true →
        ∀ waker room, ((w.incoming s).pollRead waker room).2 = .ready (.ok [])) ∧
    (∀ w l v, (Duplex.duplex maxBufSize).step w l = some v → w.revives l = true →
      ∃ s, v.stage s = .live ∧ (v.incoming s).ended = true ∧ ∀ waker room, 0 < room →
        ∃ b bs, ((v.incoming s).pollRead waker room).2 = .ready (.ok (b :: bs))) ∧
    (∀ w, (Simplex.simplex maxBufSize).ReachableUnder (fun w l => w.revives l = false) w →
      ∀ s, w.live s = true → w.ended s = true →
        ∀ waker room, (w.pipe.pollRead waker room).2.1 = .ready (.ok [])) ∧
    ∀ w l v, (Simplex.simplex maxBufSize).step w l = some v → w.revives l = true →
      ∃ s, v.live s = true ∧ v.ended s = true ∧ ∀ waker room, 0 < room →
        ∃ b bs, (v.pipe.pollRead waker room).2.1 = .ready (.ok (b :: bs)) :=
  ⟨fun _ h => Duplex.World.eof_of_ended h, fun _ _ _ => Duplex.World.read_of_revives,
    fun _ h => Simplex.World.eof_of_ended h, fun _ _ _ => Simplex.World.read_of_revives⟩

theorem eof_final_of_shutdown :
    (∃ w, (Duplex.duplex 4).ReachableUnder (fun w l => w.revives l = false) w ∧
      (w.incoming .b).received = [1] ∧ ((w.incoming .b).pollRead 0 8).2 = .ready (.ok [])) ∧
    ∃ w, (Simplex.simplex 4).ReachableUnder (fun w l => w.revives l = false) w ∧
      (w.pipe.pollRead 0 8).2.1 = .ready (.ok []) := by
  have hd : ∃ w, (Duplex.duplex 4).ReachableUnder (fun w l => w.revives l = false) w ∧
      w.stage .b = .live ∧ (w.incoming .b).ended ∧ (w.incoming .b).received = [1] :=
    ⟨_, ⟨[.pollWrite .a 0 [1], .pollShutdown .a, .pollRead .b 1 8, .pollRead .b 1 8,
      .pollWrite .b 1 [2]], rfl, by decide⟩, rfl, rfl, rfl⟩
  have hs : ∃ w, (Simplex.simplex 4).ReachableUnder (fun w l => w.revives l = false) w ∧
      w.live .b ∧ w.ended .b :=
    ⟨_, ⟨[.pollWrite .a 0 [1], .pollShutdown .a, .pollRead .b 1 8, .pollRead .b 1 8],
      rfl, by decide⟩, rfl, rfl⟩
  obtain ⟨w, hw, hlive, he, hrec⟩ := hd
  obtain ⟨u, hu, hlive', he'⟩ := hs
  exact ⟨⟨w, hw, hrec, (eof_final 4).1 w hw .b hlive he 0 8⟩,
    ⟨u, hu, (eof_final 4).2.2.1 u hu .b hlive' he' 0 8⟩⟩

/-- A write after `poll_shutdown`: the reader is at the end, and then reads a byte. -/
theorem read_after_eof :
    (∃ u v, (Duplex.duplex 4).run (Duplex.duplex 4).init [.pollShutdown .a] = some u ∧
      ((u.incoming .b).pollRead 1 8).2 = .ready (.ok []) ∧
      (Duplex.duplex 4).run u [.pollRead .b 1 8, .pollWrite .a 0 [1]] = some v ∧
      ((v.incoming .b).pollRead 1 8).2 = .ready (.ok [1])) ∧
    ∃ u v, (Simplex.simplex 4).run (Simplex.simplex 4).init [.pollShutdown .a] = some u ∧
      (u.pipe.pollRead 1 8).2.1 = .ready (.ok []) ∧
      (Simplex.simplex 4).run u [.pollRead .b 1 8, .pollWrite .a 0 [1]] = some v ∧
      (v.pipe.pollRead 1 8).2.1 = .ready (.ok [1]) :=
  ⟨⟨_, _, rfl, rfl, rfl, rfl⟩, ⟨_, _, rfl, rfl, rfl, rfl⟩⟩

end RustyTokio.InMemory

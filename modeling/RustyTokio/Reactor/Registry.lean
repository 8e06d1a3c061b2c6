import RustyTokio.Transition.System
import Mathlib.Logic.Function.Basic

/-!
# Whose sockets the reactor knows

`register` and `deregister` of `src/io/reactor/epoll.rs`, as `src/io/tcp.rs` calls them.  A
`TcpStream` and a `TcpListener` deregister their socket when they are dropped, before it is closed.
A connect registers the socket while it is a local variable of the future: an error, or a drop of
the future, closes it and leaves its number in the registry.  The kernel gives out any number that
no open socket has.
-/

namespace RustyTokio.Reactor
namespace Registry

open Transition Function

/-- Who owns an open socket: a `TcpSocket`, a future that has registered it and waits for the
connection, a `TcpStream` or a `TcpListener`. -/
inductive Owner where
  | socket
  | connecting
  | stream
  | listener
  deriving DecidableEq

structure World where
  owner : ℕ → Option Owner
  registry : ℕ → Bool

/-- The calls, with the number of the socket; `ok` says that the system calls and `register` of the
call all succeed.  A call that fails drops the socket, which closes it. -/
inductive Label where
  | newSocket (fd : ℕ)
  | connectAddr (fd : ℕ) (ok : Bool)
  | connect (fd : ℕ) (ok : Bool)
  | bind (fd : ℕ) (ok : Bool)
  | listen (fd : ℕ) (ok : Bool)
  | accept (listener fd : ℕ) (ok : Bool)
  /-- The connect returns `Ok`, returns an error after `register`, or is dropped while pending. -/
  | connected (fd : ℕ)
  | connectFails (fd : ℕ)
  | dropConnect (fd : ℕ)
  | drop (fd : ℕ)
  deriving DecidableEq

namespace World

def own (w : World) (fd : ℕ) (owner : Option Owner) : World :=
  { w with owner := Function.update w.owner fd owner }

def register (w : World) (fd : ℕ) : World :=
  { w with registry := Function.update w.registry fd true }

def deregister (w : World) (fd : ℕ) : World :=
  { w with registry := Function.update w.registry fd false }

/-- The end of a call that registers the socket and makes this owner of it. -/
def enter (w : World) (fd : ℕ) (owner : Owner) (ok : Bool) : World :=
  if ok then (w.register fd).own fd (some owner) else w.own fd none

def step (w : World) : Label → Option World
  | .newSocket fd => if w.owner fd = none then some (w.own fd (some .socket)) else none
  | .connectAddr fd ok => if w.owner fd = none then some (w.enter fd .connecting ok) else none
  | .connect fd ok =>
    if w.owner fd = some .socket then some (w.enter fd .connecting ok) else none
  | .bind fd ok => if w.owner fd = none then some (w.enter fd .listener ok) else none
  | .listen fd ok => if w.owner fd = some .socket then some (w.enter fd .listener ok) else none
  | .accept listener fd ok =>
    if w.owner listener = some .listener ∧ w.owner fd = none then some (w.enter fd .stream ok)
    else none
  | .connected fd =>
    if w.owner fd = some .connecting then some (w.own fd (some .stream)) else none
  | .connectFails fd | .dropConnect fd =>
    if w.owner fd = some .connecting then some (w.own fd none) else none
  | .drop fd =>
    match w.owner fd with
    | some .socket => some (w.own fd none)
    | some .stream | some .listener => some ((w.deregister fd).own fd none)
    | _ => none

/-- A connect ends without a stream after it has registered its socket. -/
def abandons : Label → Bool
  | .connectFails _ | .dropConnect _ => true
  | _ => false

/-- The socket belongs to a stream, a listener or an unfinished connect. -/
def Live (w : World) (fd : ℕ) : Prop := ∃ owner, w.owner fd = some owner ∧ owner ≠ .socket

end World

def process : System World Label where
  init := ⟨fun _ => none, fun _ => false⟩
  step := World.step

namespace World

variable {w v : World} {l : Label} {fd : ℕ}

/-- What a step can do to its socket: the owner and the entry it leaves. -/
inductive Moves (w : World) (l : Label) (fd : ℕ) : Option Owner → Bool → Prop where
  | socket (ho : w.owner fd = none) : Moves w l fd (some .socket) (w.registry fd)
  | enters {owner} (ho : owner ≠ .socket) : Moves w l fd (some owner) true
  | closes (ho : w.owner fd = none ∨ w.owner fd = some .socket) :
      Moves w l fd none (w.registry fd)
  | connected (ho : w.owner fd = some .connecting) :
      Moves w l fd (some .stream) (w.registry fd)
  | abandons (hl : abandons l) (ho : w.owner fd = some .connecting) :
      Moves w l fd none (w.registry fd)
  | drops : Moves w l fd none false

def put (w : World) (fd : ℕ) (owner : Option Owner) (entry : Bool) : World :=
  ⟨Function.update w.owner fd owner, Function.update w.registry fd entry⟩

theorem own_eq_put (owner : Option Owner) : w.own fd owner = w.put fd owner (w.registry fd) := by
  rw [own, put, update_eq_self]

theorem moves_of_enter {owner : Owner} {ok : Bool} (hne : owner ≠ .socket)
    (ho : w.owner fd = none ∨ w.owner fd = some .socket) :
    ∃ o r, Moves w l fd o r ∧ w.enter fd owner ok = w.put fd o r := by
  cases ok with
  | true => exact ⟨_, _, .enters hne, rfl⟩
  | false => exact ⟨_, _, .closes ho, own_eq_put none⟩

theorem moves_of_step (hs : w.step l = some v) : ∃ fd o r, Moves w l fd o r ∧ v = w.put fd o r := by
  cases l with
  | newSocket fd =>
    obtain ⟨ho, rfl⟩ := of_guard hs
    exact ⟨fd, _, _, .socket ho, own_eq_put _⟩
  | connectAddr fd ok | bind fd ok =>
    obtain ⟨ho, rfl⟩ := of_guard hs
    exact ⟨fd, moves_of_enter (by decide) (.inl ho)⟩
  | connect fd ok | listen fd ok =>
    obtain ⟨ho, rfl⟩ := of_guard hs
    exact ⟨fd, moves_of_enter (by decide) (.inr ho)⟩
  | accept listener fd ok =>
    obtain ⟨ho, rfl⟩ := of_guard hs
    exact ⟨fd, moves_of_enter (by decide) (.inl ho.2)⟩
  | connected fd =>
    obtain ⟨ho, rfl⟩ := of_guard hs
    exact ⟨fd, _, _, .connected ho, own_eq_put _⟩
  | connectFails fd | dropConnect fd =>
    obtain ⟨ho, rfl⟩ := of_guard hs
    exact ⟨fd, _, _, .abandons rfl ho, own_eq_put _⟩
  | drop fd =>
    simp only [step] at hs
    split at hs
    next ho =>
      cases hs
      exact ⟨fd, _, _, .closes (.inr ho), own_eq_put _⟩
    · cases hs
      exact ⟨fd, _, _, .drops, rfl⟩
    · cases hs
      exact ⟨fd, _, _, .drops, rfl⟩
    · cases hs

theorem put_self (o : Option Owner) (r : Bool) :
    (w.put fd o r).owner fd = o ∧ (w.put fd o r).registry fd = r :=
  ⟨update_self .., update_self ..⟩

theorem put_of_ne {x : ℕ} (hx : x ≠ fd) (o : Option Owner) (r : Bool) :
    (w.put fd o r).owner x = w.owner x ∧ (w.put fd o r).registry x = w.registry x :=
  ⟨update_of_ne hx .., update_of_ne hx ..⟩

theorem live_of_step (h : ∀ fd, w.registry fd → w.Live fd) (hl : abandons l = false)
    (hs : w.step l = some v) : ∀ fd, v.registry fd → v.Live fd := by
  obtain ⟨fd, o, r, hm, rfl⟩ := moves_of_step hs
  intro x hx
  obtain rfl | hxf := eq_or_ne x fd
  · rw [Live, (put_self o r).1]
    rw [(put_self o r).2] at hx
    cases hm with
    | socket ho =>
      obtain ⟨owner, howner, -⟩ := h x hx
      cases ho.symm.trans howner
    | enters ho => exact ⟨_, rfl, ho⟩
    | closes ho =>
      obtain ⟨owner, howner, hne⟩ := h x hx
      rcases ho with ho | ho
      · cases ho.symm.trans howner
      · exact absurd (Option.some.inj (ho.symm.trans howner)).symm hne
    | connected ho => exact ⟨_, rfl, by decide⟩
    | abandons ha ho => cases hl.symm.trans ha
    | drops => cases hx
  · rw [Live, (put_of_ne hxf o r).1]
    exact h x ((put_of_ne hxf o r).2 ▸ hx)

theorem registered_of_step (h : ∀ fd, w.owner fd = some .connecting → w.registry fd)
    (hs : w.step l = some v) : ∀ fd, v.owner fd = some .connecting → v.registry fd := by
  obtain ⟨fd, o, r, hm, rfl⟩ := moves_of_step hs
  intro x hx
  obtain rfl | hxf := eq_or_ne x fd
  · rw [(put_self o r).1] at hx
    rw [(put_self o r).2]
    cases hm with
    | enters ho => rfl
    | socket ho | closes ho | connected ho | abandons ha ho | drops => simp at hx
  · rw [(put_of_ne hxf o r).1] at hx
    rw [(put_of_ne hxf o r).2]
    exact h x hx

theorem registered_of_reachable (h : process.Reachable w) :
    ∀ fd, w.owner fd = some .connecting → w.registry fd :=
  System.inv_of_reachable
    (I := fun w : World => ∀ fd, w.owner fd = some .connecting → w.registry fd)
    (by simp [process]) (fun _ _ _ => registered_of_step) h

/-- **The registry knows live sockets only, unless a connect is abandoned.**  As long as no connect
fails or is dropped after it has registered its socket, every number in the registry belongs to a
live stream, a live listener or an unfinished connect.  A connect that is leaves its number behind,
with no open socket to it. -/
theorem registry_live_unless_abandons (w : World) :
    (process.ReachableUnder (fun _ l => abandons l = false) w →
      ∀ fd, w.registry fd = true → w.Live fd) ∧
    ∀ l v, process.Reachable w → abandons l = true → process.step w l = some v →
      ∃ fd, v.registry fd = true ∧ v.owner fd = none := by
  constructor
  · intro h
    exact System.inv_of_reachableUnder
      (I := fun w : World => ∀ fd, w.registry fd → w.Live fd)
      (fun fd hr => absurd hr Bool.false_ne_true) (fun _ _ _ hw hl hs => live_of_step hw hl hs) h
  · intro l v h hl hs
    cases l with
    | connectFails fd | dropConnect fd =>
      obtain ⟨ho, rfl⟩ := of_guard hs
      exact ⟨fd, registered_of_reachable h fd ho, update_self ..⟩
    | _ => cases hl

theorem registry_live_after_accept :
    ∃ w, process.ReachableUnder (fun _ l => abandons l = false) w ∧ w.registry 3 = true ∧
      w.Live 3 := by
  have hw : ∃ w, process.ReachableUnder (fun _ l => abandons l = false) w ∧ w.registry 3 :=
    ⟨_, ⟨[.connectAddr 3 true, .bind 4 true, .accept 4 5 true, .connected 3], rfl, by decide⟩, rfl⟩
  obtain ⟨w, hr, hreg⟩ := hw
  exact ⟨w, hr, hreg, (registry_live_unless_abandons w).1 hr 3 hreg⟩

/-- A connect that fails, and one that is dropped, leave 3 and 4 in the registry. -/
theorem exists_stale_entries : ∃ w, process.Reachable w ∧ w.registry 3 = true ∧ w.owner 3 = none ∧
      w.registry 4 = true ∧ w.owner 4 = none :=
  ⟨_, ⟨[.connectAddr 3 true, .newSocket 4, .connect 4 true, .connectFails 3, .dropConnect 4], rfl⟩,
    rfl, rfl, rfl, rfl⟩

end World
end Registry
end RustyTokio.Reactor

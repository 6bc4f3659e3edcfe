import Libep.Sock

/-!
# The descriptors and the address lists of a process

`replay` runs the calls of a function on the descriptors that are open and on the address lists that are
held. It has no result when the calls close a descriptor that they did not open, or that is closed, or free
a list that they did not get, or that is freed.
-/

namespace Libep

/-- What is known of an open descriptor. -/
structure SockState where
  /-- It was opened by the calls. -/
  mine : Bool
  nonblock : Bool
  bound : Option SockAddr
  /-- What `connect` returned, and where the descriptor was bound then. -/
  conn : Option (SysRet × Option SockAddr)
  listening : Bool
  deriving DecidableEq

/-- The descriptors that are open, and the address lists that the calls hold. -/
structure SockWorld where
  fds : Nat → Option SockState
  lists : List Nat

namespace SockWorld

/-- The world before the calls. -/
def start (opened : Nat → Bool) : SockWorld :=
  ⟨fun s => if opened s then some ⟨false, false, none, none, false⟩ else none, []⟩

/-- Another state of the descriptor `s`. -/
def put (w : SockWorld) (s : Nat) (st : Option SockState) : SockWorld :=
  { w with fds := Function.update w.fds s st }

/-- A call that changes the state of a descriptor, if it succeeds. -/
def modify (w : SockWorld) (s : Nat) (ok : Bool) (f : SockState → SockState) : SockWorld :=
  if ok then w.put s ((w.fds s).map f) else w

variable {w : SockWorld} {s : Nat} {st st' : Option SockState}

@[simp] theorem put_fds : (w.put s st).fds s = st := Function.update_self ..

@[simp] theorem put_put : (w.put s st).put s st' = w.put s st' := by simp [put]

theorem put_self (h : w.fds s = st) : w.put s st = w := by
  cases w
  simp [put, ← h]

theorem start_fds_none {opened : Nat → Bool} (h : opened s = false) : (start opened).fds s = none := by
  simp [start, h]

theorem opened_of_start {opened : Nat → Bool} (h : (start opened).fds s = none) : opened s = false := by
  cases ho : opened s with
  | false => rfl
  | true => simp [start, ho] at h

end SockWorld

/-- The descriptor was opened, and nothing was done with it. -/
def newSocket : SockState := ⟨true, false, none, none, false⟩

/-- What a call does to the world. -/
def SysCall.replay (w : SockWorld) : SysCall → Option SockWorld
  | getaddrinfo _ _ _ (some l) => some { w with lists := l :: w.lists }
  | freeaddrinfo (some l) => if l ∈ w.lists then some { w with lists := w.lists.erase l } else none
  | freeaddrinfo none => none
  | socket _ _ _ (some s) => some (w.put s (some newSocket))
  | setfl s flags ok =>
    some (w.modify s ok fun st => { st with nonblock := decide (flags &&& oNonblock = oNonblock) })
  | bind s addr ok => some (w.modify s ok fun st => { st with bound := some addr })
  | connect s _ ret => some (w.modify s true fun st => { st with conn := some (ret, st.bound) })
  | listen s _ ok => some (w.modify s ok fun st => { st with listening := true })
  | close s => if (w.fds s).any SockState.mine then some (w.put s none) else none
  | getaddrinfo _ _ _ none | socket _ _ _ none | setsockopt .. | getfl .. | chmod .. => some w

/-- What calls do to the world. -/
def replay : SockWorld → List SysCall → Option SockWorld
  | w, [] => some w
  | w, c :: cs => (c.replay w).bind (replay · cs)

theorem replay_append {w : SockWorld} {cs cs' : List SysCall} :
    replay w (cs ++ cs') = (replay w cs).bind (replay · cs') := by
  induction cs generalizing w with
  | nil => rfl
  | cons c cs ih =>
    show ((c.replay w).bind (replay · (cs ++ cs'))) = _
    cases h : c.replay w with
    | none => simp [replay, h]
    | some w' => simp [replay, h, ih]

namespace Sys
variable {α β : Type}

@[simp] theorem ret_pure (a : α) : (pure a : Sys α).ret = a := rfl

@[simp] theorem ret_bind (x : Sys α) (f : α → Sys β) : (x >>= f).ret = (f x.ret).ret := rfl

@[simp] theorem calls_bind (x : Sys α) (f : α → Sys β) :
    (x >>= f).calls = x.calls ++ (f x.ret).calls := rfl

/-- The function takes the world `w` to `w'` and returns `a`. -/
def Runs (x : Sys α) (w : SockWorld) (a : α) (w' : SockWorld) : Prop :=
  x.ret = a ∧ replay w x.calls = some w'

variable {x : Sys α} {f : α → Sys β} {w w' w'' : SockWorld} {a : α} {b : β} {c : SysCall}

theorem Runs.pure : (Pure.pure a : Sys α).Runs w a w := ⟨rfl, rfl⟩

theorem Runs.bind (H : x.Runs w a w') (H' : (f a).Runs w' b w'') : (x >>= f).Runs w b w'' := by
  obtain ⟨rfl, h⟩ := H
  refine ⟨H'.1, ?_⟩
  rw [calls_bind, replay_append, h]
  exact H'.2

theorem Runs.sys (h : c.replay w = some w') : (Libep.sys c a).Runs w a w' :=
  ⟨rfl, by simp [Libep.sys, replay, h]⟩

theorem Runs.close {s : Nat} {st : SockState} (h : w.fds s = some st) (hst : st.mine) :
    (sysClose s).Runs w () (w.put s none) :=
  .sys (by simp [SysCall.replay, h, hst])

/-- `close` of a descriptor that was opened meanwhile. -/
theorem Runs.close_put {s : Nat} {st : SockState} (h : w.fds s = none) (hst : st.mine = true) :
    (sysClose s).Runs (w.put s (some st)) () w := by
  have := Runs.close (w := w.put s (some st)) SockWorld.put_fds hst
  rwa [SockWorld.put_put, SockWorld.put_self h] at this

end Sys

end Libep

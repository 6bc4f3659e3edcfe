import Libep.Machine

/-!
# Transfers over a socket (`ep_read` and `ep_write` of `ep_sock.h`)

What the kernel answers is an input: the outcome of the `k`-th call, where `none` is -1. `buf` is a block of
memory, and a pointer into it is its distance from the start; the kernel faults when it is to move bytes from
or to any other place. `int` is `Int`.
-/

namespace Libep

/-- A call of `read` or `write`: where it starts, the size it is given, what it returns, and the bytes it
moves. -/
structure IoCall where
  fd : Int
  buf : Int
  count : Int
  ret : Int
  data : List UInt8
  deriving DecidableEq

/-- What `read` and `write` return when they move `n` bytes, or fail. -/
def ioRet : Option Nat → Int
  | some n => n
  | none => -1

/-- The memory after `read` stores at `mem + p` the bytes it has, if it does not fail. -/
def sysRead (mem : List UInt8) (p : Int) (bytes : Option (List UInt8)) : Res (List UInt8) :=
  let bs := bytes.getD []
  if bs = [] then return mem
  else if 0 ≤ p ∧ p + bs.length ≤ mem.length then
    return mem.take p.toNat ++ bs ++ mem.drop (p.toNat + bs.length)
  else .error .invalid

/-- The bytes `write` takes from `mem + p`, if it does not fail. -/
def sysWrite (mem : List UInt8) (p : Int) (n : Option Nat) : Res (List UInt8) :=
  let n := n.getD 0
  if n = 0 then return []
  else if 0 ≤ p ∧ p + n ≤ mem.length then return (mem.drop p.toNat).take n
  else .error .invalid

section
variable (fd count : Int)

/-- The loop of `ep_read`: also the memory after it, and the calls it makes. -/
def readLoop (outcomes : Nat → Option (List UInt8)) : (fuel k : Nat) → (total buf : Int) →
    List UInt8 → Res (Int × List UInt8 × List IoCall)
  | 0, _, _, _, _ => .error .fuel
  | fuel + 1, k, total, buf, mem =>
    if total = count then return (total, mem, [])
    else do
      let mem ← sysRead mem buf (outcomes k)
      let n := ioRet ((outcomes k).map List.length)
      let c : IoCall := ⟨fd, buf, count - total, n, (outcomes k).getD []⟩
      if n = 0 then return (total, mem, [c])
      else do
        -- the loop goes on after a failure
        let total := if n = -1 then -1 else total
        let (ret, mem, cs) ← readLoop outcomes fuel (k + 1) (total + n) (buf + n) mem
        return (ret, mem, c :: cs)

/-- `ep_read`. -/
def epRead (outcomes : Nat → Option (List UInt8)) (fuel : Nat) (mem : List UInt8) :
    Res (Int × List UInt8 × List IoCall) :=
  readLoop fd count outcomes fuel 0 0 0 mem

/-- The loop of `ep_write`: also the calls it makes. -/
def writeLoop (outcomes : Nat → Option Nat) (mem : List UInt8) : (fuel k : Nat) → (total buf : Int) →
    Res (Int × List IoCall)
  | 0, _, _, _ => .error .fuel
  | fuel + 1, k, total, buf =>
    if total = count then return (total, [])
    else do
      let data ← sysWrite mem buf (outcomes k)
      let n := ioRet (outcomes k)
      let c : IoCall := ⟨fd, buf, count - total, n, data⟩
      if n = 0 then return (total, [c])
      else if n = -1 then return (-1, [c])
      else do
        let (ret, cs) ← writeLoop outcomes mem fuel (k + 1) (total + n) (buf + n)
        return (ret, c :: cs)

/-- `ep_write`. -/
def epWrite (outcomes : Nat → Option Nat) (fuel : Nat) (mem : List UInt8) : Res (Int × List IoCall) :=
  writeLoop fd count outcomes mem fuel 0 0 0

end

end Libep

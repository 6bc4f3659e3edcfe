import Libep.Machine

/-!
# The skip list (`skiplist.h`)

The code of `__SKIPLIST_TYPE` and `__SKIPLIST_IMPL` over an explicit memory of nodes, for any
number of levels and any score type. A node is named by its address `α`; the header is a place of
its own, since its `forward` array is written like a node's but it never is one.

`fuel` bounds the iterations of each `while` loop. The `for` loops over the levels recurse on the
number of levels left, so that `i + 1` in a pattern is the loop at level `i`.
-/

namespace Libep

/-- A place with a `forward` array: the header of the list, or a node. -/
inductive Ref (α : Type) where
  | header
  | node (a : α)
  deriving DecidableEq

/-- `skiplist_##name##_node_t`. -/
structure SkipNode (σ : Type) (α : Type) where
  score : σ
  forward : Nat → Option α

/-- `skiplist_##name##_t`, with the memory of the nodes: their contents, and which of them are
allocated. -/
structure SkipList (σ : Type) (α : Type) where
  header : Nat → Option α
  node : α → SkipNode σ α
  live : α → Bool

namespace SkipList
variable {σ α : Type}

/-- The value of `x->forward[i]`. -/
def next (s : SkipList σ α) (i : Nat) : Ref α → Option α
  | .header => s.header i
  | .node a => (s.node a).forward i

/-- `x` may be accessed. -/
def Valid (s : SkipList σ α) : Ref α → Bool
  | .header => true
  | .node a => s.live a

/-- Read `x->forward[i]`. -/
def forward (s : SkipList σ α) (x : Ref α) (i : Nat) : Res (Option α) :=
  if s.Valid x then .ok (s.next i x) else .error .invalid

/-- Read `a->score`. -/
def score (s : SkipList σ α) (a : α) : Res σ :=
  if s.live a then .ok (s.node a).score else .error .invalid

variable [DecidableEq α]

/-- The memory after `x->forward[i] = v`. -/
def set (s : SkipList σ α) (x : Ref α) (i : Nat) (v : Option α) : SkipList σ α :=
  match x with
  | .header => { s with header := Function.update s.header i v }
  | .node a =>
    let n := { s.node a with forward := Function.update (s.node a).forward i v }
    { s with node := Function.update s.node a n }

/-- Write `x->forward[i] = v`. -/
def setForward (s : SkipList σ α) (x : Ref α) (i : Nat) (v : Option α) : Res (SkipList σ α) :=
  if s.Valid x then .ok (s.set x i v) else .error .invalid

/-- The memory after `a->score = c`. -/
def setScore (s : SkipList σ α) (a : α) (c : σ) : SkipList σ α :=
  { s with node := Function.update s.node a { s.node a with score := c } }

/-- `while (x->forward[i] && test(x->forward[i])) x = x->forward[i];` -/
def walk (s : SkipList σ α) (test : α → Res Bool) (i : Nat) : Nat → Ref α → Res (Ref α)
  | 0, _ => .error .fuel
  | fuel + 1, x => do
    match ← s.forward x i with
    | none => return x
    | some y => if ← test y then walk s test i fuel (.node y) else return x

variable [LinearOrder σ]

/-- `y->score <= node->score` -/
def scoreLe (s : SkipList σ α) (node y : α) : Res Bool := do
  return decide ((← s.score y) ≤ (← s.score node))

/-- `y->score < node->score` -/
def scoreLt (s : SkipList σ α) (node y : α) : Res Bool := do
  return decide ((← s.score y) < (← s.score node))

/-- `y->score == node->score` -/
def scoreEq (s : SkipList σ α) (node y : α) : Res Bool := do
  return decide ((← s.score y) = (← s.score node))

/-- The inner `while` of `delete`, from `y` on: the `y` with `y->forward[i] == node`, at which it
breaks, if it does. -/
def findEqual (s : SkipList σ α) (node : α) (i : Nat) : Nat → Ref α → Res (Option (Ref α))
  | 0, _ => .error .fuel
  | fuel + 1, y => do
    match ← s.forward y i with
    | none => return none
    | some z =>
      if ← s.scoreEq node z then
        if z = node then return some y else findEqual s node i fuel (.node z)
      else return none

end SkipList

open SkipList

/-- `skiplist_for_each`: the nodes it visits from the pointer `p` on. -/
def skiplistForEach {σ α : Type} (s : SkipList σ α) : (fuel : Nat) → Option α → Res (List α)
  | 0, _ => .error .fuel
  | _ + 1, none => return []
  | fuel + 1, some a => do
    let l ← skiplistForEach s fuel (← s.forward (.node a) 0)
    return a :: l

section
variable {σ α S : Type} (sl : S → SkipList σ α) (fn : S → α → Res S)

/-- The loop of `skiplist_for_each_clear`. The function works on a state `S` that the list is a part of. -/
def clearLoop : Nat → S → (node : Option α) → Res S
  | 0, _, _ => .error .fuel
  | _ + 1, s, none => return s
  | k + 1, s, some node => do
    let n ← (sl s).forward (.node node) 0
    clearLoop k (← fn s node) n

end

variable {σ α : Type} [DecidableEq α] [LinearOrder σ] (level fuel : Nat)

/-- `skiplist_##name##_node_init`: all links `NULL`. -/
def skiplistNodeInit (s : SkipList σ α) (node : α) (score : σ) : SkipList σ α :=
  { s with node := Function.update s.node node { score, forward := fun _ => none } }

/-- `skiplist_##name##_init`: all links of the header `NULL`. -/
def skiplistInit (s : SkipList σ α) : SkipList σ α := { s with header := fun _ => none }

/-- `skiplist_for_each_clear`; `set` replaces the list of a state. -/
def skiplistForEachClear {S : Type} (sl : S → SkipList σ α) (set : S → SkipList σ α → S)
    (fn : S → α → Res S) (s : S) : Res S := do
  let s ← clearLoop sl fn fuel s (← (sl s).forward .header 0)
  return set s (skiplistInit (sl s))

/-- `skiplist_##name##_random_level`. `random()` is an input: `hits` calls in a row pass the test
of the loop, and the next one fails it. -/
def skiplistRandomLevel : (hits : Nat) → Nat
  | 0 => 1
  | hits + 1 => skiplistRandomLevel hits + 1

/-- The first loop of `insert`, `i` from `l + k - 1` down to `l`: levels that `node` does not
reach. -/
def insertAbove (node : α) (l : Nat) : Nat → Ref α → SkipList σ α → Res (Ref α × SkipList σ α)
  | 0, x, s => return (x, s)
  | k + 1, x, s => do
    let x ← s.walk (s.scoreLe node) (l + k) fuel x
    let s ← s.setForward (.node node) (l + k) none
    insertAbove node l k x s

/-- The second loop of `insert`: levels `node` is linked at. -/
def insertBelow (node : α) : Nat → Ref α → SkipList σ α → Res (SkipList σ α)
  | 0, _, s => return s
  | i + 1, x, s => do
    let x ← s.walk (s.scoreLe node) i fuel x
    let s ← s.setForward (.node node) i (← s.forward x i)
    let s ← s.setForward x i (some node)
    insertBelow node i x s

/-- `skiplist_##name##_insert`; `hits` is the input of its `random_level`. -/
def skiplistInsert (s : SkipList σ α) (node : α) (hits : Nat) : Res (SkipList σ α) := do
  let l := skiplistRandomLevel hits
  let l := if l > level then level else l
  let (x, s) ← insertAbove fuel node l (level - l) .header s
  insertBelow fuel node l x s

/-- The loop of `delete` over the levels. -/
def deleteLevels (node : α) : Nat → Ref α → SkipList σ α → Res (SkipList σ α)
  | 0, _, s => return s
  | i + 1, x, s => do
    let x ← s.walk (s.scoreLt node) i fuel x
    match ← s.findEqual node i fuel x with
    | some y => do
      let s ← s.setForward y i (← s.forward (.node node) i)
      deleteLevels node i y s
    | none => deleteLevels node i x s

/-- `skiplist_##name##_delete`. -/
def skiplistDelete (s : SkipList σ α) (node : α) : Res (SkipList σ α) :=
  deleteLevels fuel node level .header s

/-- The loop of `extract_lte` over the levels; also the last value of `last`. -/
def extractLevels (score : σ) : Nat → Ref α → SkipList σ α → Res (Ref α × SkipList σ α)
  | 0, last, s => return (last, s)
  | i + 1, last, s => do
    let last ← s.walk (fun y => do return decide ((← s.score y) ≤ score)) i fuel last
    let s ← s.setForward .header i (← s.forward last i)
    extractLevels score i last s

/-- `skiplist_##name##_extract_lte`. -/
def skiplistExtractLte (s : SkipList σ α) (score : σ) : Res (Option α × SkipList σ α) := do
  let first ← s.forward .header 0
  if first.isSome then
    let (last, s) ← extractLevels fuel score level .header s
    if last ≠ .header then
      let s ← s.setForward last 0 none
      return (first, s)
    else return (none, s)
  else return (none, s)

/-- `if (!last && prev->forward[i] && prev->forward[i]->score >= min) last = prev;`: the value of `last`
after it. -/
def rangeStart (min : σ) (i : Nat) (prev : Ref α) (last : Option (Ref α)) (s : SkipList σ α) :
    Res (Option (Ref α)) := do
  if last.isSome then return last
  else
    match ← s.forward prev i with
    | some y => if min ≤ (← s.score y) then return some prev else return none
    | none => return none

/-- The loop of `extract` over the levels; also the last values of `prev` and `last`. -/
def rangeLevels (min max : σ) : Nat → Ref α → Option (Ref α) → SkipList σ α →
    Res (Ref α × Option (Ref α) × SkipList σ α)
  | 0, prev, last, s => return (prev, last, s)
  | i + 1, prev, last, s => do
    let prev ← s.walk (fun y => do return decide ((← s.score y) < min)) i fuel prev
    match ← rangeStart min i prev last s with
    | some last => do
      let last ← s.walk (fun y => do return decide ((← s.score y) ≤ max)) i fuel last
      let s ← s.setForward prev i (← s.forward last i)
      rangeLevels min max i prev (some last) s
    | none => rangeLevels min max i prev none s

/-- `skiplist_##name##_extract`. It reads the score of `prev->forward[0]`, and writes a link of `last`,
without a test for `NULL`. -/
def skiplistExtract (s : SkipList σ α) (min max : σ) : Res (Option α × SkipList σ α) := do
  let (prev, last, s) ← rangeLevels fuel min max level .header none s
  match ← s.forward prev 0 with
  | some ret =>
    if min ≤ (← s.score ret) then
      match last with
      | some last => return (some ret, ← s.setForward last 0 none)
      | none => .error .invalid
    else return (none, s)
  | none => .error .invalid

/-- The loop of `shift` over the levels. -/
def shiftLevels (ret : α) : Nat → SkipList σ α → Res (SkipList σ α)
  | 0, s => return s
  | i + 1, s => do
    let s ← s.setForward .header i (← s.forward (.node ret) i)
    shiftLevels ret i s

/-- `skiplist_##name##_shift`. -/
def skiplistShift (s : SkipList σ α) : Res (Option α × SkipList σ α) := do
  match ← s.forward .header 0 with
  | some ret => return (some ret, ← shiftLevels ret level s)
  | none => return (none, s)

end Libep

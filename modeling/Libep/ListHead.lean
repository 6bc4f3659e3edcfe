import Libep.Machine

/-!
# Doubly linked lists (`list.h`)

A `struct list_head` is named by its address, a value of `β`; `none` is `NULL`.
-/

namespace Libep

/-- The memory of the `struct list_head`s: their links, and which of them are allocated. -/
structure ListMem (β : Type) where
  next : β → Option β
  prev : β → Option β
  live : β → Bool

section
variable {β : Type} (m : ListMem β)

namespace ListMem

/-- The node a pointer points to, when it may be accessed. -/
def deref : Option β → Res β
  | some p => if m.live p then .ok p else .error .invalid
  | none => .error .invalid

/-- `p->next` -/
def getNext (p : Option β) : Res (Option β) := do return m.next (← m.deref p)

/-- `p->prev` -/
def getPrev (p : Option β) : Res (Option β) := do return m.prev (← m.deref p)

variable [DecidableEq β]

/-- `p->next = v` -/
def setNext (p v : Option β) : Res (ListMem β) := do
  return { m with next := Function.update m.next (← m.deref p) v }

/-- `p->prev = v` -/
def setPrev (p v : Option β) : Res (ListMem β) := do
  return { m with prev := Function.update m.prev (← m.deref p) v }

end ListMem

/-- `list_empty`. -/
def listEmpty [DecidableEq β] (head : β) : Res Bool := do
  return (← m.getNext (some head)) = some head

variable [DecidableEq β]

/-- `INIT_LIST_HEAD`. -/
def initListHead (ptr : β) : Res (ListMem β) := do
  let m ← m.setNext (some ptr) (some ptr)
  m.setPrev (some ptr) (some ptr)

/-- `__list_add`. -/
def listAddBetween (new_node prev next : Option β) : Res (ListMem β) := do
  let m ← m.setPrev next new_node
  let m ← m.setNext new_node next
  let m ← m.setPrev new_node prev
  m.setNext prev new_node

/-- `list_add`. -/
def listAdd (new_node head : β) : Res (ListMem β) := do
  listAddBetween m (some new_node) (some head) (← m.getNext (some head))

/-- `list_add_tail`. -/
def listAddTail (new_node head : β) : Res (ListMem β) := do
  listAddBetween m (some new_node) (← m.getPrev (some head)) (some head)

/-- `__list_del`. -/
def listDelBetween (prev next : Option β) : Res (ListMem β) := do
  let m ← m.setPrev next prev
  m.setNext prev next

/-- `list_del`. -/
def listDel (entry : Option β) : Res (ListMem β) := do
  let m ← listDelBetween m (← m.getPrev entry) (← m.getNext entry)
  let m ← m.setNext entry none
  m.setPrev entry none

/-- `list_del_init`. -/
def listDelInit (entry : β) : Res (ListMem β) := do
  let m ← listDelBetween m (← m.getPrev (some entry)) (← m.getNext (some entry))
  initListHead m entry

/-- `list_move`. -/
def listMove (list head : β) : Res (ListMem β) := do
  let m ← listDelBetween m (← m.getPrev (some list)) (← m.getNext (some list))
  listAdd m list head

/-- `list_move_tail`. -/
def listMoveTail (list head : β) : Res (ListMem β) := do
  let m ← listDelBetween m (← m.getPrev (some list)) (← m.getNext (some list))
  listAddTail m list head

/-- `list_is_last`. -/
def listIsLast (list head : β) : Res Bool := do
  return (← m.getNext (some list)) = some head

/-- `__list_splice`. -/
def listSpliceBetween (list head : β) : Res (ListMem β) := do
  let first ← m.getNext (some list)
  let last ← m.getPrev (some list)
  let at_ ← m.getNext (some head)
  let m ← m.setPrev first (some head)
  let m ← m.setNext (some head) first
  let m ← m.setNext last at_
  m.setPrev at_ last

/-- `list_splice`. -/
def listSplice (list head : β) : Res (ListMem β) := do
  if ← listEmpty m list then return m else listSpliceBetween m list head

/-- `list_splice_init`. -/
def listSpliceInit (list head : β) : Res (ListMem β) := do
  if ← listEmpty m list then return m
  else
    let m ← listSpliceBetween m list head
    initListHead m list

/-- A loop over the links that `step` reads: the places it visits from `pos` on. -/
def forEachFrom (step : Option β → Res (Option β)) (head : β) :
    (fuel : Nat) → (pos : Option β) → Res (List β)
  | 0, _ => .error .fuel
  | fuel + 1, pos =>
    if pos = some head then return []
    else do
      let a ← m.deref pos
      let l ← forEachFrom step head fuel (← step pos)
      return a :: l

/-- `list_for_each`: the places it visits. -/
def listForEach (head : β) (fuel : Nat) : Res (List β) := do
  forEachFrom m m.getNext head fuel (← m.getNext (some head))

/-- `list_for_each_prev`: the places it visits. -/
def listForEachPrev (head : β) (fuel : Nat) : Res (List β) := do
  forEachFrom m m.getPrev head fuel (← m.getPrev (some head))

end

end Libep

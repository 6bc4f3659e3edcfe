import Libep.Machine

/-!
# Singly linked lists (`singly_list.h`)

Several lists share one memory of nodes; `Q` names the lists. A node is named by its address. The field
`end` of a list is a pointer to a link, so the links are a memory of their own: that of a list, its
`begin`, and that of a node, its `next`.
-/

namespace Libep

/-- A link, as a `singly_list_node_t **` points to it. -/
inductive SinglyRef (Q α : Type) where
  | begin (head : Q)
  | next (a : α)
  deriving DecidableEq

/-- The `singly_list_head_t`s and the `singly_list_node_t`s. -/
structure SinglyMem (Q α : Type) where
  link : SinglyRef Q α → Option α
  end_ : Q → SinglyRef Q α

variable {Q α : Type} [DecidableEq Q] [DecidableEq α]

namespace SinglyMem
variable (m : SinglyMem Q α)

/-- `*r = v` -/
def setLink (r : SinglyRef Q α) (v : Option α) : SinglyMem Q α :=
  { m with link := Function.update m.link r v }

/-- `head->end = r` -/
def setEnd (head : Q) (r : SinglyRef Q α) : SinglyMem Q α :=
  { m with end_ := Function.update m.end_ head r }

end SinglyMem

variable (m : SinglyMem Q α)

/-- `INIT_SINGLY_LIST_HEAD`. -/
def initSinglyListHead (ptr : Q) : SinglyMem Q α :=
  let m := m.setLink (.begin ptr) none
  m.setEnd ptr (.begin ptr)

/-- `singly_list_push`. -/
def singlyListPush (new_node : α) (head : Q) : SinglyMem Q α :=
  let m := m.setLink (m.end_ head) (some new_node)
  let m := m.setEnd head (.next new_node)
  m.setLink (.next new_node) none

/-- `singly_list_unshift`. -/
def singlyListUnshift (new_node : α) (head : Q) : SinglyMem Q α :=
  if (m.link (.begin head)).isSome then
    let m := m.setLink (.next new_node) (m.link (.begin head))
    m.setLink (.begin head) (some new_node)
  else
    let m := m.setLink (.begin head) (some new_node)
    let m := m.setEnd head (.next new_node)
    m.setLink (.next new_node) none

/-- `singly_list_shift`. -/
def singlyListShift (head : Q) : Option α × SinglyMem Q α :=
  match m.link (.begin head) with
  | some ret =>
    let m := m.setLink (.begin head) (m.link (.next ret))
    let m := if (m.link (.begin head)).isSome then m.setEnd head (.begin head) else m
    (some ret, m)
  | none => (none, m)

/-- `singly_list_empty`. -/
def singlyListEmpty (head : Q) : Bool := (m.link (.begin head)).isNone

/-- `singly__list_splice`. -/
def singlyListSpliceTail (list head : Q) : SinglyMem Q α :=
  m.setLink (m.end_ head) (m.link (.begin list))

/-- `singly_list_splice`. -/
def singlyListSplice (list head : Q) : SinglyMem Q α :=
  if singlyListEmpty m list then m else singlyListSpliceTail m list head

/-- `singly_list_splice_init`. -/
def singlyListSpliceInit (list head : Q) : SinglyMem Q α :=
  if singlyListEmpty m list then m
  else initSinglyListHead (singlyListSpliceTail m list head) list

end Libep

import Libep.SinglyList
import Libep.Theory.Chain

/-!
# Runs of a singly linked list

A list that is used at both ends, against the list of its nodes. `singly_list_push` and
`singly_list_unshift` keep the tail pointer on the last link. `singly_list_shift` resets it when nodes
remain, and does not when the last one is taken, so it keeps it only on an empty list:
`singly_list_queue_iff`.
-/

namespace Libep
open Chain

variable {Q α : Type}

/-- The links from `head->begin` run through the nodes `l`, and `head->end` addresses the last of these
links, which holds `NULL`. -/
structure IsQueue (m : SinglyMem Q α) (head : Q) (l : List α) : Prop where
  chain : Seg .next m.link (.begin head) l none
  tail : m.end_ head = last .next (.begin head) l

/-- What a user does with a list. -/
inductive SinglyOp (α : Type) where
  | push (a : α)
  | unshift (a : α)
  | shift
  deriving DecidableEq

namespace SinglyOp

/-- A node that is put in is not in the list. -/
def Legal (l : List α) : SinglyOp α → Prop
  | push a | unshift a => a ∉ l
  | shift => True

/-- The operation on the list of the nodes, with what it returns. -/
def step (l : List α) : SinglyOp α → Option α × List α
  | push a => (none, l ++ [a])
  | unshift a => (none, a :: l)
  | shift => (l.head?, l.tail)

/-- The operation of the code, with what it returns. -/
def exec [DecidableEq Q] [DecidableEq α] (m : SinglyMem Q α) (head : Q) :
    SinglyOp α → Option α × SinglyMem Q α
  | push a => (none, singlyListPush m a head)
  | unshift a => (none, singlyListUnshift m a head)
  | shift => singlyListShift m head

end SinglyOp

/-- Every operation of the run is legal where it happens. -/
def LegalSingly : List α → List (SinglyOp α) → Prop
  | _, [] => True
  | l, op :: ops => op.Legal l ∧ LegalSingly (op.step l).2 ops

/-- Every `shift` of the run happens on the empty list. -/
def ShiftsEmpty : List α → List (SinglyOp α) → Prop
  | _, [] => True
  | l, op :: ops => (op = .shift → l = []) ∧ ShiftsEmpty (op.step l).2 ops

/-- The list is a queue in every state of the run, and every operation returns what it should. -/
def Behaves [DecidableEq Q] [DecidableEq α] (head : Q) :
    SinglyMem Q α → List α → List (SinglyOp α) → Prop
  | m, l, [] => IsQueue m head l
  | m, l, op :: ops => IsQueue m head l ∧ (op.exec m head).1 = (op.step l).1 ∧
    Behaves head (op.exec m head).2 (op.step l).2 ops

namespace IsQueue
variable [DecidableEq Q] [DecidableEq α] {m : SinglyMem Q α} {head : Q} {l : List α} {a : α}

theorem init (m : SinglyMem Q α) (head : Q) : IsQueue (initSinglyListHead m head) head [] := by
  constructor <;> simp [initSinglyListHead, SinglyMem.setLink, SinglyMem.setEnd]

omit [DecidableEq Q] [DecidableEq α] in
theorem fresh (ha : a ∉ l) : SinglyRef.next a ∉ SinglyRef.begin head :: l.map .next := by
  simpa using ha

theorem push (H : IsQueue m head l) (ha : a ∉ l) : IsQueue (singlyListPush m a head) head (l ++ [a]) := by
  have hne : SinglyRef.next a ≠ last .next (.begin head) l :=
    fun h => (fresh ha : SinglyRef.next a ∉ .begin head :: l.map .next) (h ▸ last_mem_cons ..)
  have hchain := H.chain
  rw [← List.append_nil l] at hchain
  have hins := hchain.insert hchain.nodup (fresh (by simpa using ha))
  have hnone : m.link (last .next (.begin head) l) = none := hchain.right
  refine ⟨?_, by simp [singlyListPush, SinglyMem.setLink, SinglyMem.setEnd]⟩
  rw [hnone, Function.update_comm hne, ← H.tail] at hins
  exact hins

theorem unshift (H : IsQueue m head l) (ha : a ∉ l) :
    IsQueue (singlyListUnshift m a head) head (a :: l) := by
  cases l with
  | nil =>
    have hnone : m.link (.begin head) = none := H.chain
    simp only [singlyListUnshift, hnone]
    constructor <;> simp [SinglyMem.setLink, SinglyMem.setEnd]
  | cons b l =>
    have hbegin : m.link (.begin head) = some b := H.chain.1
    simp only [singlyListUnshift, hbegin, Option.isSome_some, if_true]
    refine ⟨?_, by simp [SinglyMem.setLink, H.tail]⟩
    have hins := @Seg.insert _ _ _ _ _ a [] (b :: l) _ _ H.chain H.chain.nodup (fresh ha)
    rw [last_nil, hbegin] at hins
    exact hins

/-- `singly_list_shift` leaves the empty list alone. -/
theorem shift_nil (H : IsQueue m head []) : singlyListShift m head = (none, m) := by
  have hnone : m.link (.begin head) = none := H.chain
  simp [singlyListShift, hnone]

/-- After `singly_list_shift` takes a node, the tail pointer is wrong: it stays at the node taken when no
node remains, and goes to the head when one does. -/
theorem not_shift_cons (H : IsQueue m head (a :: l)) :
    ¬IsQueue (singlyListShift m head).2 head l := by
  intro H'
  have hbegin : m.link (.begin head) = some a := H.chain.1
  have htail := H'.tail
  cases l with
  | nil =>
    have hnext : m.link (.next a) = none := H.chain.2
    simp [singlyListShift, hbegin, hnext, SinglyMem.setLink, H.tail] at htail
  | cons b l =>
    have hnext : m.link (.next a) = some b := H.chain.2.1
    simp only [singlyListShift, hbegin, hnext, SinglyMem.setLink, SinglyMem.setEnd,
      Function.update_self, Option.isSome_some, if_true, last_cons] at htail
    rcases last_mem SinglyRef.next (SinglyRef.next (Q := Q) b) l with h | ⟨c, -, h⟩
    · rw [h] at htail
      cases htail
    · rw [h] at htail
      cases htail

end IsQueue

theorem Behaves.head [DecidableEq Q] [DecidableEq α] {m : SinglyMem Q α} {head : Q} {l : List α}
    {ops : List (SinglyOp α)} (H : Behaves head m l ops) : IsQueue m head l := by
  cases ops with
  | nil => exact H
  | cons op ops => exact H.1

theorem behaves_iff [DecidableEq Q] [DecidableEq α] {m : SinglyMem Q α} {head : Q} {l : List α}
    (H : IsQueue m head l) {ops : List (SinglyOp α)} (hops : LegalSingly l ops) :
    Behaves head m l ops ↔ ShiftsEmpty l ops := by
  induction ops generalizing m l with
  | nil => exact ⟨fun _ => trivial, fun _ => H⟩
  | cons op ops ih =>
    cases op with
    | push a =>
      have := ih (H.push hops.1) hops.2
      exact ⟨fun h => ⟨nofun, this.1 h.2.2⟩, fun h => ⟨H, rfl, this.2 h.2⟩⟩
    | unshift a =>
      have := ih (H.unshift hops.1) hops.2
      exact ⟨fun h => ⟨nofun, this.1 h.2.2⟩, fun h => ⟨H, rfl, this.2 h.2⟩⟩
    | shift =>
      cases l with
      | nil =>
        have := ih H hops.2
        have hexec : SinglyOp.shift.exec m head = (none, m) := H.shift_nil
        refine ⟨fun h => ⟨fun _ => rfl, this.1 ?_⟩, fun h => ⟨H, by rw [hexec]; rfl, ?_⟩⟩
        · have h' := h.2.2
          rw [hexec] at h'
          exact h'
        · rw [hexec]
          exact this.2 h.2
      | cons a l =>
        refine ⟨fun h => absurd h.2.2.head H.not_shift_cons, fun h => ?_⟩
        cases h.1 rfl

/-- **When the singly linked list is a queue.** In a run from `INIT_SINGLY_LIST_HEAD` the chain from
`head->begin` is the list of the nodes in every state, with `head->end` at its last link, and every call
returns the right node, exactly when every `singly_list_shift` of the run is on the empty list. -/
theorem singly_list_queue_iff [DecidableEq Q] [DecidableEq α] (mem : SinglyMem Q α) (head : Q)
    (ops : List (SinglyOp α)) (hops : LegalSingly [] ops) :
    Behaves head (initSinglyListHead mem head) [] ops ↔ ShiftsEmpty [] ops :=
  behaves_iff (.init mem head) hops

/-- Some memory, for one list. -/
def sampleSingly : SinglyMem Unit Nat := ⟨fun _ => none, fun _ => .begin ()⟩

theorem singly_list_queue_iff_sample :
    Behaves () (initSinglyListHead sampleSingly ()) [] [.shift, .push 1, .unshift 2, .push 3] :=
  (singly_list_queue_iff sampleSingly () _ (by simp [LegalSingly, SinglyOp.Legal, SinglyOp.step])).2
    (by simp [ShiftsEmpty, SinglyOp.step])

/-- After a `shift` the next `push` loses the nodes that are left. -/
theorem singly_list_push_loses :
    LegalSingly [] [SinglyOp.push 1, .push 2, .shift, .push 3] ∧
      ¬Behaves () (initSinglyListHead sampleSingly ()) [] [.push 1, .push 2, .shift, .push 3] ∧
      let m := singlyListPush (singlyListShift
        (singlyListPush (singlyListPush (initSinglyListHead sampleSingly ()) 1 ()) 2 ()) ()).2 3 ()
      Seg .next m.link (.begin ()) [3] none := by
  refine ⟨by simp [LegalSingly, SinglyOp.Legal, SinglyOp.step], ?_, rfl, rfl⟩
  rintro ⟨-, -, -, -, -, -, H, -⟩
  cases H.tail

end Libep

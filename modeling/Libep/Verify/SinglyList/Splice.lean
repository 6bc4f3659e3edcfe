import Libep.Verify.SinglyList.Run

/-!
# Splicing singly linked lists

`singly__list_splice` hangs the nodes of one list behind those of another. It does not move the tail
pointer with them: `head->end` stays at the link it wrote, so the next push overwrites that link and loses
the nodes. `singly_list_splice_iff` says that splicing is right exactly when there is nothing to splice.
-/

namespace Libep
open Chain

variable {Q α : Type} {m : SinglyMem Q α} {head list q : Q} {l l₁ l₂ : List α} {a : α}

/-- Two well formed lists without a common node. -/
structure Apart (m : SinglyMem Q α) (head list : Q) (l₁ l₂ : List α) : Prop where
  ne : head ≠ list
  head : IsQueue m head l₁
  list : IsQueue m list l₂
  disjoint : l₁.Disjoint l₂

theorem Apart.symm (H : Apart m head list l₁ l₂) : Apart m list head l₂ l₁ :=
  ⟨H.ne.symm, H.list, H.head, H.disjoint.symm⟩

section
variable [DecidableEq Q] [DecidableEq α]

/-- Pushes in any order: the nodes on the left onto `head`, those on the right onto `list`. -/
def pushNodes (head list : Q) : SinglyMem Q α → List (α ⊕ α) → SinglyMem Q α
  | m, [] => m
  | m, .inl a :: ps => pushNodes head list (singlyListPush m a head) ps
  | m, .inr a :: ps => pushNodes head list (singlyListPush m a list) ps

/-- The nodes pushed are not in the lists, and no node is pushed twice. -/
def FreshNodes (l : List α) (ps : List (α ⊕ α)) : Prop := (l ++ ps.map (Sum.elim id id)).Nodup

/-- The nodes pushed onto `head`. -/
def lefts (ps : List (α ⊕ α)) : List α := ps.filterMap Sum.getLeft?

/-- The nodes pushed onto `list`. -/
def rights (ps : List (α ⊕ α)) : List α := ps.filterMap Sum.getRight?

/-- Splicing `list` into `head` does what it should: the nodes `l₂` follow the nodes `l₁`, and the lists
can be pushed onto. -/
structure Splices (m : SinglyMem Q α) (head list : Q) (l₁ l₂ : List α) : Prop where
  /-- `head` is well formed after `singly_list_splice_init`. -/
  init_head : IsQueue (singlyListSpliceInit m list head) head (l₁ ++ l₂)
  /-- `list` is empty and well formed after `singly_list_splice_init`. -/
  init_list : IsQueue (singlyListSpliceInit m list head) list []
  /-- Later pushes go behind the spliced nodes, and into a list of their own. -/
  init_push : ∀ ps, FreshNodes (l₁ ++ l₂) ps →
    IsQueue (pushNodes head list (singlyListSpliceInit m list head) ps) head (l₁ ++ l₂ ++ lefts ps) ∧
      IsQueue (pushNodes head list (singlyListSpliceInit m list head) ps) list (rights ps)
  /-- `head` is well formed after `singly_list_splice`. -/
  splice_head : IsQueue (singlyListSplice m list head) head (l₁ ++ l₂)
  /-- Later pushes go behind the spliced nodes. -/
  splice_push : ∀ as, FreshNodes (l₁ ++ l₂) (as.map Sum.inl) →
    IsQueue (pushNodes head list (singlyListSplice m list head) (as.map Sum.inl)) head (l₁ ++ l₂ ++ as)

/-! ### Pushes onto one of two lists -/

/-- A push onto another list. -/
theorem IsQueue.push_other (H : IsQueue m q l) (hne : q ≠ head) (ha : a ∉ l)
    (hend : m.end_ head ∉ SinglyRef.begin q :: l.map .next) :
    IsQueue (singlyListPush m a head) q l := by
  refine ⟨?_, ?_⟩
  · exact (H.chain.update_of_notMem hend).update_of_notMem (fresh ha)
  · show Function.update m.end_ head _ q = _
    rw [Function.update_of_ne hne]
    exact H.tail

omit [DecidableEq Q] [DecidableEq α] in
/-- The tail pointer of a list addresses no link of the other. -/
theorem Apart.end_notMem (H : Apart m head list l₁ l₂) :
    m.end_ head ∉ SinglyRef.begin list :: l₂.map .next := by
  rw [H.head.tail]
  intro h
  rcases last_mem SinglyRef.next (SinglyRef.begin head) l₁ with e | ⟨b, hb, e⟩
  · rw [e] at h
    simp only [List.mem_cons, SinglyRef.begin.injEq, List.mem_map, reduceCtorEq, and_false,
      exists_false, or_false] at h
    exact H.ne h
  · rw [e] at h
    simp only [List.mem_cons, reduceCtorEq, List.mem_map, SinglyRef.next.injEq, exists_eq_right,
      false_or] at h
    exact H.disjoint hb h

theorem Apart.push (H : Apart m head list l₁ l₂) (h₁ : a ∉ l₁) (h₂ : a ∉ l₂) :
    Apart (singlyListPush m a head) head list (l₁ ++ [a]) l₂ := by
  refine ⟨H.ne, H.head.push h₁, H.list.push_other H.ne.symm h₂ H.end_notMem, ?_⟩
  apply List.disjoint_append_left.2
  exact ⟨H.disjoint, by simpa using h₂⟩

/-- Pushes keep two lists well formed and apart. -/
theorem Apart.pushNodes {ps : List (α ⊕ α)} (H : Apart m head list l₁ l₂)
    (hps : FreshNodes (l₁ ++ l₂) ps) :
    Apart (Libep.pushNodes head list m ps) head list (l₁ ++ lefts ps) (l₂ ++ rights ps) := by
  induction ps generalizing m l₁ l₂ with
  | nil => simpa [Libep.pushNodes, lefts, rights] using H
  | cons p ps ih =>
    cases p with
    | inl a =>
      have hnd : (a :: (l₁ ++ l₂ ++ ps.map (Sum.elim id id))).Nodup := List.nodup_middle.1 hps
      have ha : a ∉ l₁ ++ l₂ := fun h => (List.nodup_cons.1 hnd).1 (List.mem_append_left _ h)
      rw [List.mem_append, not_or] at ha
      have := ih (H.push ha.1 ha.2) (by
        rw [FreshNodes, List.append_assoc, List.append_assoc, List.singleton_append,
          List.nodup_middle, ← List.append_assoc]
        exact hnd)
      rwa [List.append_assoc] at this
    | inr a =>
      have hnd : (a :: (l₁ ++ l₂ ++ ps.map (Sum.elim id id))).Nodup := List.nodup_middle.1 hps
      have ha : a ∉ l₁ ++ l₂ := fun h => (List.nodup_cons.1 hnd).1 (List.mem_append_left _ h)
      rw [List.mem_append, not_or] at ha
      have := ih (H.symm.push ha.2 ha.1).symm (by
        rw [FreshNodes, ← List.append_assoc, List.append_assoc (l₁ ++ l₂), List.singleton_append,
          List.nodup_middle]
        exact hnd)
      rwa [List.append_assoc l₂] at this

/-! ### Splicing -/

omit [DecidableEq Q] [DecidableEq α] in
theorem IsQueue.empty_iff (H : IsQueue m q l) : singlyListEmpty m q = true ↔ l = [] := by
  cases l with
  | nil =>
    have hnone : m.link (.begin q) = none := H.chain
    simp [singlyListEmpty, hnone]
  | cons a l => simp [singlyListEmpty, H.chain.1]

/-- What `singly__list_splice` does to the links: the nodes of `list` follow those of `head`. -/
theorem Apart.splice_chain (H : Apart m head list l₁ l₂) :
    Seg .next (singlyListSpliceTail m list head).link (.begin head) (l₁ ++ l₂) none := by
  have hclose := @Seg.close _ _ _ _ _ _ _ (m.link (.begin list)) _ H.head.chain H.head.chain.nodup
  have hend : last .next (.begin head) l₁ ∉ SinglyRef.begin list :: l₂.map .next :=
    H.head.tail ▸ H.end_notMem
  have hlist := @Seg.update_of_notMem _ _ _ _ _ _ _ _ (m.link (.begin list)) _ H.list.chain hend
  have hlink : (singlyListSpliceTail m list head).link =
      Function.update m.link (last .next (.begin head) l₁) (m.link (.begin list)) := by
    rw [← H.head.tail]
    rfl
  rw [hlink]
  refine Seg.append_iff.2 ⟨?_, ?_⟩
  · rw [Function.update_self]
    exact hclose
  · -- the link that was written holds what the first link of `list` holds
    have hbegin : Function.update m.link (last .next (.begin head) l₁) (m.link (.begin list))
        (.begin list) = m.link (.begin list) :=
      Function.update_of_ne (fun e => hend (by rw [← e]; exact List.mem_cons_self)) _ _
    have hfrom := seg_iff_from.1 hlist
    rw [hbegin] at hfrom
    apply seg_iff_from.2
    rw [Function.update_self]
    exact hfrom

/-- After a splice of some nodes the tail pointer is not at the last link. -/
theorem Apart.not_splice (H : Apart m head list l₁ l₂) (h : l₂ ≠ []) :
    ¬IsQueue (singlyListSplice m list head) head (l₁ ++ l₂) := by
  intro H'
  have hne : singlyListEmpty m list = false := by simpa using mt H.list.empty_iff.1 h
  have htail := H'.tail
  rw [singlyListSplice, hne] at htail
  have hend : m.end_ head = last .next (.begin head) (l₁ ++ l₂) := htail
  rw [H.head.tail, last_append] at hend
  -- the last of the nodes `l₂` would be the head, or a node of `l₁`
  apply H.end_notMem
  rw [H.head.tail, hend]
  cases l₂ with
  | nil => exact absurd rfl h
  | cons b l₂ => exact List.mem_cons_of_mem _ (last_mem_cons SinglyRef.next (.next b) l₂)

omit [DecidableEq α] in
theorem lefts_map_inl (as : List α) : lefts (as.map Sum.inl) = as := by
  induction as with
  | nil => rfl
  | cons a as ih => exact congrArg (a :: ·) ih

theorem Apart.splices_nil (H : Apart m head list l₁ []) : Splices m head list l₁ [] := by
  have hempty : singlyListEmpty m list = true := H.list.empty_iff.2 rfl
  have hinit : singlyListSpliceInit m list head = m := by rw [singlyListSpliceInit, hempty]; rfl
  have hsplice : singlyListSplice m list head = m := by rw [singlyListSplice, hempty]; rfl
  constructor
  · rw [hinit, List.append_nil]
    exact H.head
  · rw [hinit]
    exact H.list
  · intro ps hps
    rw [hinit, List.append_nil]
    have := H.pushNodes hps
    exact ⟨this.head, this.list⟩
  · rw [hsplice, List.append_nil]
    exact H.head
  · intro as has
    rw [hsplice, List.append_nil]
    have := (H.pushNodes has).head
    rwa [lefts_map_inl] at this

/-- **When splicing is right.** For two well formed lists without a common node, `singly_list_splice_init`
and `singly_list_splice` leave `head` well formed with the nodes of both, and usable, exactly when `list` is
empty. -/
theorem singly_list_splice_iff (H : Apart m head list l₁ l₂) :
    Splices m head list l₁ l₂ ↔ l₂ = [] := by
  constructor
  · intro h
    by_contra hne
    exact H.not_splice hne h.splice_head
  · rintro rfl
    exact H.splices_nil

end

/-- Two lists, `true` with the nodes `l₁` and `false` with the nodes `l₂`. -/
def sampleLists (l₁ l₂ : List Nat) : SinglyMem Bool Nat :=
  let m := initSinglyListHead ⟨fun _ => none, fun _ => .begin true⟩ true
  pushNodes true false (initSinglyListHead m false) (l₁.map .inl ++ l₂.map .inr)

theorem sampleLists_nil : Apart (sampleLists [] []) true false [] [] := by
  refine ⟨by decide, ⟨rfl, rfl⟩, ⟨rfl, rfl⟩, by simp⟩

theorem sampleLists_apart : Apart (sampleLists [1] [2]) true false [1] [2] :=
  @Apart.pushNodes _ _ _ _ _ _ _ _ _ [.inl 1, .inr 2] sampleLists_nil (by simp [FreshNodes])

theorem singly_list_splice_iff_sample : Splices (sampleLists [1] []) true false [1] [] :=
  (singly_list_splice_iff (@Apart.pushNodes _ _ _ _ _ _ _ _ _ [.inl 1] sampleLists_nil
    (by simp [FreshNodes]))).2 rfl

/-- The node 2 is spliced behind the node 1, and lost when the node 3 is pushed. -/
theorem singly_list_splice_loses :
    Apart (sampleLists [1] [2]) true false [1] [2] ∧
      ¬Splices (sampleLists [1] [2]) true false [1] [2] ∧
      Seg .next (pushNodes true false (singlyListSpliceInit (sampleLists [1] [2]) false true)
        [.inl 3]).link (.begin true) [1, 3] none :=
  ⟨sampleLists_apart, fun h => sampleLists_apart.not_splice (by simp) h.splice_head, rfl, rfl, rfl⟩

end Libep

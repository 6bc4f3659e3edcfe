import Libep.Verify.TaskQueue.Rep

/-!
# The lists of `list.h`

A place is in one list at most, as its head or as a node. `m.Lists L` says that the heads are those that
`L` gives nodes to, and that each of them is in a ring through its nodes. Every operation is the operation
on the lists of nodes that its comment in `list.h` promises: `list_run`.
-/

namespace Libep
open Chain

section
variable {β : Type} [DecidableEq β] {m : ListMem β} {h a : β} {l l₁ l₂ : List β}
open ListMem

/-! ### The operations on rings -/

/-- A loop along the links `link` visits the nodes of a segment that ends at the head. -/
theorem forEachFrom_spec {step : Option β → Res (Option β)} {link : β → Option β} {pos : Option β}
    (hstep : ∀ y ∈ l, step (some y) = .ok (link y)) (hlive : ∀ y ∈ l, m.live y)
    (H : From id link pos l (some h)) (hh : h ∉ l) {fuel : Nat} (hfuel : l.length < fuel) :
    forEachFrom m step h fuel pos = .ok l := by
  induction l generalizing pos fuel with
  | nil =>
    obtain ⟨k, rfl⟩ := Nat.exists_eq_succ_of_ne_zero (Nat.ne_of_gt hfuel)
    rw [forEachFrom, if_pos (show pos = some h from H)]
    rfl
  | cons a l ih =>
    obtain ⟨k, rfl⟩ := Nat.exists_eq_succ_of_ne_zero (Nat.ne_of_gt (Nat.zero_lt_of_lt hfuel))
    obtain ⟨rfl, H⟩ := H
    have hne : a ≠ h := fun e => hh (e ▸ List.mem_cons_self)
    have hrest : forEachFrom m step h k (link a) = .ok l := ih (fun y hy => hstep y (List.mem_cons_of_mem _ hy))
      (fun y hy => hlive y (List.mem_cons_of_mem _ hy)) (seg_iff_from.1 H)
      (fun e => hh (List.mem_cons_of_mem _ e)) (Nat.lt_of_succ_lt_succ hfuel)
    rw [forEachFrom, if_neg (by simpa using hne), hstep a List.mem_cons_self]
    simp [deref, hlive a List.mem_cons_self, hrest]

theorem listAdd_spec (H : Ring m.next m.prev h l) (ha : a ∉ h :: l)
    (hl : ∀ y ∈ a :: h :: l, m.live y) :
    ∃ m', listAdd m a h = .ok m' ∧ Ring m'.next m'.prev h (a :: l) ∧ Frame m m' (a :: h :: l) := by
  have hh : m.live h := hl h (by simp)
  have ha' : m.live a := hl a (by simp)
  have hfirst : l.headD h ∈ h :: l := headD_mem h l
  have hne : a ≠ h := fun e => ha (e ▸ List.mem_cons_self)
  have hring := H.addHead ha
  rw [Function.update_comm hne.symm] at hring
  have hne' : a ≠ l.headD h := fun e => ha (e ▸ hfirst)
  rw [Function.update_comm hne'] at hring
  refine ⟨⟨Function.update (Function.update m.next a (some (l.headD h))) h (some a),
    Function.update (Function.update m.prev (l.headD h) (some a)) a (some h), m.live⟩, ?_, hring, rfl,
    fun y hy => ?_, fun y hy => ?_⟩
  · simp only [listAdd, listAddBetween, getNext_eq hh, H.next_head, Res.ok_bind]
    rw [setPrev_eq (hl _ (List.mem_cons_of_mem _ hfirst)), Res.ok_bind, setNext_eq (by exact ha'),
      Res.ok_bind, setPrev_eq (by exact ha'), Res.ok_bind, setNext_eq (by exact hh)]
  · simp only [List.mem_cons, not_or] at hy
    simp [hy.1, hy.2.1]
  · have hy' : y ≠ l.headD h := fun e => hy (e ▸ List.mem_cons_of_mem _ hfirst)
    simp only [List.mem_cons, not_or] at hy
    exact (Function.update_of_ne hy.1 _ _).trans (Function.update_of_ne hy' _ _)

/-- The first statement of `list_del_init` and of `list_move`. -/
theorem listDelBetween_spec (H : Ring m.next m.prev h (l₁ ++ a :: l₂))
    (hl : ∀ y ∈ h :: (l₁ ++ a :: l₂), m.live y) :
    ∃ m' p n, m.getPrev (some a) = .ok p ∧ m.getNext (some a) = .ok n ∧
      listDelBetween m p n = .ok m' ∧ Ring m'.next m'.prev h (l₁ ++ l₂) ∧
      Frame m m' (h :: (l₁ ++ a :: l₂)) := by
  have ha : m.live a := hl a (by simp)
  have hlast : last id h l₁ ∈ h :: (l₁ ++ a :: l₂) := by
    rw [← List.cons_append]
    exact List.mem_append_left _ (by simpa using last_mem_cons id h l₁)
  have hnext : l₂.headD h ∈ h :: (l₁ ++ a :: l₂) := by
    rcases List.mem_cons.1 (headD_mem h l₂) with e | e
    · rw [e]
      exact List.mem_cons_self
    · exact List.mem_cons_of_mem _ (List.mem_append_right _ (List.mem_cons_of_mem _ e))
  refine ⟨⟨Function.update m.next (last id h l₁) (m.next a),
    Function.update m.prev (l₂.headD h) (m.prev a), m.live⟩, _, _, getPrev_eq ha, getNext_eq ha, ?_,
    H.del, rfl, fun y hy => ?_, fun y hy => ?_⟩
  · simp only [listDelBetween, H.prev_node, H.next_node]
    rw [setPrev_eq (hl _ hnext), Res.ok_bind, setNext_eq (by exact hl _ hlast)]
  · exact Function.update_of_ne (ne_of_mem_of_not_mem hlast hy).symm _ _
  · exact Function.update_of_ne (ne_of_mem_of_not_mem hnext hy).symm _ _

theorem listSpliceBetween_spec {p : β} {l' : List β} (H : Ring m.next m.prev h l)
    (H' : Ring m.next m.prev p l') (hl' : l' ≠ []) (hnd : (h :: (l' ++ l)).Nodup)
    (hl : ∀ y ∈ p :: l' ++ h :: l, m.live y) :
    ∃ m', listSpliceBetween m p h = .ok m' ∧ Ring m'.next m'.prev h (l' ++ l) ∧
      Frame m m' (p :: l' ++ h :: l) := by
  have hfirst : l'.headD p ∈ p :: l' ++ h :: l := List.mem_append_left _ (headD_mem p l')
  have hlast : last id p l' ∈ p :: l' ++ h :: l :=
    List.mem_append_left _ (by simpa using last_mem_cons id p l')
  have hat : l.headD h ∈ p :: l' ++ h :: l := List.mem_append_right _ (headD_mem h l)
  have hh : h ∈ p :: l' ++ h :: l := List.mem_append_right _ List.mem_cons_self
  have hring := H.splice H' hl' hnd
  -- the writes of `prev` are made in the other order
  have hne : l.headD h ≠ l'.headD p := by
    obtain ⟨b, k, rfl⟩ := List.exists_cons_of_ne_nil hl'
    have hmid : ([h] ++ b :: (k ++ l)).Nodup := hnd
    have hnd' := List.nodup_cons.1 (List.nodup_middle.1 hmid)
    refine ne_of_mem_of_not_mem (headD_mem h l) fun hb => hnd'.1 ?_
    change b ∈ h :: l at hb
    rcases List.mem_cons.1 hb with rfl | hb
    · simp
    · simp [hb]
  rw [Function.update_comm hne] at hring
  rw [H.next_head, H'.next_head, H'.prev_head] at hring
  refine ⟨⟨_, _, m.live⟩, ?_, hring, rfl, fun y hy => ?_, fun y hy => ?_⟩
  · simp only [listSpliceBetween, getNext_eq (hl _ hh), getNext_eq (hl p (by simp)),
      getPrev_eq (hl p (by simp)), H.next_head, H'.next_head, H'.prev_head, Res.ok_bind]
    rw [setPrev_eq (hl _ hfirst), Res.ok_bind, setNext_eq (by exact hl _ hh), Res.ok_bind,
      setNext_eq (by exact hl _ hlast), Res.ok_bind, setPrev_eq (by exact hl _ hat)]
    rfl
  · exact (Function.update_of_ne (ne_of_mem_of_not_mem hlast hy).symm _ _).trans
      (Function.update_of_ne (ne_of_mem_of_not_mem hh hy).symm _ _)
  · exact (Function.update_of_ne (ne_of_mem_of_not_mem hat hy).symm _ _).trans
      (Function.update_of_ne (ne_of_mem_of_not_mem hfirst hy).symm _ _)

end

/-! ### The lists -/

/-- The nodes of each head; `none` for a place that is no head. -/
abbrev Heads (β : Type) := β → Option (List β)

namespace Heads
variable {β : Type} (L : Heads β)

/-- `a` is a node of a list. -/
def IsNode (a : β) : Prop := ∃ h l, L h = some l ∧ a ∈ l

instance [Fintype β] [DecidableEq β] (a : β) : Decidable (L.IsNode a) :=
  decidable_of_iff (∃ h, a ∈ (L h).getD []) <| exists_congr fun h => by cases L h <;> simp

/-- The lists without the node `a`. -/
def remove [DecidableEq β] (a : β) : Heads β := fun h => (L h).map (·.filter (· ≠ a))

/-- The place `a`, no head any more, is put into the list of `h` by `f`. -/
def put [DecidableEq β] (a h : β) (f : List β → List β) : Heads β :=
  Function.update (Function.update L a none) h ((L h).map f)

/-- The nodes of `p` go before those of `h`, and `p` gets the nodes `l`, if it stays a head. -/
def splice [DecidableEq β] (p h : β) (l : Option (List β)) : Heads β :=
  Function.update (Function.update L h (some ((L p).getD [] ++ (L h).getD []))) p l

end Heads

/-- The operations of `list.h` that change a list. -/
inductive ListOp (β : Type) where
  | init (ptr : β)
  | add (new_node head : β)
  | addTail (new_node head : β)
  | del (entry : β)
  | delInit (entry : β)
  | move (list head : β)
  | moveTail (list head : β)
  | splice (list head : β)
  | spliceInit (list head : β)
  deriving DecidableEq

section
variable {β : Type} [DecidableEq β]

namespace ListOp

def exec (m : ListMem β) : ListOp β → Res (ListMem β)
  | init ptr => initListHead m ptr
  | add new_node head => listAdd m new_node head
  | addTail new_node head => listAddTail m new_node head
  | del entry => listDel m (some entry)
  | delInit entry => listDelInit m entry
  | move list head => listMove m list head
  | moveTail list head => listMoveTail m list head
  | splice list head => listSplice m list head
  | spliceInit list head => listSpliceInit m list head

/-- The operation on the lists of nodes. A head whose nodes `list_splice` took is no head any more; one
without nodes is left alone. -/
def step (L : Heads β) : ListOp β → Heads β
  | init ptr => Function.update L ptr (some [])
  | add new_node head => L.put new_node head (new_node :: ·)
  | addTail new_node head => L.put new_node head (· ++ [new_node])
  | del entry => L.remove entry
  | delInit entry => Function.update (L.remove entry) entry (some [])
  | move list head => (L.remove list).put list head (list :: ·)
  | moveTail list head => (L.remove list).put list head (· ++ [list])
  | splice list head => if L list = some [] then L else L.splice list head none
  | spliceInit list head => L.splice list head (some [])

/-- What a caller has to see to: a place that is put into a list is allocated and in none, a node that is
taken out is in one, and what is to be a head is one. -/
def Legal (live : β → Bool) (L : Heads β) : ListOp β → Prop
  | init ptr => live ptr ∧ ¬L.IsNode ptr
  | add new_node head | addTail new_node head =>
    live new_node ∧ ¬L.IsNode new_node ∧ new_node ≠ head ∧ (L head).isSome
  | del entry | delInit entry => L.IsNode entry
  | move list head | moveTail list head => L.IsNode list ∧ (L head).isSome
  | splice list head | spliceInit list head => list ≠ head ∧ (L list).isSome ∧ (L head).isSome

instance [Fintype β] (live : β → Bool) (L : Heads β) (op : ListOp β) : Decidable (op.Legal live L) := by
  cases op <;> unfold Legal <;> infer_instance

end ListOp

/-- The operations of a run, one after the other. -/
def listRun (m : ListMem β) : List (ListOp β) → Res (ListMem β)
  | [] => return m
  | op :: ops => do listRun (← op.exec m) ops

/-- Every operation of a run is legal where it happens. -/
def LegalLists (live : β → Bool) : Heads β → List (ListOp β) → Prop
  | _, [] => True
  | L, op :: ops => op.Legal live L ∧ LegalLists live (op.step L) ops

instance decidableLegalLists [Fintype β] (live : β → Bool) : (L : Heads β) → (ops : List (ListOp β)) →
    Decidable (LegalLists live L ops)
  | _, [] => isTrue trivial
  | L, op :: ops =>
    have := decidableLegalLists live (op.step L) ops
    inferInstanceAs (Decidable (_ ∧ _))

end

namespace ListMem
variable {β : Type}

/-- Each head is in a ring through its nodes, and the rings have no place in common. -/
structure Lists (m : ListMem β) (L : Heads β) : Prop where
  ring : ∀ {h l}, L h = some l → Ring m.next m.prev h l
  live : ∀ {h l}, L h = some l → ∀ y ∈ h :: l, m.live y
  unique : ∀ {h l h' l' y}, L h = some l → L h' = some l' → y ∈ h :: l → y ∈ h' :: l' → h = h'

namespace Lists
variable {m m' : ListMem β} {L L' : Heads β} {h a p : β} {l l₁ l₂ l' W : List β}

/-- A node is no head, and in the list of one head only. -/
theorem not_head (H : m.Lists L) (hL : L h = some l) (ha : a ∈ l) : L a = none := by
  by_contra hne
  obtain ⟨k, hk⟩ := Option.ne_none_iff_exists'.1 hne
  obtain rfl := H.unique hk hL List.mem_cons_self (List.mem_cons_of_mem _ ha)
  exact (List.nodup_cons.1 (H.ring hL).nodup).1 ha

theorem head_not_node (H : m.Lists L) (hL : L h = some l) : ¬L.IsNode h := by
  rintro ⟨g, k, hg, hmem⟩
  cases hL.symm.trans (H.not_head hg hmem)

/-- The ring of another head has no place in common with that of `h`. -/
theorem disjoint (H : m.Lists L) {g : β} {k : List β} (hL : L h = some l) (hg : L g = some k)
    (hne : g ≠ h) : ∀ y ∈ g :: k, y ∉ h :: l :=
  fun _ hy hy' => hne (H.unique hg hL hy hy')

theorem fresh (hL : L h = some l) (hnode : ¬L.IsNode a) (hne : a ≠ h) : a ∉ h :: l :=
  fun e => (List.mem_cons.1 e).elim hne fun e => hnode ⟨h, l, hL, e⟩

theorem place_live (H : m.Lists L) (hL : L h = some l) (ha : m.live a) : ∀ y ∈ a :: h :: l, m.live y := by
  intro y hy
  rcases List.mem_cons.1 hy with rfl | hy
  · exact ha
  · exact H.live hL y hy

variable [DecidableEq β]

/-- The lists after the ring of one head was written, in the places `W`. -/
theorem rebuild (H : m.Lists L) (F : Frame m m' W) (hW : ∀ y ∈ W, m.live y)
    (hold : ∀ {g k}, g ≠ h → L' g = some k → L g = some k ∧ ∀ y ∈ g :: k, y ∉ W)
    (hnew : ∀ {k}, L' h = some k → Ring m'.next m'.prev h k ∧ ∀ y ∈ h :: k, y ∈ W) : m'.Lists L' := by
  refine ⟨fun {g k} hg => ?_, fun {g k} hg y hy => ?_, fun {g k g' k' y} hg hg' hy hy' => ?_⟩
  · rcases eq_or_ne g h with rfl | hne
    · exact (hnew hg).1
    · obtain ⟨hg, hout⟩ := hold hne hg
      exact F.ring (H.ring hg) hout
  · rw [F.live]
    rcases eq_or_ne g h with rfl | hne
    · exact hW y ((hnew hg).2 y hy)
    · exact H.live (hold hne hg).1 y hy
  · -- a place of the new ring is in no other
    rcases eq_or_ne g h with rfl | hne
    · by_contra hne'
      exact (hold (Ne.symm hne') hg').2 y hy' ((hnew hg).2 y hy)
    · rcases eq_or_ne g' h with rfl | hne'
      · exact absurd ((hnew hg').2 y hy') ((hold hne hg).2 y hy)
      · exact H.unique (hold hne hg).1 (hold hne' hg').1 hy hy'

/-- `INIT_LIST_HEAD`. -/
theorem init (H : m.Lists L) (hp : m.live p) (hnode : ¬L.IsNode p) :
    ∃ m', initListHead m p = .ok m' ∧ m'.Lists (Function.update L p (some [])) ∧ m'.live = m.live := by
  obtain ⟨m', hrun, hring, F⟩ := initListHead_spec hp
  refine ⟨m', hrun, H.rebuild (h := p) F (by simpa using hp) (fun {g k} hne hg => ?_) fun hk => ?_, F.live⟩
  · rw [Function.update_of_ne hne] at hg
    refine ⟨hg, fun y hy hyp => ?_⟩
    obtain rfl := List.mem_singleton.1 hyp
    rcases List.mem_cons.1 hy with rfl | hy
    · exact hne rfl
    · exact hnode ⟨g, k, hg, hy⟩
  · rw [Function.update_self] at hk
    cases hk
    exact ⟨hring, fun _ hy => hy⟩

/-- A place is put into the list of `h`. -/
theorem put {f : List β → List β} (H : m.Lists L) (hL : L h = some l) (hnode : ¬L.IsNode a)
    (hne : a ≠ h) (ha : m.live a) (F : Frame m m' (a :: h :: l)) (hring : Ring m'.next m'.prev h (f l))
    (hf : ∀ y ∈ f l, y = a ∨ y ∈ l) : m'.Lists (L.put a h f) := by
  refine H.rebuild (h := h) F (fun y hy => ?_) (fun {g k} hg hk => ?_) fun hk => ?_
  · rcases List.mem_cons.1 hy with rfl | hy
    · exact ha
    · exact H.live hL y hy
  · rw [Heads.put, Function.update_of_ne hg] at hk
    have hga : g ≠ a := by
      rintro rfl
      rw [Function.update_self] at hk
      cases hk
    rw [Function.update_of_ne hga] at hk
    refine ⟨hk, fun y hy hyW => ?_⟩
    rcases List.mem_cons.1 hyW with rfl | hyW
    · rcases List.mem_cons.1 hy with rfl | hy
      · exact hga rfl
      · exact hnode ⟨g, k, hk, hy⟩
    · exact H.disjoint hL hk hg y hy hyW
  · rw [Heads.put, Function.update_self, hL] at hk
    cases hk
    refine ⟨hring, fun y hy => ?_⟩
    rcases List.mem_cons.1 hy with rfl | hy
    · simp
    · rcases hf y hy with rfl | hy
      · exact List.mem_cons_self
      · exact List.mem_cons_of_mem _ (List.mem_cons_of_mem _ hy)

/-- `list_add`. -/
theorem add (H : m.Lists L) (hL : L h = some l) (ha : m.live a) (hnode : ¬L.IsNode a) (hne : a ≠ h) :
    ∃ m', listAdd m a h = .ok m' ∧ m'.Lists (L.put a h (a :: ·)) ∧ m'.live = m.live := by
  obtain ⟨m', hrun, hring, F⟩ := listAdd_spec (H.ring hL) (fresh hL hnode hne) (H.place_live hL ha)
  exact ⟨m', hrun, H.put hL hnode hne ha F hring fun y hy => List.mem_cons.1 hy, F.live⟩

/-- `list_add_tail`. -/
theorem addTail (H : m.Lists L) (hL : L h = some l) (ha : m.live a) (hnode : ¬L.IsNode a)
    (hne : a ≠ h) :
    ∃ m', listAddTail m a h = .ok m' ∧ m'.Lists (L.put a h (· ++ [a])) ∧ m'.live = m.live := by
  obtain ⟨m', hrun, hring, F⟩ := listAddTail_spec (H.ring hL) (fresh hL hnode hne) (H.place_live hL ha)
  exact ⟨m', hrun, H.put hL hnode hne ha F hring fun y hy => by simpa [or_comm] using hy, F.live⟩

/-- A node is taken out of the list of `h`. -/
theorem removed (H : m.Lists L) (hL : L h = some (l₁ ++ a :: l₂)) (F : Frame m m' (h :: (l₁ ++ a :: l₂)))
    (hring : Ring m'.next m'.prev h (l₁ ++ l₂)) : m'.Lists (L.remove a) := by
  have hnd := (List.nodup_cons.1 (H.ring hL).nodup).2
  refine H.rebuild (h := h) F (H.live hL) (fun {g k} hne hk => ?_) fun hk => ?_
  · obtain ⟨k', hg, rfl⟩ := Option.map_eq_some_iff.1 hk
    have hdis := H.disjoint hL hg hne
    have hk' : k'.filter (· ≠ a) = k' := by
      refine List.filter_eq_self.2 fun y hy => ?_
      have : y ≠ a := fun e => hdis y (List.mem_cons_of_mem _ hy) (by simp [e])
      simpa using this
    rw [hk']
    exact ⟨hg, hdis⟩
  · rw [Heads.remove, hL, Option.map_some, filter_ne_middle hnd] at hk
    cases hk
    refine ⟨hring, fun y hy => ?_⟩
    rcases List.mem_cons.1 hy with rfl | hy
    · exact List.mem_cons_self
    · exact List.mem_cons_of_mem _ (((List.sublist_cons_self a l₂).append_left l₁).subset hy)

/-- `list_del`. -/
theorem del (H : m.Lists L) (ha : L.IsNode a) :
    ∃ m', listDel m (some a) = .ok m' ∧ m'.Lists (L.remove a) ∧ m'.live = m.live := by
  obtain ⟨h, l, hL, hmem⟩ := ha
  obtain ⟨l₁, l₂, rfl⟩ := List.append_of_mem hmem
  obtain ⟨m', hrun, hring, -, F⟩ := listDel_spec (H.ring hL) (H.live hL)
  exact ⟨m', hrun, H.removed hL F hring, F.live⟩

/-- The first statement of `list_del_init` and of `list_move`. The node is in no list afterwards. -/
theorem delBetween (H : m.Lists L) (ha : L.IsNode a) :
    ∃ m' p n, m.getPrev (some a) = .ok p ∧ m.getNext (some a) = .ok n ∧ listDelBetween m p n = .ok m' ∧
      m'.Lists (L.remove a) ∧ m'.live = m.live ∧ m.live a := by
  obtain ⟨h, l, hL, hmem⟩ := ha
  have hlive := H.live hL a (List.mem_cons_of_mem _ hmem)
  obtain ⟨l₁, l₂, rfl⟩ := List.append_of_mem hmem
  obtain ⟨m', p, n, hp, hn, hrun, hring, F⟩ := listDelBetween_spec (H.ring hL) (H.live hL)
  exact ⟨m', p, n, hp, hn, hrun, H.removed hL F hring, F.live, hlive⟩

theorem not_node_remove : ¬(L.remove a).IsNode a := by
  rintro ⟨h, l, hL, hmem⟩
  obtain ⟨k, -, rfl⟩ := Option.map_eq_some_iff.1 hL
  simp at hmem

/-- A head is another place than a node, and stays a head without it. -/
theorem remove_head (H : m.Lists L) (ha : L.IsNode a) (hL : (L h).isSome) :
    a ≠ h ∧ ∃ l, L.remove a h = some l := by
  obtain ⟨l, hl⟩ := Option.isSome_iff_exists.1 hL
  refine ⟨?_, _, by rw [Heads.remove, hl]; rfl⟩
  rintro rfl
  exact H.head_not_node hl ha

/-- `list_move`. -/
theorem move (H : m.Lists L) (ha : L.IsNode a) (hh : (L h).isSome) :
    ∃ m', listMove m a h = .ok m' ∧ m'.Lists ((L.remove a).put a h (a :: ·)) ∧ m'.live = m.live := by
  obtain ⟨m₁, p, n, hp, hn, hdel, H₁, hlive, halive⟩ := H.delBetween ha
  obtain ⟨hne, l, hL⟩ := H.remove_head ha hh
  obtain ⟨m', hadd, H', hlive'⟩ := H₁.add hL (by rwa [hlive]) not_node_remove hne
  refine ⟨m', ?_, H', hlive'.trans hlive⟩
  rw [listMove, hp, Res.ok_bind, hn, Res.ok_bind, hdel, Res.ok_bind, hadd]

/-- `list_move_tail`. -/
theorem moveTail (H : m.Lists L) (ha : L.IsNode a) (hh : (L h).isSome) :
    ∃ m', listMoveTail m a h = .ok m' ∧ m'.Lists ((L.remove a).put a h (· ++ [a])) ∧
      m'.live = m.live := by
  obtain ⟨m₁, p, n, hp, hn, hdel, H₁, hlive, halive⟩ := H.delBetween ha
  obtain ⟨hne, l, hL⟩ := H.remove_head ha hh
  obtain ⟨m', hadd, H', hlive'⟩ := H₁.addTail hL (by rwa [hlive]) not_node_remove hne
  refine ⟨m', ?_, H', hlive'.trans hlive⟩
  rw [listMoveTail, hp, Res.ok_bind, hn, Res.ok_bind, hdel, Res.ok_bind, hadd]

/-- `list_del_init`. -/
theorem delInit (H : m.Lists L) (ha : L.IsNode a) :
    ∃ m', listDelInit m a = .ok m' ∧ m'.Lists (Function.update (L.remove a) a (some [])) ∧
      m'.live = m.live := by
  obtain ⟨m₁, p, n, hp, hn, hdel, H₁, hlive, halive⟩ := H.delBetween ha
  obtain ⟨m', hinit, H', hlive'⟩ := H₁.init (by rwa [hlive]) not_node_remove
  refine ⟨m', ?_, H', hlive'.trans hlive⟩
  rw [listDelInit, hp, Res.ok_bind, hn, Res.ok_bind, hdel, Res.ok_bind, hinit]

/-- `__list_splice`. -/
theorem spliceBetween (H : m.Lists L) (hp : L p = some l') (hL : L h = some l) (hne : p ≠ h)
    (hl' : l' ≠ []) :
    ∃ m', listSpliceBetween m p h = .ok m' ∧ m'.Lists (L.splice p h none) ∧ m'.live = m.live := by
  have hdis := H.disjoint hL hp hne
  have hnd : (h :: (l' ++ l)).Nodup := by
    refine (@List.nodup_middle _ h l' l).1 (List.nodup_append.2
      ⟨(List.nodup_cons.1 (H.ring hp).nodup).2, (H.ring hL).nodup, ?_⟩)
    rintro y hy y' hy' rfl
    exact hdis y (List.mem_cons_of_mem _ hy) hy'
  have hlive : ∀ y ∈ p :: l' ++ h :: l, m.live y := fun y hy =>
    (List.mem_append.1 hy).elim (H.live hp y) (H.live hL y)
  obtain ⟨m', hrun, hring, F⟩ := listSpliceBetween_spec (H.ring hL) (H.ring hp) hl' hnd hlive
  refine ⟨m', hrun, H.rebuild (h := h) F hlive (fun {g k} hg hk => ?_) fun hk => ?_, F.live⟩
  · have hgp : g ≠ p := by
      rintro rfl
      rw [Heads.splice, Function.update_self] at hk
      cases hk
    rw [Heads.splice, Function.update_of_ne hgp, Function.update_of_ne hg] at hk
    refine ⟨hk, fun y hy hyW => ?_⟩
    rcases List.mem_append.1 hyW with hyW | hyW
    · exact H.disjoint hp hk hgp y hy hyW
    · exact H.disjoint hL hk hg y hy hyW
  · rw [Heads.splice, Function.update_of_ne hne.symm, Function.update_self, hp, hL] at hk
    cases hk
    refine ⟨hring, fun y hy => ?_⟩
    simp only [Option.getD_some, List.mem_cons, List.mem_append] at hy ⊢
    tauto

/-- A node after a splice was one before. -/
theorem isNode_of_splice (hp : L p = some l') (hL : L h = some l) (ha : (L.splice p h none).IsNode a) :
    L.IsNode a := by
  obtain ⟨g, k, hk, hmem⟩ := ha
  have hgp : g ≠ p := by
    rintro rfl
    rw [Heads.splice, Function.update_self] at hk
    cases hk
  rw [Heads.splice, Function.update_of_ne hgp] at hk
  rcases eq_or_ne g h with rfl | hg
  · rw [Function.update_self, hp, hL] at hk
    cases hk
    exact (List.mem_append.1 hmem).elim (fun h => ⟨p, l', hp, h⟩) fun h => ⟨g, l, hL, h⟩
  · rw [Function.update_of_ne hg] at hk
    exact ⟨g, k, hk, hmem⟩

theorem listEmpty (H : m.Lists L) (hL : L h = some l) :
    Libep.listEmpty m h = .ok (decide (l = [])) := by
  have hring := H.ring hL
  rw [Libep.listEmpty, getNext_eq (H.live hL h List.mem_cons_self), hring.next_head, Res.ok_bind]
  cases l with
  | nil => simp
  | cons b l =>
    have hne : b ≠ h := fun e => (List.nodup_cons.1 hring.nodup).1 (by simp [e])
    simp [hne]

/-- `list_splice`. -/
theorem splice (H : m.Lists L) (hp : L p = some l') (hL : L h = some l) (hne : p ≠ h) :
    ∃ m', listSplice m p h = .ok m' ∧ m'.Lists (if L p = some [] then L else L.splice p h none) ∧
      m'.live = m.live := by
  rw [listSplice, H.listEmpty hp, Res.ok_bind, hp]
  rcases eq_or_ne l' [] with rfl | hl'
  · exact ⟨m, rfl, H, rfl⟩
  · simpa [hl'] using H.spliceBetween hp hL hne hl'

/-- `list_splice_init`. -/
theorem spliceInit (H : m.Lists L) (hp : L p = some l') (hL : L h = some l) (hne : p ≠ h) :
    ∃ m', listSpliceInit m p h = .ok m' ∧ m'.Lists (L.splice p h (some [])) ∧ m'.live = m.live := by
  rw [listSpliceInit, H.listEmpty hp, Res.ok_bind]
  rcases eq_or_ne l' [] with rfl | hl'
  · have hsame : L.splice p h (some []) = L := by
      rw [Heads.splice, hp, hL, Option.getD_some, Option.getD_some, List.nil_append, ← hL,
        Function.update_eq_self, ← hp, Function.update_eq_self]
    rw [hsame]
    exact ⟨m, rfl, H, rfl⟩
  · obtain ⟨m₁, hrun, H₁, hlive⟩ := H.spliceBetween hp hL hne hl'
    obtain ⟨m', hinit, H', hlive'⟩ := H₁.init (by rw [hlive]; exact H.live hp p List.mem_cons_self)
      fun hnode => H.head_not_node hp (isNode_of_splice hp hL hnode)
    rw [Heads.splice, Function.update_idem] at H'
    refine ⟨m', ?_, H', hlive'.trans hlive⟩
    simp [hl', hrun, hinit]

/-- Every operation. -/
theorem exec {op : ListOp β} (H : m.Lists L) (hop : op.Legal m.live L) :
    ∃ m', op.exec m = .ok m' ∧ m'.Lists (op.step L) ∧ m'.live = m.live := by
  cases op with
  | init ptr => exact H.init hop.1 hop.2
  | add a h =>
    obtain ⟨ha, hnode, hne, hh⟩ := hop
    obtain ⟨l, hL⟩ := Option.isSome_iff_exists.1 hh
    exact H.add hL ha hnode hne
  | addTail a h =>
    obtain ⟨ha, hnode, hne, hh⟩ := hop
    obtain ⟨l, hL⟩ := Option.isSome_iff_exists.1 hh
    exact H.addTail hL ha hnode hne
  | del a => exact H.del hop
  | delInit a => exact H.delInit hop
  | move a h => exact H.move hop.1 hop.2
  | moveTail a h => exact H.moveTail hop.1 hop.2
  | splice p h =>
    obtain ⟨hne, hp, hh⟩ := hop
    obtain ⟨l', hp⟩ := Option.isSome_iff_exists.1 hp
    obtain ⟨l, hL⟩ := Option.isSome_iff_exists.1 hh
    exact H.splice hp hL hne
  | spliceInit p h =>
    obtain ⟨hne, hp, hh⟩ := hop
    obtain ⟨l', hp⟩ := Option.isSome_iff_exists.1 hp
    obtain ⟨l, hL⟩ := Option.isSome_iff_exists.1 hh
    exact H.spliceInit hp hL hne

theorem listRun {ops : List (ListOp β)} (H : m.Lists L) (hops : LegalLists m.live L ops) :
    ∃ m', Libep.listRun m ops = .ok m' ∧ m'.Lists (ops.foldl ListOp.step L) ∧ m'.live = m.live := by
  induction ops generalizing m L with
  | nil => exact ⟨m, rfl, H, rfl⟩
  | cons op ops ih =>
    obtain ⟨m₁, hop, H₁, hlive₁⟩ := H.exec hops.1
    obtain ⟨m', hrun, H', hlive'⟩ := ih H₁ (by rw [hlive₁]; exact hops.2)
    exact ⟨m', by rw [Libep.listRun, hop, Res.ok_bind, hrun], H', hlive'.trans hlive₁⟩

/-- The places that `list_for_each` and `list_for_each_prev` visit. -/
theorem forEach (H : m.Lists L) (hL : L h = some l) {fuel : Nat} (hfuel : l.length < fuel) :
    listForEach m h fuel = .ok l ∧ listForEachPrev m h fuel = .ok l.reverse := by
  have hring := H.ring hL
  have hlive := H.live hL
  have hh := (List.nodup_cons.1 hring.nodup).1
  refine ⟨?_, ?_⟩
  · rw [listForEach, getNext_eq (hlive h List.mem_cons_self), Res.ok_bind]
    exact forEachFrom_spec (fun y hy => getNext_eq (hlive y (List.mem_cons_of_mem _ hy)))
      (fun y hy => hlive y (List.mem_cons_of_mem _ hy)) (seg_iff_from.1 hring.next) hh hfuel
  · rw [listForEachPrev, getPrev_eq (hlive h List.mem_cons_self), Res.ok_bind]
    refine forEachFrom_spec (fun y hy => getPrev_eq (hlive y ?_)) (fun y hy => hlive y ?_)
      (seg_iff_from.1 hring.prev) (by simpa using hh) (by simpa using hfuel)
    all_goals exact List.mem_cons_of_mem _ (List.mem_reverse.1 hy)

theorem isLast (H : m.Lists L) (hL : L h = some l) (ha : a ∈ l) :
    listIsLast m a h = .ok (decide (l.getLast? = some a)) := by
  obtain ⟨l₁, l₂, rfl⟩ := List.append_of_mem ha
  have hring := H.ring hL
  rw [listIsLast, getNext_eq (H.live hL a (List.mem_cons_of_mem _ ha)), Res.ok_bind, hring.next_node]
  have hnd := List.nodup_cons.1 hring.nodup
  cases l₂ with
  | nil => simp
  | cons b l₂ =>
    have hb : b ≠ h := fun e => hnd.1 (by simp [e])
    have hlast : (l₁ ++ a :: b :: l₂).getLast? ≠ some a := by
      intro e
      rw [List.getLast?_append_of_ne_nil _ (by simp), List.getLast?_cons_cons] at e
      exact (List.nodup_cons.1 (List.nodup_append.1 hnd.2).2.1).1 (List.mem_of_getLast? e)
    simpa [hb] using hlast

end Lists

end ListMem

/-! ### The traversals of a run's lists -/

variable {β : Type} [DecidableEq β]

/-- What the loops and the tests of `list.h` read of the list of `h`. -/
structure ListMem.Shows (m : ListMem β) (h : β) (l : List β) : Prop where
  forEach : ∀ fuel, l.length < fuel → listForEach m h fuel = .ok l
  forEachPrev : ∀ fuel, l.length < fuel → listForEachPrev m h fuel = .ok l.reverse
  empty : listEmpty m h = .ok (decide (l = []))
  isLast : ∀ a ∈ l, listIsLast m a h = .ok (decide (l.getLast? = some a))

/-- From memory that holds lists, every run of legal operations has a result, whose lists are those the
operations make of the lists of nodes; a reader of it sees these nodes, in both directions. -/
theorem list_run {m : ListMem β} {L : Heads β} (H : m.Lists L) {ops : List (ListOp β)}
    (hops : LegalLists m.live L ops) :
    ∃ m', listRun m ops = .ok m' ∧ m'.Lists (ops.foldl ListOp.step L) ∧ m'.live = m.live ∧
      ∀ h l, ops.foldl ListOp.step L h = some l → m'.Shows h l := by
  obtain ⟨m', hrun, H', hlive⟩ := H.listRun hops
  exact ⟨m', hrun, H', hlive, fun h l hL => ⟨fun _ hfuel => (H'.forEach hL hfuel).1,
    fun _ hfuel => (H'.forEach hL hfuel).2, H'.listEmpty hL, fun _ ha => H'.isLast hL ha⟩⟩

/-- Allocated places whose links were never written. -/
private def unlinked : ListMem (Fin 5) := ⟨fun _ => none, fun _ => none, fun _ => true⟩

theorem unlinked_lists : unlinked.Lists fun _ => none := ⟨by simp, by simp, by simp⟩

theorem list_run_splice :
    ∃ m', listRun unlinked [.init 0, .init 1, .addTail 2 0, .add 3 0, .add 4 1, .splice 0 1] = .ok m' ∧
      m'.Shows 1 [3, 2, 4] := by
  obtain ⟨m', hrun, -, -, hshow⟩ := @list_run _ _ unlinked _ unlinked_lists
    [.init 0, .init 1, .addTail 2 0, .add 3 0, .add 4 1, .splice 0 1] (by decide)
  exact ⟨m', hrun, hshow 1 _ rfl⟩

end Libep

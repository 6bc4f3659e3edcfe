import Libep.Theory.StableList
import Libep.Verify.SkipList.Insert
import Libep.Verify.SkipList.Delete
import Libep.Verify.SkipList.Extract

/-!
# The representation invariant of the skip list

`Rep level s L` says that the memory `s` holds the list `L`: every level is the chain of the nodes
of `L` that reach it, in the order of `L`. Each operation of `skiplist.h` takes a represented list
to a represented list, and the lists are related by the operations of a stable sorted list.
-/

namespace Libep
open Chain SkipList StableList

variable {σ α : Type}

/-- A linked node: its address, its score and the number of levels it is linked at. -/
structure Entry (σ α : Type) where
  node : α
  score : σ
  height : Nat
  deriving DecidableEq

/-- The nodes of `L` that reach level `i`. -/
def nodesAt (i : Nat) (L : List (Entry σ α)) : List α :=
  (L.filter (i < ·.height)).map Entry.node

namespace SkipList

/-- The places an operation on the nodes `l` may write. -/
def Touches (l : List α) (_ : Nat) (y : Ref α) : Prop := y ∈ Ref.header :: l.map Ref.node

variable [LinearOrder σ]

/-- The memory `s` holds the list `L` on `level` levels. -/
structure Rep (level : Nat) (s : SkipList σ α) (L : List (Entry σ α)) : Prop where
  chain : ∀ i, i < level → Seg Ref.node (s.next i) .header (nodesAt i L) none
  top : ∀ e ∈ L, ∀ i, e.height ≤ i → i < level → s.next i (.node e.node) = none
  live : ∀ e ∈ L, s.live e.node
  score : ∀ e ∈ L, (s.node e.node).score = e.score
  height : ∀ e ∈ L, 0 < e.height
  sorted : Sorted Entry.score L

end SkipList

section nodesAt
variable {i : Nat} {e : Entry σ α} {L L' : List (Entry σ α)} {a : α}

@[simp] theorem nodesAt_append : nodesAt i (L ++ L') = nodesAt i L ++ nodesAt i L' := by
  simp [nodesAt]

theorem nodesAt_cons_of_lt (h : i < e.height) : nodesAt i (e :: L) = e.node :: nodesAt i L := by
  simp [nodesAt, h]

theorem nodesAt_cons_of_ge (h : e.height ≤ i) : nodesAt i (e :: L) = nodesAt i L := by
  simp [nodesAt, Nat.not_lt.2 h]

theorem mem_nodesAt : a ∈ nodesAt i L ↔ ∃ e ∈ L, i < e.height ∧ e.node = a := by
  simp [nodesAt, and_assoc]

theorem mem_nodesAt_of_succ (h : a ∈ nodesAt (i + 1) L) : a ∈ nodesAt i L := by
  obtain ⟨e, he, hi, rfl⟩ := mem_nodesAt.1 h
  exact mem_nodesAt.2 ⟨e, he, by omega, rfl⟩

theorem nodesAt_sublist : (nodesAt i L).Sublist (L.map Entry.node) :=
  List.filter_sublist.map _

theorem nodesAt_succ_sublist : (nodesAt (i + 1) L).Sublist (nodesAt i L) := by
  refine List.Sublist.map _ (List.monotone_filter_right _ fun e he => ?_)
  simp only [decide_eq_true_eq] at he ⊢
  omega

theorem nodesAt_length_le : (nodesAt i L).length ≤ L.length := by
  simpa using (nodesAt_sublist (i := i) (L := L)).length_le

theorem nodesAt_zero (h : ∀ e ∈ L, 0 < e.height) : nodesAt 0 L = L.map Entry.node := by
  rw [nodesAt, List.filter_eq_self.2 (by simpa using h)]

end nodesAt

namespace SkipList.Rep
variable [LinearOrder σ] {level : Nat} {s s' : SkipList σ α} {L : List (Entry σ α)}

theorem nodesAt_split (H : Rep level s L) (c : σ) (i : Nat) :
    nodesAt i L = nodesAt i (upTo Entry.score c L) ++ nodesAt i (above Entry.score c L) := by
  rw [← nodesAt_append, upTo_append_above H.sorted]

theorem chain_zero (H : Rep level s L) (hlevel : 0 < level) :
    Seg Ref.node (s.next 0) .header (L.map Entry.node) none :=
  nodesAt_zero H.height ▸ H.chain 0 hlevel

theorem nodup (H : Rep level s L) (hlevel : 0 < level) : (L.map Entry.node).Nodup :=
  (H.chain_zero hlevel).nodup_nodes

/-- Entries are told apart by their nodes. -/
theorem eq_of_node_eq (H : Rep level s L) (hlevel : 0 < level) {e e' : Entry σ α} (he : e ∈ L)
    (he' : e' ∈ L) (h : e.node = e'.node) : e = e' :=
  List.inj_on_of_nodup_map (H.nodup hlevel) he he' h

/-- Above its height a linked node has no link. -/
theorem next_eq_none (H : Rep level s L) {i : Nat} (hi : i < level) {y : Ref α}
    (hy : y ∈ Ref.header :: (L.map Entry.node).map Ref.node)
    (h : y ∉ Ref.header :: (nodesAt i L).map Ref.node) : s.next i y = none := by
  simp only [List.map_map, List.mem_cons, List.mem_map, Function.comp_apply, not_or, not_exists,
    not_and] at hy h
  rcases hy with rfl | ⟨e, he, rfl⟩
  · exact absurd rfl h.1
  · refine H.top e he i ?_ hi
    by_contra hlt
    exact h.2 e.node (mem_nodesAt.2 ⟨e, he, by omega, rfl⟩) rfl

/-- The represented list determines every link of the header and of the linked nodes. -/
theorem next_unique (H : Rep level s L) (H' : Rep level s' L) {i : Nat} (hi : i < level) {y : Ref α}
    (hy : y ∈ Ref.header :: (L.map Entry.node).map Ref.node) : s'.next i y = s.next i y := by
  by_cases h : y ∈ Ref.header :: (nodesAt i L).map Ref.node
  · exact (H'.chain i hi).link_eq (H.chain i hi) h
  · rw [H.next_eq_none hi hy h, H'.next_eq_none hi hy h]

/-- Every part of the list is sorted by the scores in memory. -/
theorem pairwise_nodesAt_of_sublist (H : Rep level s L) {P : List (Entry σ α)} (hP : P.Sublist L)
    (i : Nat) : (nodesAt i P).Pairwise fun a b => (s.node a).score ≤ (s.node b).score := by
  refine List.pairwise_map.2 (List.Pairwise.imp_of_mem (fun {d d'} hd hd' h => ?_)
    (Sorted.filter (Sorted.sublist H.sorted hP)))
  rw [H.score d (hP.subset (List.mem_of_mem_filter hd)),
    H.score d' (hP.subset (List.mem_of_mem_filter hd'))]
  exact h

theorem live_of_mem (H : Rep level s L) {a : α} (ha : a ∈ L.map Entry.node) : s.live a := by
  obtain ⟨e, he, rfl⟩ := List.mem_map.1 ha
  exact H.live e he

/-- Dropping entries from the list keeps what is said of its entries one by one. -/
theorem of_sublist (H : Rep level s L) {W : Nat → Ref α → Prop} (F : Frame s s' W)
    {L' : List (Entry σ α)} (hsub : L'.Sublist L)
    (hW : ∀ e ∈ L', ∀ i, e.height ≤ i → i < level → ¬W i (.node e.node))
    (hc : ∀ i, i < level → Seg Ref.node (s'.next i) .header (nodesAt i L') none) :
    Rep level s' L' where
  chain := hc
  top e he i h1 h2 := by rw [F.next i _ (hW e he i h1 h2)]; exact H.top e (hsub.subset he) i h1 h2
  live e he := by rw [F.live]; exact H.live e (hsub.subset he)
  score e he := by rw [F.score]; exact H.score e (hsub.subset he)
  height e he := H.height e (hsub.subset he)
  sorted := H.sorted.sublist hsub

/-- A memory with the same header and the same linked nodes. -/
theorem move (H : Rep level s L) (hh : s'.header = s.header)
    (hn : ∀ e ∈ L, s'.node e.node = s.node e.node) (hl : ∀ e ∈ L, s'.live e.node) :
    Rep level s' L := by
  have hnext : ∀ i, ∀ y ∈ Ref.header :: (L.map Entry.node).map Ref.node,
      s'.next i y = s.next i y := by
    intro i y hy
    simp only [List.map_map, List.mem_cons, List.mem_map, Function.comp_apply] at hy
    rcases hy with rfl | ⟨e, he, rfl⟩
    · simp [next, hh]
    · simp [next, hn e he]
  refine ⟨fun i hi => ?_, fun e he i h1 h2 => ?_, hl, fun e he => ?_, H.height, H.sorted⟩
  · apply (H.chain i hi).congr
    intro y hy
    exact hnext i y (pos_mono (fun a ha => nodesAt_sublist.subset ha) hy)
  · rw [hnext i]
    · exact H.top e he i h1 h2
    · exact List.mem_cons_of_mem _ (List.mem_map_of_mem (List.mem_map_of_mem he))
  · rw [hn e he]
    exact H.score e he

variable {n : α}

/-- The place of a node that is not linked. -/
theorem gap (H : Rep level s L) (hn : s.live n) (hL : n ∉ L.map Entry.node) :
    Gap s n (fun j => nodesAt j (upTo Entry.score (s.node n).score L))
      (fun j => nodesAt j (above Entry.score (s.node n).score L)) := by
  refine ⟨hn, fun j a ha => ?_, fun j a ha => ?_, fun j a ha => ?_, fun j ha => hL ?_,
    fun j a ha => mem_nodesAt_of_succ ha⟩
  · rw [← H.nodesAt_split] at ha
    exact H.live_of_mem (nodesAt_sublist.subset ha)
  · obtain ⟨d, hd, -, rfl⟩ := mem_nodesAt.1 ha
    rw [H.score d (mem_upTo.1 hd).1]
    exact (mem_upTo.1 hd).2
  · obtain ⟨d, hd, -, rfl⟩ := mem_nodesAt.1 ha
    rw [H.score d (mem_above.1 hd).1]
    exact (mem_above.1 hd).2
  · rw [← H.nodesAt_split] at ha
    exact nodesAt_sublist.subset ha

/-- The surroundings of a node between the entries `P` and `Q` of the list. -/
theorem spot (H : Rep level s L) (hn : s.live n) {P Q : List (Entry σ α)} (hP : P.Sublist L)
    (hQ : Q.Sublist L) (hle : ∀ d ∈ P, d.score ≤ (s.node n).score)
    (hge : ∀ d ∈ Q, (s.node n).score ≤ d.score) (hfresh : ∀ d ∈ P ++ Q, d.node ≠ n) :
    Spot s n (fun j => nodesAt j P) (fun j => nodesAt j Q) := by
  refine ⟨hn, fun j a ha => ?_, fun j => ?_, fun j a ha => ?_, fun j a ha => ?_, fun j ha => ?_,
    fun j a ha => mem_nodesAt_of_succ ha⟩
  · rw [← nodesAt_append] at ha
    obtain ⟨d, hd, -, rfl⟩ := mem_nodesAt.1 ha
    exact H.live d ((List.mem_append.1 hd).elim (fun h => hP.subset h) (fun h => hQ.subset h))
  · exact H.pairwise_nodesAt_of_sublist hP j
  · obtain ⟨d, hd, -, rfl⟩ := mem_nodesAt.1 ha
    rw [H.score d (hP.subset hd)]
    exact hle d hd
  · obtain ⟨d, hd, -, rfl⟩ := mem_nodesAt.1 ha
    rw [H.score d (hQ.subset hd)]
    exact hge d hd
  · rw [← nodesAt_append] at ha
    obtain ⟨d, hd, -, h⟩ := mem_nodesAt.1 ha
    exact hfresh d hd h

variable [DecidableEq α] {fuel : Nat}

/-- `skiplist_insert` of a node that is not linked puts it in its place. -/
theorem insert (H : Rep level s L) (hlevel : 0 < level) (hn : s.live n)
    (hL : n ∉ L.map Entry.node) (hf : L.length < fuel) (hits : Nat) :
    ∃ s', skiplistInsert level fuel s n hits = .ok s' ∧
      Rep level s' (stableInsert Entry.score ⟨n, (s.node n).score, min level (hits + 1)⟩ L) ∧
      Frame s s' (Touches (n :: L.map Entry.node)) := by
  set e : Entry σ α := ⟨n, (s.node n).score, min level (hits + 1)⟩ with he
  have hsplit := H.nodesAt_split e.score
  obtain ⟨s', hrun, F, hnew, htop⟩ := skiplistInsert_spec level hits rfl
    (H.gap hn hL) (fun j hj => hsplit j ▸ H.chain j hj)
    (fun j => by rw [← hsplit]; exact Nat.lt_of_le_of_lt nodesAt_length_le hf)
  have hne : ∀ d ∈ L, d.node ≠ n := fun d hd h => hL (h ▸ List.mem_map_of_mem hd)
  refine ⟨s', hrun, ⟨fun i hi => ?_, fun d hd i h1 h2 => ?_, fun d hd => ?_, fun d hd => ?_,
    fun d hd => ?_, H.sorted.stableInsert e⟩, F.mono fun j y hy => ?_⟩
  · rw [stableInsert, nodesAt_append]
    rcases Nat.lt_or_ge i e.height with hie | hie
    · rw [nodesAt_cons_of_lt hie]
      exact hnew i hie
    · rw [nodesAt_cons_of_ge hie, ← hsplit]
      apply (H.chain i hi).congr
      intro y hy
      apply F.next i y
      rintro (rfl | ⟨hlt, -⟩)
      · simp only [List.mem_cons, reduceCtorEq, List.mem_map, false_or] at hy
        obtain ⟨a, ha, h⟩ := hy
        cases h
        exact hL (nodesAt_sublist.subset ha)
      · exact absurd hlt (Nat.not_lt.2 hie)
  · rcases mem_stableInsert.1 hd with rfl | hdL
    · exact htop i h1 h2
    · rw [F.next, H.top d hdL i h1 h2]
      rintro (h | ⟨-, h⟩)
      · exact hne d hdL (Ref.node.inj h)
      · -- a node before the gap on level `i` reaches level `i`
        simp only [List.mem_cons, reduceCtorEq, List.mem_map, false_or] at h
        obtain ⟨a, ha, h⟩ := h
        cases h
        obtain ⟨d', hd', hi', h⟩ := mem_nodesAt.1 ha
        rw [H.eq_of_node_eq hlevel (mem_upTo.1 hd').1 hdL h] at hi'
        omega
  · rw [F.live]
    rcases mem_stableInsert.1 hd with rfl | hd
    · exact hn
    · exact H.live d hd
  · rw [F.score]
    rcases mem_stableInsert.1 hd with rfl | hd
    · rfl
    · exact H.score d hd
  · rcases mem_stableInsert.1 hd with rfl | hd
    · exact Nat.lt_min.2 ⟨hlevel, Nat.succ_pos _⟩
    · exact H.height d hd
  · rcases hy with rfl | ⟨-, hy⟩
    · simp [Touches]
    · refine pos_mono (fun a ha => List.mem_cons_of_mem _ (nodesAt_sublist (i := j) |>.subset ?_)) hy
      rw [hsplit]
      exact List.mem_append_left _ ha

/-- `skiplist_delete` of a linked node. -/
private theorem delete_mem (H : Rep level s L) (hlevel : 0 < level) {P Q : List (Entry σ α)}
    {e : Entry σ α} (hL : L = P ++ e :: Q) (hf : L.length < fuel) :
    ∃ s', skiplistDelete level fuel s e.node = .ok s' ∧ Rep level s' (P ++ Q) ∧
      Frame s s' (Touches (L.map Entry.node)) := by
  subst hL
  have he : e ∈ P ++ e :: Q := by simp
  have hP : P.Sublist (P ++ e :: Q) := List.sublist_append_left ..
  have hQ : Q.Sublist (P ++ e :: Q) :=
    (List.sublist_cons_self e Q).trans (List.sublist_append_right ..)
  have hPQ : (P ++ Q).Sublist (P ++ e :: Q) := (List.Sublist.refl P).append (List.sublist_cons_self e Q)
  have hnd := H.nodup hlevel
  simp only [List.map_append, List.map_cons] at hnd
  have hnd' := List.nodup_middle.1 hnd
  have hsort := List.pairwise_append.1 H.sorted
  have hfresh : ∀ d ∈ P ++ Q, d.node ≠ e.node := by
    intro d hd h
    rw [← List.map_append] at hnd'
    exact (List.nodup_cons.1 hnd').1 (h ▸ List.mem_map_of_mem hd)
  have G := H.spot (H.live e he) hP hQ
    (fun d hd => by rw [H.score e he]; exact hsort.2.2 d hd e List.mem_cons_self)
    (fun d hd => by rw [H.score e he]; exact (List.pairwise_cons.1 hsort.2.1).1 d hd) hfresh
  obtain ⟨s', hrun, F, hnew⟩ := skiplistDelete_spec level e.height G
    (fun j hj hje => by
      rw [← nodesAt_cons_of_lt hje, ← nodesAt_append]
      exact H.chain j hj)
    (fun j hj hje => by
      rw [← nodesAt_cons_of_ge (L := Q) hje, ← nodesAt_append]
      exact H.chain j hj)
    (fun j => show _ < fuel by
      have h1 := nodesAt_length_le (i := j) (L := P)
      have h2 := nodesAt_length_le (i := j) (L := Q)
      simp at hf ⊢
      omega)
  refine ⟨s', hrun, H.of_sublist F hPQ (fun d hd i h1 h2 hw => ?_)
    (fun i hi => by rw [nodesAt_append]; exact hnew i hi), F.mono fun j y hy => ?_⟩
  · -- a node before `e` on level `i` reaches level `i`
    obtain ⟨-, h⟩ := hw
    simp only [List.mem_cons, reduceCtorEq, List.mem_map, false_or] at h
    obtain ⟨a, ha, h⟩ := h
    obtain ⟨d', hd', hi', rfl⟩ := mem_nodesAt.1 ha
    rw [H.eq_of_node_eq hlevel (hP.subset hd') (hPQ.subset hd) (Ref.node.inj h)] at hi'
    omega
  · exact pos_mono (fun a ha => (hP.map _).subset (nodesAt_sublist.subset ha)) hy.2

/-- `skiplist_delete` of a node that is not linked writes nothing. -/
theorem delete_notMem (H : Rep level s L) (hn : s.live n) (hL : n ∉ L.map Entry.node)
    (hf : L.length + 1 < fuel) : skiplistDelete level fuel s n = .ok s := by
  have hsplit := H.nodesAt_split (s.node n).score
  have G := H.spot hn (P := upTo Entry.score (s.node n).score L)
    (Q := above Entry.score (s.node n).score L) List.filter_sublist List.filter_sublist
    (fun d hd => (mem_upTo.1 hd).2) (fun d hd => le_of_lt (mem_above.1 hd).2)
    (fun d hd h => hL (by
      rw [upTo_append_above H.sorted] at hd
      exact h ▸ List.mem_map_of_mem hd))
  obtain ⟨s', hrun, F, -⟩ := skiplistDelete_spec level 0 G
    (fun j _ h => absurd h (Nat.not_lt_zero j)) (fun j hj _ => hsplit j ▸ H.chain j hj)
    (fun j => show _ < fuel by
      have h := nodesAt_length_le (i := j) (L := L)
      rw [hsplit] at h
      simp at h ⊢
      omega)
  have hs : s' = s := F.eq_of_forall_not fun j y h => absurd h.1 (Nat.not_lt_zero j)
  rw [hrun, hs]

/-- `skiplist_delete` removes the entry of the node from the list. -/
theorem delete (H : Rep level s L) (hlevel : 0 < level) (hn : s.live n)
    (hf : L.length + 1 < fuel) :
    ∃ s', skiplistDelete level fuel s n = .ok s' ∧ Rep level s' (L.filter (·.node ≠ n)) ∧
      Frame s s' (Touches (L.map Entry.node)) := by
  by_cases hL : n ∈ L.map Entry.node
  · obtain ⟨e, he, rfl⟩ := List.mem_map.1 hL
    obtain ⟨P, Q, rfl⟩ := List.append_of_mem he
    obtain ⟨s', hrun, H', F⟩ := H.delete_mem hlevel rfl (show _ < fuel by omega)
    refine ⟨s', hrun, ?_, F⟩
    rw [filter_key_ne (H.nodup hlevel)]
    exact H'
  · refine ⟨s, H.delete_notMem hn hL hf, ?_, .refl⟩
    rw [List.filter_eq_self.2]
    · exact H
    · intro d hd
      simpa using fun (h : d.node = n) => hL (h ▸ List.mem_map_of_mem hd)

/-- `skiplist_extract_lte` takes the entries with score at most `c` off the front of the list. -/
theorem extractLte (H : Rep level s L) (hlevel : 0 < level) (hf : L.length < fuel) (c : σ) :
    ∃ s', skiplistExtractLte level fuel s c =
        .ok (((upTo Entry.score c L).map Entry.node).head?, s') ∧
      Rep level s' (above Entry.score c L) ∧
      From Ref.node (s'.next 0) ((upTo Entry.score c L).map Entry.node).head?
        ((upTo Entry.score c L).map Entry.node) none ∧
      Frame s s' (Touches ((upTo Entry.score c L).map Entry.node)) := by
  set A := upTo Entry.score c L with hA
  set B := above Entry.score c L with hB
  have hsplit := H.nodesAt_split c
  have hAL : A.Sublist L := List.filter_sublist
  have hA₀ : nodesAt 0 A = A.map Entry.node := nodesAt_zero fun e he => H.height e (hAL.subset he)
  have G : Cut s c (fun j => nodesAt j A) (fun j => nodesAt j B) := by
    refine ⟨fun j a ha => ?_, fun j a ha => ?_, fun j a ha => ?_,
      fun j a ha => mem_nodesAt_of_succ ha⟩
    · rw [← hsplit] at ha
      exact H.live_of_mem (nodesAt_sublist.subset ha)
    · obtain ⟨d, hd, -, rfl⟩ := mem_nodesAt.1 ha
      rw [H.score d (mem_upTo.1 hd).1]
      exact (mem_upTo.1 hd).2
    · obtain ⟨d, hd, -, rfl⟩ := mem_nodesAt.1 ha
      rw [H.score d (mem_above.1 hd).1]
      exact (mem_above.1 hd).2
  obtain ⟨s', hrun, F, hfrom, hnew⟩ := skiplistExtractLte_spec hlevel G
    (fun j hj => hsplit j ▸ H.chain j hj)
    (fun j => by rw [← hsplit]; exact Nat.lt_of_le_of_lt nodesAt_length_le hf)
  rw [hA₀] at hrun hfrom
  refine ⟨s', hrun, H.of_sublist F List.filter_sublist (fun e he i _ _ hw => ?_) hnew, hfrom,
    F.mono fun j y hy => ?_⟩
  · -- the entries that stay are above `c`
    rcases hw with h | ⟨-, a, ha, h⟩
    · cases h
    · obtain ⟨d, hd, -, hda⟩ := mem_nodesAt.1 ha
      have hde := H.eq_of_node_eq hlevel (mem_upTo.1 hd).1 (mem_above.1 he).1
        (hda.trans (Ref.node.inj h).symm)
      exact absurd (mem_above.1 he).2 (not_lt.2 (hde ▸ (mem_upTo.1 hd).2))
  · rcases hy with rfl | ⟨-, a, ha, rfl⟩
    · exact List.mem_cons_self
    · refine List.mem_cons_of_mem _ (List.mem_map_of_mem ?_)
      rw [← hA₀]
      exact ha

end SkipList.Rep

end Libep

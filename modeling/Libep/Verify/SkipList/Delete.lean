import Libep.Verify.SkipList.Walk

/-!
# Deletion, level by level

The loops of `skiplist_delete` for a node `n` that is on the levels below `h`, between `P j` and
`Q j`, and on no other level. Among nodes with the score of `n` the inner loop looks for `n` itself:
on a level of `n` it starts before `n` and every node up to `n` has its score; on the other levels
it finds nothing, and the position stays.
-/

namespace Libep
open Chain SkipList

variable {σ α : Type} [LinearOrder σ] {s s' : SkipList σ α} {n : α} {P Q : Nat → List α}

/-- The surroundings of `n`: the nodes before it and the nodes after it on each level. -/
structure Spot (s : SkipList σ α) (n : α) (P Q : Nat → List α) : Prop where
  live_node : s.live n
  live : ∀ j, ∀ a ∈ P j ++ Q j, s.live a
  sorted : ∀ j, (P j).Pairwise fun a b => (s.node a).score ≤ (s.node b).score
  le : ∀ j, ∀ a ∈ P j, (s.node a).score ≤ (s.node n).score
  ge : ∀ j, ∀ a ∈ Q j, (s.node n).score ≤ (s.node a).score
  fresh : ∀ j, n ∉ P j ++ Q j
  nested : ∀ j, ∀ a ∈ P (j + 1), a ∈ P j

namespace Spot
variable {W : Nat → Ref α → Prop} {i fuel : Nat} {x : Ref α} {R : List α}

theorem frame (H : Spot s n P Q) (F : Frame s s' W) : Spot s' n P Q where
  live_node := by rw [F.live]; exact H.live_node
  live j a ha := by rw [F.live]; exact H.live j a ha
  sorted j := (H.sorted j).imp fun h => by rw [F.score, F.score]; exact h
  le j a ha := by rw [F.score, F.score]; exact H.le j a ha
  ge j a ha := by rw [F.score, F.score]; exact H.ge j a ha
  fresh := H.fresh
  nested := H.nested

theorem live_left (H : Spot s n P Q) : ∀ a ∈ P i, s.live a :=
  fun a ha => H.live i a (List.mem_append_left _ ha)

/-- The first loop stops in `P i`, where the scores reach the score of `n`. -/
theorem walk (H : Spot s n P Q) (hR : ∀ a ∈ R, a = n ∨ a ∈ Q i)
    (hc : Seg Ref.node (s.next i) .header (P i ++ R) none)
    (hx : x ∈ Ref.header :: (P i).map Ref.node) (hf : (P i ++ R).length < fuel) :
    ∃ l₁ l₂, P i = l₁ ++ l₂ ∧
      s.walk (s.scoreLt n) i fuel x = .ok (last Ref.node .header l₁) ∧
      ∀ a ∈ l₂, (s.node a).score = (s.node n).score := by
  have hlive : ∀ a ∈ P i ++ R, s.live a := by
    intro a ha
    rcases List.mem_append.1 ha with ha | ha
    · exact H.live i a (List.mem_append_left _ ha)
    · rcases hR a ha with rfl | ha
      · exact H.live_node
      · exact H.live i a (List.mem_append_right _ ha)
  obtain ⟨l₁, l₂, hl, hw, h₂⟩ :=
    @walk_from _ _ _ _ _ (s.scoreLt n) (fun a => (s.node a).score < (s.node n).score) _ _ _ hc hx hlive
      (fun a ha => by simp [scoreLt, score_eq (hlive a ha), score_eq H.live_node])
      ((H.sorted i).imp fun h hb => by simpa using lt_of_le_of_lt h (by simpa using hb))
      (fun a ha => by
        rcases hR a ha with rfl | ha
        · simp
        · simpa using H.ge i a ha)
      hf
  refine ⟨l₁, l₂, hl, hw, fun a ha => le_antisymm (H.le i a ?_) (by simpa using h₂ a ha)⟩
  rw [hl]
  exact List.mem_append_right _ ha

end Spot

namespace SkipList
variable [DecidableEq α] {i fuel : Nat} {y : Ref α} {l R : List α}

/-- The inner loop finds `n` behind nodes of the same score. -/
theorem findEqual_found (H : Seg Ref.node (s.next i) y (l ++ n :: R) none) (hy : s.Valid y)
    (hn : s.live n) (hl : ∀ a ∈ l, s.live a ∧ (s.node a).score = (s.node n).score ∧ a ≠ n)
    (hf : l.length < fuel) :
    s.findEqual n i fuel y = .ok (some (last Ref.node y l)) := by
  induction l generalizing y fuel with
  | nil =>
    obtain ⟨fuel, rfl⟩ := Nat.exists_eq_succ_of_ne_zero (Nat.ne_of_gt hf)
    simp [findEqual, forward_eq hy, H.1, scoreEq, score_eq hn]
  | cons a l ih =>
    obtain ⟨fuel, rfl⟩ := Nat.exists_eq_succ_of_ne_zero (Nat.ne_of_gt (Nat.zero_lt_of_lt hf))
    obtain ⟨ha, hs, hne⟩ := hl a List.mem_cons_self
    have hrec := ih H.2 ha (fun b hb => hl b (List.mem_cons_of_mem _ hb)) (Nat.lt_of_succ_lt_succ hf)
    simp [findEqual, forward_eq hy, H.1, scoreEq, score_eq hn, score_eq ha, hs, hne, hrec]

/-- The inner loop finds nothing on a level without `n`. -/
theorem findEqual_none (H : Seg Ref.node (s.next i) y l none) (hy : s.Valid y) (hn : s.live n)
    (hl : ∀ a ∈ l, s.live a) (hnl : n ∉ l) (hf : l.length < fuel) :
    s.findEqual n i fuel y = .ok none := by
  induction l generalizing y fuel with
  | nil =>
    obtain ⟨fuel, rfl⟩ := Nat.exists_eq_succ_of_ne_zero (Nat.ne_of_gt hf)
    simp [findEqual, forward_eq hy, seg_nil.1 H]
  | cons a l ih =>
    obtain ⟨fuel, rfl⟩ := Nat.exists_eq_succ_of_ne_zero (Nat.ne_of_gt (Nat.zero_lt_of_lt hf))
    have ha := hl a List.mem_cons_self
    have hne : a ≠ n := fun h => hnl (h ▸ List.mem_cons_self)
    have hrec := ih H.2 ha (fun b hb => hl b (List.mem_cons_of_mem _ hb))
      (fun h => hnl (List.mem_cons_of_mem _ h)) (Nat.lt_of_succ_lt_succ hf)
    simp only [findEqual, forward_eq hy, H.1, scoreEq, score_eq hn, score_eq ha, Res.ok_bind,
      Res.pure_eq, decide_eq_true_eq, if_neg hne]
    split
    · exact hrec
    · rfl

end SkipList

variable [DecidableEq α] {fuel : Nat}

/-- What `skiplist_delete` writes: on the levels of `n`, links of the header or a node before it. -/
def DeleteWrites (P : Nat → List α) (h : Nat) (j : Nat) (y : Ref α) : Prop :=
  j < h ∧ y ∈ Ref.header :: (P j).map Ref.node

/-- One level that `n` is on. -/
private theorem deleteLevel_found {i : Nat} {x : Ref α} (G : Spot s n P Q)
    (hc : Seg Ref.node (s.next i) .header (P i ++ n :: Q i) none)
    (hx : x ∈ Ref.header :: (P i).map Ref.node) (hf : (P i ++ n :: Q i).length < fuel) :
    ∃ x', s.walk (s.scoreLt n) i fuel x = .ok x' ∧
      s.findEqual n i fuel x' = .ok (some (last Ref.node .header (P i))) := by
  obtain ⟨l₁, l₂, hl, hw, h₂⟩ :=
    G.walk (R := n :: Q i) (fun a ha => List.mem_cons.1 ha) hc hx hf
  refine ⟨_, hw, ?_⟩
  have hv : s.Valid (last Ref.node .header l₁) := valid_of_pos (G.live_left (i := i)) (by
    rw [hl, List.map_append, ← List.cons_append]
    exact List.mem_append_left _ (last_mem_cons ..))
  rw [hl, List.append_assoc] at hc
  have hlen : l₂.length < fuel := by rw [hl] at hf; simp at hf; omega
  rw [hl, last_append]
  refine findEqual_found hc.right hv G.live_node (fun a ha => ?_) hlen
  have hP : a ∈ P i := by rw [hl]; exact List.mem_append_right _ ha
  exact ⟨G.live i a (List.mem_append_left _ hP), h₂ a ha,
    fun e => G.fresh i (List.mem_append_left _ (e ▸ hP))⟩

/-- One level that `n` is not on. -/
private theorem deleteLevel_none {i : Nat} {x : Ref α} (G : Spot s n P Q)
    (hc : Seg Ref.node (s.next i) .header (P i ++ Q i) none)
    (hx : x ∈ Ref.header :: (P i).map Ref.node) (hf : (P i ++ Q i).length < fuel) :
    ∃ x' ∈ Ref.header :: (P i).map Ref.node, s.walk (s.scoreLt n) i fuel x = .ok x' ∧
      s.findEqual n i fuel x' = .ok none := by
  obtain ⟨l₁, l₂, hl, hw, -⟩ := G.walk (R := Q i) (fun a ha => .inr ha) hc hx hf
  have hx' : last Ref.node .header l₁ ∈ Ref.header :: (P i).map Ref.node := by
    rw [hl, List.map_append, ← List.cons_append]
    exact List.mem_append_left _ (last_mem_cons ..)
  have hsub : ∀ a ∈ l₂ ++ Q i, a ∈ P i ++ Q i := by
    intro a ha
    rw [hl, List.append_assoc]
    exact List.mem_append_right _ ha
  refine ⟨_, hx', hw, ?_⟩
  have hlen : (l₂ ++ Q i).length < fuel := by rw [hl] at hf; simp at hf ⊢; omega
  rw [hl, List.append_assoc] at hc
  exact findEqual_none hc.right (valid_of_pos G.live_left hx') G.live_node
    (fun a ha => G.live i a (hsub a ha)) (fun h => G.fresh i (hsub n h)) hlen

theorem deleteLevels_spec {h i : Nat} {x : Ref α} (G : Spot s n P Q)
    (hc : ∀ j, j < i → j < h → Seg Ref.node (s.next j) .header (P j ++ n :: Q j) none)
    (hc' : ∀ j, j < i → h ≤ j → Seg Ref.node (s.next j) .header (P j ++ Q j) none)
    (hx : x ∈ Ref.header :: (P i).map Ref.node) (hf : ∀ j, (P j ++ n :: Q j).length < fuel) :
    ∃ s', deleteLevels fuel n i x s = .ok s' ∧ Frame s s' (fun j y => j < i ∧ DeleteWrites P h j y) ∧
      ∀ j, j < i → Seg Ref.node (s'.next j) .header (P j ++ Q j) none := by
  induction i generalizing s x with
  | zero => exact ⟨s, rfl, .refl, fun j h => by omega⟩
  | succ i ih =>
    rcases Nat.lt_or_ge i h with hi | hi
    · have hci := hc i (by omega) hi
      obtain ⟨x', hw, hfind⟩ := deleteLevel_found G hci (pos_mono (G.nested _) hx) (hf i)
      set y := last Ref.node .header (P i) with hy
      have hmem : y ∈ Ref.header :: (P i).map Ref.node := last_mem_cons ..
      set s₁ := s.set y i (s.next i (.node n)) with hs₁
      have F : Frame s s₁ (fun j y => j < i + 1 ∧ DeleteWrites P h j y) :=
        .set ⟨by omega, hi, hmem⟩
      have hother : ∀ j, j < i → s₁.next j = s.next j := fun j hj => by
        rw [hs₁, next_set_of_ne (by omega)]
      have hrem : Seg Ref.node (s₁.next i) .header (P i ++ Q i) none := by
        rw [hs₁, next_set_same]
        exact hci.remove hci.nodup
      obtain ⟨s', hrun, F', hnew⟩ := ih (G.frame F)
        (fun j hj hjh => by rw [hother j hj]; exact hc j (by omega) hjh)
        (fun j hj hjh => by rw [hother j hj]; exact hc' j (by omega) hjh) hmem
      refine ⟨s', ?_, F.trans (F'.mono fun j z hz => ⟨by omega, hz.2⟩),
        Nat.forall_lt_succ_right.2 ⟨hnew, F'.seg (fun y hy => Nat.lt_irrefl i hy.1) hrem⟩⟩
      simp only [deleteLevels, hw, Res.ok_bind, hfind, forward_eq (x := .node n) G.live_node,
        setForward_eq (valid_of_pos G.live_left hmem)]
      exact hrun
    · have hci := hc' i (by omega) hi
      have hlen : (P i ++ Q i).length < fuel := by have := hf i; simp at this ⊢; omega
      obtain ⟨x', hx', hw, hfind⟩ := deleteLevel_none G hci (pos_mono (G.nested _) hx) hlen
      obtain ⟨s', hrun, F', hnew⟩ := ih G (fun j hj hjh => hc j (by omega) hjh)
        (fun j hj hjh => hc' j (by omega) hjh) hx'
      refine ⟨s', ?_, F'.mono fun j z hz => ⟨by omega, hz.2⟩,
        Nat.forall_lt_succ_right.2 ⟨hnew, F'.seg (fun y hy => Nat.lt_irrefl i hy.1) hci⟩⟩
      simp [deleteLevels, hw, hfind, hrun]

/-- `skiplist_delete` of a node that is on the levels below `h`: every level loses it. -/
theorem skiplistDelete_spec (level h : Nat) (G : Spot s n P Q)
    (hc : ∀ j, j < level → j < h → Seg Ref.node (s.next j) .header (P j ++ n :: Q j) none)
    (hc' : ∀ j, j < level → h ≤ j → Seg Ref.node (s.next j) .header (P j ++ Q j) none)
    (hf : ∀ j, (P j ++ n :: Q j).length < fuel) :
    ∃ s', skiplistDelete level fuel s n = .ok s' ∧ Frame s s' (DeleteWrites P h) ∧
      ∀ j, j < level → Seg Ref.node (s'.next j) .header (P j ++ Q j) none :=
  let ⟨s', hrun, F, hnew⟩ := deleteLevels_spec G hc hc' List.mem_cons_self hf
  ⟨s', hrun, F.mono fun _ _ h => h.2, hnew⟩

end Libep

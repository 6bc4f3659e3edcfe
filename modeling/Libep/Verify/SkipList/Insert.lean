import Libep.Verify.SkipList.Walk

/-!
# Insertion, level by level

The two loops of `skiplist_insert` for a node `n` that is on no level. Level `j` is `A j ++ B j`:
the nodes with score at most the score of `n`, and those above it. The position carried down from
the level above is the header or a node of `A (j + 1)`, which is on level `j` too.
-/

namespace Libep
open Chain SkipList

variable {σ α : Type} [LinearOrder σ] {s s' : SkipList σ α} {n : α} {A B : Nat → List α}

/-- The place of `n` on the levels `A j ++ B j`. -/
structure Gap (s : SkipList σ α) (n : α) (A B : Nat → List α) : Prop where
  live_node : s.live n
  live : ∀ j, ∀ a ∈ A j ++ B j, s.live a
  le : ∀ j, ∀ a ∈ A j, (s.node a).score ≤ (s.node n).score
  lt : ∀ j, ∀ a ∈ B j, (s.node n).score < (s.node a).score
  fresh : ∀ j, n ∉ A j ++ B j
  nested : ∀ j, ∀ a ∈ A (j + 1), a ∈ A j

namespace Gap
variable {W : Nat → Ref α → Prop} {i fuel : Nat} {x : Ref α}

theorem frame (H : Gap s n A B) (F : Frame s s' W) : Gap s' n A B where
  live_node := by rw [F.live]; exact H.live_node
  live j a ha := by rw [F.live]; exact H.live j a ha
  le j a ha := by rw [F.score, F.score]; exact H.le j a ha
  lt j a ha := by rw [F.score, F.score]; exact H.lt j a ha
  fresh := H.fresh
  nested := H.nested

theorem live_left (H : Gap s n A B) : ∀ a ∈ A i, s.live a :=
  fun a ha => H.live i a (List.mem_append_left _ ha)

theorem ne_node (H : Gap s n A B) (hx : x ∈ Ref.header :: (A i ++ B i).map Ref.node) :
    x ≠ .node n := by
  rintro rfl
  simp only [List.mem_cons, List.mem_map, reduceCtorEq, false_or] at hx
  obtain ⟨a, ha, h⟩ := hx
  cases h
  exact H.fresh i ha

/-- On each level the loop stops at the last node of `A i`. -/
theorem walk (H : Gap s n A B) (hc : Seg Ref.node (s.next i) .header (A i ++ B i) none)
    (hx : x ∈ Ref.header :: (A i).map Ref.node) (hf : (A i ++ B i).length < fuel) :
    s.walk (s.scoreLe n) i fuel x = .ok (last Ref.node .header (A i)) := by
  refine walk_all (p := fun a => (s.node a).score ≤ (s.node n).score) hc hx (H.live i) ?_ ?_ ?_ hf
  · intro a ha
    simp [scoreLe, score_eq (H.live i a ha), score_eq H.live_node]
  · exact fun a ha => by simpa using H.le i a ha
  · exact fun a ha => by simpa using H.lt i a ha

end Gap

variable [DecidableEq α] {fuel : Nat}

/-- The links the first loop writes. -/
def AboveWrites (n : α) (l k : Nat) (j : Nat) (y : Ref α) : Prop :=
  y = .node n ∧ l ≤ j ∧ j < l + k

theorem insertAbove_spec {l k : Nat} {x : Ref α} (G : Gap s n A B)
    (hc : ∀ j, j < l + k → Seg Ref.node (s.next j) .header (A j ++ B j) none)
    (hx : x ∈ Ref.header :: (A (l + k)).map Ref.node) (hf : ∀ j, (A j ++ B j).length < fuel) :
    ∃ x' s', insertAbove fuel n l k x s = .ok (x', s') ∧
      x' ∈ Ref.header :: (A l).map Ref.node ∧ Frame s s' (AboveWrites n l k) ∧
      ∀ j, l ≤ j → j < l + k → s'.next j (.node n) = none := by
  induction k generalizing s x with
  | zero => exact ⟨x, s, rfl, hx, .refl, fun j h1 h2 => by omega⟩
  | succ k ih =>
    have hci := hc (l + k) (by omega)
    have hw := G.walk hci (pos_mono (G.nested _) hx) (hf _)
    have F : Frame s (s.set (.node n) (l + k) none) (AboveWrites n l (k + 1)) :=
      .set ⟨rfl, by omega, by omega⟩
    have hc' : ∀ j, j < l + k →
        Seg Ref.node ((s.set (.node n) (l + k) none).next j) .header (A j ++ B j) none := by
      intro j hj
      rw [next_set_of_ne (by omega)]
      exact hc j (by omega)
    have hx' : last Ref.node .header (A (l + k)) ∈ Ref.header :: (A (l + k)).map Ref.node :=
      last_mem_cons ..
    obtain ⟨x', s', hrun, hpos, F', htop⟩ := ih (G.frame F) hc' hx'
    refine ⟨x', s', ?_, hpos, F.trans (F'.mono ?_), ?_⟩
    · simp [insertAbove, hw, setForward_eq (x := .node n) G.live_node, hrun]
    · rintro j y ⟨rfl, h1, h2⟩
      exact ⟨rfl, h1, by omega⟩
    · intro j h1 h2
      rcases eq_or_ne j (l + k) with rfl | hj
      · rw [F'.next _ _ fun h => absurd h.2.2 (by omega), next_set_same, Function.update_self]
      · exact htop j h1 (by omega)

/-- The links the second loop writes: those of `n`, and of the header or a node before it. -/
def BelowWrites (n : α) (A : Nat → List α) (i : Nat) (j : Nat) (y : Ref α) : Prop :=
  j < i ∧ (y = .node n ∨ y ∈ Ref.header :: (A j).map Ref.node)

theorem insertBelow_spec {i : Nat} {x : Ref α} (G : Gap s n A B)
    (hc : ∀ j, j < i → Seg Ref.node (s.next j) .header (A j ++ B j) none)
    (hx : x ∈ Ref.header :: (A i).map Ref.node) (hf : ∀ j, (A j ++ B j).length < fuel) :
    ∃ s', insertBelow fuel n i x s = .ok s' ∧ Frame s s' (BelowWrites n A i) ∧
      ∀ j, j < i → Seg Ref.node (s'.next j) .header (A j ++ n :: B j) none := by
  induction i generalizing s x with
  | zero => exact ⟨s, rfl, .refl, fun j h => by omega⟩
  | succ i ih =>
    have hci := hc i (by omega)
    have hw := G.walk hci (pos_mono (G.nested _) hx) (hf _)
    set y := last Ref.node .header (A i) with hy
    have hmem : y ∈ Ref.header :: (A i).map Ref.node := last_mem_cons ..
    have hvy := valid_of_pos G.live_left hmem
    set s₁ := s.set (.node n) i (s.next i y) with hs₁
    set s₂ := s₁.set y i (some n) with hs₂
    have F₁ : Frame s s₁ (BelowWrites n A (i + 1)) := .set ⟨by omega, .inl rfl⟩
    have F₂ : Frame s₁ s₂ (BelowWrites n A (i + 1)) := .set ⟨by omega, .inr hmem⟩
    have F := F₁.trans F₂
    have hlevel : s₂.next i = Function.update (Function.update (s.next i) (.node n) (s.next i y))
        y (some n) := by rw [hs₂, next_set_same, hs₁, next_set_same]
    have hother : ∀ j, j ≠ i → s₂.next j = s.next j := by
      intro j hj
      rw [hs₂, next_set_of_ne hj, hs₁, next_set_of_ne hj]
    have hins : Seg Ref.node (s₂.next i) .header (A i ++ n :: B i) none := by
      rw [hlevel]
      exact hci.insert hci.nodup fun h => G.ne_node h rfl
    obtain ⟨s', hrun, F', hnew⟩ := ih (G.frame F)
      (fun j hj => by rw [hother j (by omega)]; exact hc j (by omega)) hmem
    refine ⟨s', ?_, F.trans (F'.mono fun j z h => ⟨by have := h.1; omega, h.2⟩),
      Nat.forall_lt_succ_right.2 ⟨hnew, F'.seg (fun y hy => Nat.lt_irrefl i hy.1) hins⟩⟩
    have hv₁ : s₁.Valid y := by
      rw [hs₁]
      cases hyc : y with
      | header => rfl
      | node a => rw [hyc] at hvy; simpa using hvy
    simp only [insertBelow, hw, Res.ok_bind, forward_eq hvy,
      setForward_eq (x := .node n) G.live_node]
    rw [setForward_eq hv₁, Res.ok_bind]
    exact hrun

@[simp] theorem skiplistRandomLevel_eq (hits : Nat) : skiplistRandomLevel hits = hits + 1 := by
  induction hits with
  | zero => rfl
  | succ hits ih => rw [skiplistRandomLevel, ih]

/-- What `skiplist_insert` writes: links of `n` on every level, and on the levels below its height
links of the header or of a node before it. -/
def InsertWrites (n : α) (A : Nat → List α) (l : Nat) (j : Nat) (y : Ref α) : Prop :=
  y = .node n ∨ j < l ∧ y ∈ Ref.header :: (A j).map Ref.node

/-- `skiplist_insert` of a node that is on no level: it ends up in its place on the levels below
its height and is linked to nothing on the others, which are as before. -/
theorem skiplistInsert_spec (level hits : Nat) {l : Nat} (hl : l = min level (hits + 1))
    (G : Gap s n A B)
    (hc : ∀ j, j < level → Seg Ref.node (s.next j) .header (A j ++ B j) none)
    (hf : ∀ j, (A j ++ B j).length < fuel) :
    ∃ s', skiplistInsert level fuel s n hits = .ok s' ∧ Frame s s' (InsertWrites n A l) ∧
      (∀ j, j < l → Seg Ref.node (s'.next j) .header (A j ++ n :: B j) none) ∧
      (∀ j, l ≤ j → j < level → s'.next j (.node n) = none) := by
  have hle : l + (level - l) = level := by omega
  have hl' : (if hits + 1 > level then level else hits + 1) = l := by
    rw [hl]; split <;> omega
  obtain ⟨x, s₁, hrun₁, hx, F₁, htop⟩ := insertAbove_spec (l := l) (k := level - l) G
    (fun j hj => hc j (by omega)) List.mem_cons_self hf
  have hc₁ : ∀ j, j < l → Seg Ref.node (s₁.next j) .header (A j ++ B j) none := fun j hj =>
    F₁.seg (fun y hy => absurd hy.2.1 (Nat.not_le.2 hj)) (hc j (by omega))
  obtain ⟨s', hrun₂, F₂, hnew⟩ := insertBelow_spec (G.frame F₁) hc₁ hx hf
  refine ⟨s', ?_, (F₁.mono ?_).trans (F₂.mono ?_), hnew, fun j h1 h2 => ?_⟩
  · simp only [skiplistInsert, skiplistRandomLevel_eq, hl', hrun₁, Res.ok_bind, hrun₂]
  · exact fun j y h => .inl h.1
  · rintro j y ⟨hj, rfl | hy⟩
    · exact .inl rfl
    · exact .inr ⟨hj, hy⟩
  · rw [F₂.next j _ fun h => absurd h.1 (by omega)]
    exact htop j h1 (by omega)

end Libep

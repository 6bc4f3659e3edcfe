import Libep.Verify.SkipList.Walk

/-!
# Extraction of the low scores, level by level

`skiplist_extract_lte` on a list whose level `j` is `A j ++ B j`: the nodes with score at most the
bound, and those above it. On each level the header is linked past `A j`; the nodes of `A 0` remain
a chain on level 0, and their links on the other levels stay as they are.
-/

namespace Libep
open Chain SkipList

variable {σ α : Type} [LinearOrder σ] {s s' : SkipList σ α} {c : σ} {A B : Nat → List α}

/-- The cut of the levels `A j ++ B j` at the score `c`. -/
structure Cut (s : SkipList σ α) (c : σ) (A B : Nat → List α) : Prop where
  live : ∀ j, ∀ a ∈ A j ++ B j, s.live a
  le : ∀ j, ∀ a ∈ A j, (s.node a).score ≤ c
  lt : ∀ j, ∀ a ∈ B j, c < (s.node a).score
  nested : ∀ j, ∀ a ∈ A (j + 1), a ∈ A j

namespace Cut
variable {W : Nat → Ref α → Prop} {i fuel : Nat} {x : Ref α}

theorem frame (H : Cut s c A B) (F : Frame s s' W) : Cut s' c A B where
  live j a ha := by rw [F.live]; exact H.live j a ha
  le j a ha := by rw [F.score]; exact H.le j a ha
  lt j a ha := by rw [F.score]; exact H.lt j a ha
  nested := H.nested

theorem live_left (H : Cut s c A B) : ∀ a ∈ A i, s.live a :=
  fun a ha => H.live i a (List.mem_append_left _ ha)

theorem walk (H : Cut s c A B) (hc : Seg Ref.node (s.next i) .header (A i ++ B i) none)
    (hx : x ∈ Ref.header :: (A i).map Ref.node) (hf : (A i ++ B i).length < fuel) :
    s.walk (fun y => do return decide ((← s.score y) ≤ c)) i fuel x =
      .ok (last Ref.node .header (A i)) := by
  refine walk_all (p := fun a => (s.node a).score ≤ c) hc hx (H.live i) ?_ ?_ ?_ hf
  · intro a ha
    simp [score_eq (H.live i a ha)]
  · exact fun a ha => by simpa using H.le i a ha
  · exact fun a ha => by simpa using H.lt i a ha

theorem subset_zero (H : Cut s c A B) : ∀ j, ∀ a ∈ A j, a ∈ A 0
  | 0, _, ha => ha
  | j + 1, a, ha => H.subset_zero j a (H.nested j a ha)

end Cut

variable [DecidableEq α] {fuel : Nat}

theorem extractLevels_spec {i : Nat} {x : Ref α} (G : Cut s c A B)
    (hc : ∀ j, j < i → Seg Ref.node (s.next j) .header (A j ++ B j) none)
    (hx : x ∈ Ref.header :: (A i).map Ref.node) (hf : ∀ j, (A j ++ B j).length < fuel) :
    ∃ s', extractLevels fuel c i x s = .ok (if i = 0 then x else last Ref.node .header (A 0), s') ∧
      Frame s s' (fun j y => j < i ∧ y = .header) ∧
      ∀ j, j < i → Seg Ref.node (s'.next j) .header (B j) none := by
  induction i generalizing s x with
  | zero => exact ⟨s, rfl, .refl, fun j h => by omega⟩
  | succ i ih =>
    have hci := hc i (by omega)
    have hw := G.walk hci (pos_mono (G.nested _) hx) (hf _)
    set y := last Ref.node .header (A i) with hy
    have hmem : y ∈ Ref.header :: (A i).map Ref.node := last_mem_cons ..
    set s₁ := s.set .header i (s.next i y) with hs₁
    have F : Frame s s₁ (fun j z => j < i + 1 ∧ z = .header) := .set ⟨by omega, rfl⟩
    have hother : ∀ j, j < i → s₁.next j = s.next j := fun j hj => by
      rw [hs₁, next_set_of_ne (by omega)]
    have hcut : Seg Ref.node (s₁.next i) .header (B i) none := by
      rw [hs₁, next_set_same]
      exact hci.drop_front (by simp)
    obtain ⟨s', hrun, F', hnew⟩ := ih (G.frame F)
      (fun j hj => by rw [hother j hj]; exact hc j (by omega)) hmem
    refine ⟨s', ?_, F.trans (F'.mono fun j z h => ⟨by omega, h.2⟩),
      Nat.forall_lt_succ_right.2 ⟨hnew, F'.seg (fun y hy => Nat.lt_irrefl i hy.1) hcut⟩⟩
    simp only [extractLevels, hw, Res.ok_bind, forward_eq (valid_of_pos G.live_left hmem),
      setForward_eq (x := .header) rfl]
    rw [hrun, if_neg (Nat.succ_ne_zero i)]
    split
    · rename_i h0
      subst h0
      rfl
    · rfl

/-- What `skiplist_extract_lte` writes: the links of the header, and the level-0 link of the last
node it takes. -/
def ExtractWrites (A : Nat → List α) (j : Nat) (y : Ref α) : Prop :=
  y = .header ∨ j = 0 ∧ ∃ a ∈ A 0, y = .node a

/-- `skiplist_extract_lte`: it returns the chain of the nodes with score at most `c` and leaves the
others on every level. -/
theorem skiplistExtractLte_spec {level : Nat} (hlevel : 0 < level) (G : Cut s c A B)
    (hc : ∀ j, j < level → Seg Ref.node (s.next j) .header (A j ++ B j) none)
    (hf : ∀ j, (A j ++ B j).length < fuel) :
    ∃ s', skiplistExtractLte level fuel s c = .ok ((A 0).head?, s') ∧
      Frame s s' (ExtractWrites A) ∧ From Ref.node (s'.next 0) (A 0).head? (A 0) none ∧
      ∀ j, j < level → Seg Ref.node (s'.next j) .header (B j) none := by
  obtain ⟨s₁, hrun, F, hnew⟩ := extractLevels_spec (x := .header) G hc List.mem_cons_self hf
  rw [if_neg (by omega)] at hrun
  have hc₀ := hc 0 hlevel
  have hnd := List.nodup_append.1 hc₀.nodup_nodes
  have hfirst : s.next 0 .header = (A 0 ++ B 0).head? := by
    cases h : A 0 ++ B 0 <;> simp only [h] at hc₀
    · exact hc₀
    · exact hc₀.1
  simp only [skiplistExtractLte, forward_eq (x := .header) rfl, Res.ok_bind, hfirst]
  cases hA : A 0 with
  | nil =>
    cases hB : B 0 with
    | nil =>
      refine ⟨s, rfl, .refl, rfl, fun j hj => ?_⟩
      have hAj : A j = [] := List.eq_nil_iff_forall_not_mem.2 fun a ha => by
        have := G.subset_zero j a ha
        rw [hA] at this
        cases this
      simpa [hAj] using hc j hj
    | cons b l =>
      rw [hA] at hrun
      refine ⟨s₁, ?_, F.mono fun j y h => .inl h.2, rfl, hnew⟩
      simp [hrun]
  | cons a l =>
    rw [hA] at hc₀ hnd
    obtain ⟨b, hb, hlast⟩ : ∃ b ∈ a :: l, last Ref.node (.node a) l = .node b := by
      rcases last_mem Ref.node (.node a) l with h | ⟨b, hb, h⟩
      · exact ⟨a, List.mem_cons_self, h⟩
      · exact ⟨b, List.mem_cons_of_mem _ hb, h⟩
    have hlive : s₁.live b := by
      rw [F.live]
      exact G.live 0 b (List.mem_append_left _ (hA ▸ hb))
    have F₂ : Frame s₁ (s₁.set (.node b) 0 none) (ExtractWrites A) :=
      .set (.inr ⟨rfl, b, hA ▸ hb, rfl⟩)
    refine ⟨s₁.set (.node b) 0 none, ?_, (F.mono fun j y h => .inl h.2).trans F₂, ?_, fun j hj => ?_⟩
    · rw [hA, last_cons, hlast] at hrun
      simp [hrun, setForward_eq (x := .node b) hlive]
    · -- the nodes taken keep their level-0 links, and the last one is closed
      have hseg : Seg Ref.node (s₁.next 0) (.node a) l (s.next 0 (.node b)) := by
        rw [← hlast]
        apply hc₀.2.left.congr
        intro y hy
        apply F.next 0 y
        rintro ⟨-, rfl⟩
        simp at hy
      refine ⟨rfl, ?_⟩
      rw [next_set_same, ← hlast]
      apply hseg.close
      rw [← List.map_cons]
      exact hnd.1.map fun _ _ h => by cases h; rfl
    · by_cases hj0 : j = 0
      · subst hj0
        rw [next_set_same]
        apply (hnew 0 hj).update_of_notMem
        intro h
        simp only [List.mem_cons, reduceCtorEq, List.mem_map, false_or] at h
        obtain ⟨d, hd, hdb⟩ := h
        cases hdb
        exact hnd.2.2 b hb b hd rfl
      · rw [next_set_of_ne hj0]
        exact hnew j hj

end Libep

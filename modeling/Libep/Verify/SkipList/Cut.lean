import Libep.SkipList
import Libep.Theory.Outcome

/-!
# The bound on the loops of the skip list

An operation with a smaller bound does what it does with a larger one, or uses up its bound.
-/

namespace Libep
open SkipList

variable {σ α : Type} {s : SkipList σ α} {fuel fuel' : Nat} {node : α} {i : Nat} {x : Ref α}

theorem SkipList.walk_cut {test : α → Res Bool} (h : fuel ≤ fuel') :
    CutShort .fuel (s.walk test i fuel x) (s.walk test i fuel' x) := by
  induction fuel generalizing x fuel' with
  | zero => exact .short _ _
  | succ fuel ih =>
    obtain ⟨fuel', rfl⟩ := Nat.exists_eq_succ_of_ne_zero (Nat.ne_of_gt (Nat.zero_lt_of_lt h))
    rw [walk, walk]
    refine (CutShort.refl _ _).bind fun y => ?_
    cases y with
    | none => exact .refl _ _
    | some y =>
      refine (CutShort.refl _ _).bind fun b => ?_
      split
      · exact ih (Nat.le_of_succ_le_succ h)
      · exact .refl _ _

variable [DecidableEq α] [LinearOrder σ] {level : Nat}

theorem SkipList.findEqual_cut (h : fuel ≤ fuel') :
    CutShort .fuel (s.findEqual node i fuel x) (s.findEqual node i fuel' x) := by
  induction fuel generalizing x fuel' with
  | zero => exact .short _ _
  | succ fuel ih =>
    obtain ⟨fuel', rfl⟩ := Nat.exists_eq_succ_of_ne_zero (Nat.ne_of_gt (Nat.zero_lt_of_lt h))
    rw [findEqual, findEqual]
    refine (CutShort.refl _ _).bind fun y => ?_
    cases y with
    | none => exact .refl _ _
    | some y =>
      refine (CutShort.refl _ _).bind fun b => ?_
      split
      · split
        · exact .refl _ _
        · exact ih (Nat.le_of_succ_le_succ h)
      · exact .refl _ _

theorem insertAbove_cut {l k : Nat} (h : fuel ≤ fuel') :
    CutShort .fuel (insertAbove fuel node l k x s) (insertAbove fuel' node l k x s) := by
  induction k generalizing x s with
  | zero => exact .refl _ _
  | succ k ih =>
    rw [insertAbove, insertAbove]
    exact (walk_cut h).bind fun x => (CutShort.refl _ _).bind fun s => ih

theorem insertBelow_cut {l : Nat} (h : fuel ≤ fuel') :
    CutShort .fuel (insertBelow fuel node l x s) (insertBelow fuel' node l x s) := by
  induction l generalizing x s with
  | zero => exact .refl _ _
  | succ l ih =>
    rw [insertBelow, insertBelow]
    exact (walk_cut h).bind fun x => (CutShort.refl _ _).bind fun v => (CutShort.refl _ _).bind fun s =>
      (CutShort.refl _ _).bind fun s => ih

theorem skiplistInsert_cut {hits : Nat} (h : fuel ≤ fuel') :
    CutShort .fuel (skiplistInsert level fuel s node hits) (skiplistInsert level fuel' s node hits) := by
  rw [skiplistInsert, skiplistInsert]
  exact (insertAbove_cut h).bind fun r => insertBelow_cut h

theorem deleteLevels_cut {l : Nat} (h : fuel ≤ fuel') :
    CutShort .fuel (deleteLevels fuel node l x s) (deleteLevels fuel' node l x s) := by
  induction l generalizing x s with
  | zero => exact .refl _ _
  | succ l ih =>
    rw [deleteLevels, deleteLevels]
    refine (walk_cut h).bind fun x => (findEqual_cut h).bind fun y => ?_
    cases y with
    | none => exact ih
    | some y => exact (CutShort.refl _ _).bind fun v => (CutShort.refl _ _).bind fun s => ih

theorem skiplistDelete_cut (h : fuel ≤ fuel') :
    CutShort .fuel (skiplistDelete level fuel s node) (skiplistDelete level fuel' s node) :=
  deleteLevels_cut h

theorem extractLevels_cut {score : σ} {l : Nat} (h : fuel ≤ fuel') :
    CutShort .fuel (extractLevels fuel score l x s) (extractLevels fuel' score l x s) := by
  induction l generalizing x s with
  | zero => exact .refl _ _
  | succ l ih =>
    rw [extractLevels, extractLevels]
    exact (walk_cut h).bind fun x => (CutShort.refl _ _).bind fun v => (CutShort.refl _ _).bind fun s => ih

theorem skiplistExtractLte_cut {score : σ} (h : fuel ≤ fuel') :
    CutShort .fuel (skiplistExtractLte level fuel s score) (skiplistExtractLte level fuel' s score) := by
  rw [skiplistExtractLte, skiplistExtractLte]
  refine (CutShort.refl _ _).bind fun first => ?_
  split
  · exact (extractLevels_cut h).bind fun r => .refl _ _
  · exact .refl _ _

end Libep

import Libep.SkipList
import Libep.Theory.Chain

/-!
# Walks on the levels of a skip list

The memory of a skip list as links (`SkipList.next`), what a write does to it, and where the loops
of the code stop on a level that is a chain. `Frame` records which links an operation may have
written: every operation is proved once, and what it leaves alone is read off its frame.
-/

namespace Libep
open Chain

namespace SkipList
variable {σ α : Type} {s s' s'' : SkipList σ α} {x y : Ref α} {a n : α} {i j : Nat} {v : Option α}

/-! ### Reads and writes -/

@[simp] theorem valid_header : s.Valid .header = true := rfl

@[simp] theorem valid_node : s.Valid (.node a) = s.live a := rfl

theorem forward_eq (h : s.Valid x) : s.forward x i = .ok (s.next i x) := if_pos h

theorem score_eq (h : s.live a) : s.score a = .ok (s.node a).score := if_pos h

section
variable [DecidableEq α]

theorem setForward_eq (h : s.Valid x) : s.setForward x i v = .ok (s.set x i v) := if_pos h

theorem next_set_same : (s.set x i v).next i = Function.update (s.next i) x v := by
  funext y
  cases x with
  | header => cases y <;> simp [set, next, Function.update]
  | node a =>
    cases y with
    | header => simp [set, next, Function.update]
    | node b =>
      rcases eq_or_ne b a with rfl | h
      · simp [set, next]
      · simp [set, next, h]

theorem next_set_of_ne (h : j ≠ i) : (s.set x i v).next j = s.next j := by
  funext y
  cases x with
  | header => cases y <;> simp [set, next, h]
  | node a =>
    cases y with
    | header => rfl
    | node b =>
      rcases eq_or_ne b a with rfl | hb
      · simp [set, next, h]
      · simp [set, next, hb]

@[simp] theorem live_set : (s.set x i v).live = s.live := by cases x <;> rfl

@[simp] theorem score_set : ((s.set x i v).node a).score = (s.node a).score := by
  cases x with
  | header => rfl
  | node b =>
    rcases eq_or_ne a b with rfl | h
    · simp [set]
    · simp [set, h]

end

/-! ### Frames -/

/-- From `s` to `s'` only links in `W` were written; scores and allocation are as before. -/
structure Frame (s s' : SkipList σ α) (W : Nat → Ref α → Prop) : Prop where
  live : s'.live = s.live
  score : ∀ a, (s'.node a).score = (s.node a).score
  next : ∀ i x, ¬W i x → s'.next i x = s.next i x

namespace Frame
variable {W W' : Nat → Ref α → Prop}

theorem refl : Frame s s W := ⟨rfl, fun _ => rfl, fun _ _ _ => rfl⟩

theorem trans (H : Frame s s' W) (H' : Frame s' s'' W) : Frame s s'' W where
  live := H'.live.trans H.live
  score a := (H'.score a).trans (H.score a)
  next i x h := (H'.next i x h).trans (H.next i x h)

theorem mono (H : Frame s s' W) (h : ∀ i x, W i x → W' i x) : Frame s s' W' :=
  ⟨H.live, H.score, fun i x hx => H.next i x fun hw => hx (h i x hw)⟩

theorem set [DecidableEq α] (h : W i x) : Frame s (s.set x i v) W where
  live := live_set
  score _ := score_set
  next j y hy := by
    rcases eq_or_ne j i with rfl | hj
    · rw [next_set_same]
      apply Function.update_of_ne
      exact fun e => hy (e ▸ h)
    · rw [next_set_of_ne hj]

/-- A chain on a level that was not written. -/
theorem seg (F : Frame s s' W) {l : List α} {t : Option α} (h : ∀ y, ¬W i y)
    (H : Seg Ref.node (s.next i) x l t) : Seg Ref.node (s'.next i) x l t :=
  H.congr fun y _ => F.next i y (h y)

/-- A node with no written link is as before. -/
theorem node (H : Frame s s' W) (h : ∀ i, ¬W i (.node a)) : s'.node a = s.node a := by
  have hf : (s'.node a).forward = (s.node a).forward := funext fun i => H.next i (.node a) (h i)
  have hs := H.score a
  cases h1 : s'.node a; cases h2 : s.node a
  simp_all

/-- Nothing was written. -/
theorem eq_of_forall_not (H : Frame s s' W) (h : ∀ i x, ¬W i x) : s' = s := by
  have hh : s'.header = s.header := funext fun i => H.next i .header (h i _)
  have hn : s'.node = s.node := funext fun a => H.node fun i => h i _
  have hl := H.live
  cases s; cases s'
  simp_all

end Frame

/-! ### Positions

The position of a loop on a level is the header or a node of the level. -/

theorem pos_mono {A A' : List α} (h : ∀ a ∈ A', a ∈ A) (hx : x ∈ Ref.header :: A'.map Ref.node) :
    x ∈ Ref.header :: A.map Ref.node := by
  simp only [List.mem_cons, List.mem_map] at hx ⊢
  rcases hx with rfl | ⟨a, ha, rfl⟩
  · exact .inl rfl
  · exact .inr ⟨a, h a ha, rfl⟩

theorem valid_of_pos {A : List α} (h : ∀ a ∈ A, s.live a) (hx : x ∈ Ref.header :: A.map Ref.node) :
    s.Valid x := by
  simp only [List.mem_cons, List.mem_map] at hx
  rcases hx with rfl | ⟨a, ha, rfl⟩
  · rfl
  · exact h a ha

/-! ### Walks -/

theorem walk_spec {test : α → Res Bool} {p : α → Bool} {l : List α} {fuel : Nat}
    (H : Seg Ref.node (s.next i) x l none) (hx : s.Valid x) (hl : ∀ a ∈ l, s.live a)
    (ht : ∀ a ∈ l, test a = .ok (p a)) (hf : l.length < fuel) :
    s.walk test i fuel x = .ok (last Ref.node x (l.takeWhile p)) := by
  induction l generalizing x fuel with
  | nil =>
    obtain ⟨fuel, rfl⟩ := Nat.exists_eq_succ_of_ne_zero (Nat.ne_of_gt hf)
    simp [walk, forward_eq hx, seg_nil.1 H]
  | cons a l ih =>
    obtain ⟨fuel, rfl⟩ := Nat.exists_eq_succ_of_ne_zero (Nat.ne_of_gt (Nat.zero_lt_of_lt hf))
    have ha := ht a List.mem_cons_self
    simp only [walk, forward_eq hx, H.1, Res.ok_bind, ha]
    cases hp : p a with
    | false => simp [hp]
    | true =>
      simp only [if_true, List.takeWhile_cons, hp, last_cons]
      exact ih H.2 (hl a List.mem_cons_self) (fun b hb => hl b (List.mem_cons_of_mem _ hb))
        (fun b hb => ht b (List.mem_cons_of_mem _ hb)) (Nat.lt_of_succ_lt_succ hf)

private theorem dropWhile_neg {p : α → Bool} {l : List α} (h : l.Pairwise fun a b => p b → p a) :
    ∀ a ∈ l.dropWhile p, p a = false := by
  induction l with
  | nil => simp
  | cons b l ih =>
    obtain ⟨hb, hl⟩ := List.pairwise_cons.1 h
    intro a ha
    cases hp : p b with
    | true => exact ih hl a (by simpa [hp] using ha)
    | false =>
      rw [List.dropWhile_cons_of_neg (by simp [hp])] at ha
      rcases List.mem_cons.1 ha with rfl | ha
      · exact hp
      · exact Bool.eq_false_iff.2 fun h => by simp [hb a ha h] at hp

/-- A walk on a level `P ++ R` that starts at the header or at a node of `P`, for a test that once
false stays false on `P` and is false on `R`, stops in `P` where the test becomes false. -/
theorem walk_from {test : α → Res Bool} {p : α → Bool} {P R : List α} {fuel : Nat}
    (H : Seg Ref.node (s.next i) .header (P ++ R) none) (hx : x ∈ Ref.header :: P.map Ref.node)
    (hl : ∀ a ∈ P ++ R, s.live a) (ht : ∀ a ∈ P ++ R, test a = .ok (p a))
    (hP : P.Pairwise fun a b => p b → p a) (hR : ∀ a ∈ R, p a = false)
    (hf : (P ++ R).length < fuel) :
    ∃ l₁ l₂, P = l₁ ++ l₂ ∧ s.walk test i fuel x = .ok (last Ref.node .header l₁) ∧
      ∀ a ∈ l₂, p a = false := by
  obtain ⟨m₁, m₂, rfl, rfl⟩ := exists_prefix hx
  rw [List.append_assoc] at H hl ht hf
  have hv : s.Valid (last Ref.node .header m₁) :=
    valid_of_pos (fun a ha => hl a (List.mem_append_left _ ha)) (last_mem_cons ..)
  refine ⟨m₁ ++ m₂.takeWhile p, m₂.dropWhile p, ?_, ?_, ?_⟩
  · rw [List.append_assoc, List.takeWhile_append_dropWhile]
  · rw [walk_spec H.right hv (fun a ha => hl a (List.mem_append_right _ ha))
      (fun a ha => ht a (List.mem_append_right _ ha))
      (Nat.lt_of_le_of_lt (by simp) hf), last_append]
    have hR' : R.takeWhile p = [] := by
      cases R with
      | nil => rfl
      | cons b R => simp [hR b List.mem_cons_self]
    rw [List.takeWhile_append, hR']
    split
    · rename_i h
      rw [List.append_nil, (List.takeWhile_prefix p).eq_of_length h]
    · rfl
  · exact dropWhile_neg (List.pairwise_append.1 hP).2.1

/-- The same when the test holds on all of `P`: the walk stops at its end. -/
theorem walk_all {test : α → Res Bool} {p : α → Bool} {P R : List α} {fuel : Nat}
    (H : Seg Ref.node (s.next i) .header (P ++ R) none) (hx : x ∈ Ref.header :: P.map Ref.node)
    (hl : ∀ a ∈ P ++ R, s.live a) (ht : ∀ a ∈ P ++ R, test a = .ok (p a))
    (hP : ∀ a ∈ P, p a = true) (hR : ∀ a ∈ R, p a = false) (hf : (P ++ R).length < fuel) :
    s.walk test i fuel x = .ok (last Ref.node .header P) := by
  have hP' : P.Pairwise fun a b => p b → p a :=
    List.pairwise_of_forall_mem_list fun a ha _ _ _ => hP a ha
  obtain ⟨l₁, l₂, rfl, hw, h₂⟩ := walk_from H hx hl ht hP' hR hf
  cases l₂ with
  | nil => rw [hw, List.append_nil]
  | cons b l₂ =>
    have h1 := hP b (by simp)
    rw [h₂ b List.mem_cons_self] at h1
    cases h1

end SkipList

end Libep

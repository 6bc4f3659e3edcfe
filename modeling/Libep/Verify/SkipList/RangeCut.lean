import Libep.Verify.SkipList.Range

/-!
# What `skiplist_extract` does

The loop is right: on a list whose level `j` is `A j ++ (M j ++ B j)`, the nodes below the range, in it and above
it, it links the nodes below past those of the range. What comes after the loop is not. If there is no node above
the range, the function reads through `NULL`. Otherwise it returns the first of them, and cuts level 0 behind the
last node up to `max`: the nodes of the range are out of the list then, and nobody has them. If there are none, it
is the list that is cut, on level 0 only.
-/

namespace Libep
open Chain SkipList StableList

variable {σ α : Type} [LinearOrder σ] {s s' : SkipList σ α} {min max : σ} {A M B : Nat → List α}

/-- The cuts of the levels `A j ++ (M j ++ B j)` at the scores `min` and `max`. -/
structure RangeCut (s : SkipList σ α) (min max : σ) (A M B : Nat → List α) : Prop where
  live : ∀ j, ∀ a ∈ A j ++ (M j ++ B j), s.live a
  low : ∀ j, ∀ a ∈ A j, (s.node a).score < min
  ge : ∀ j, ∀ a ∈ M j, min ≤ (s.node a).score
  le : ∀ j, ∀ a ∈ M j, (s.node a).score ≤ max
  high : ∀ j, ∀ a ∈ B j, max < (s.node a).score
  nested_low : ∀ j, ∀ a ∈ A (j + 1), a ∈ A j
  nested_mid : ∀ j, ∀ a ∈ M (j + 1), a ∈ M j

namespace RangeCut
variable {W : Nat → Ref α → Prop} {i fuel : Nat} {x : Ref α}

theorem frame (H : RangeCut s min max A M B) (F : Frame s s' W) : RangeCut s' min max A M B where
  live j a ha := by rw [F.live]; exact H.live j a ha
  low j a ha := by rw [F.score]; exact H.low j a ha
  ge j a ha := by rw [F.score]; exact H.ge j a ha
  le j a ha := by rw [F.score]; exact H.le j a ha
  high j a ha := by rw [F.score]; exact H.high j a ha
  nested_low := H.nested_low
  nested_mid := H.nested_mid

theorem live_low (H : RangeCut s min max A M B) : ∀ a ∈ A i, s.live a :=
  fun a ha => H.live i a (List.mem_append_left _ ha)

theorem live_upTo (H : RangeCut s min max A M B) : ∀ a ∈ A i ++ M i, s.live a := fun a ha =>
  H.live i a (by rw [← List.append_assoc]; exact List.mem_append_left _ ha)

/-- The first walk of a level stops before the range. -/
theorem walk_low (H : RangeCut s min max A M B) (hle : min ≤ max)
    (hc : Seg Ref.node (s.next i) .header (A i ++ (M i ++ B i)) none)
    (hx : x ∈ Ref.header :: (A i).map Ref.node) (hf : (A i ++ (M i ++ B i)).length < fuel) :
    s.walk (fun y => do return decide ((← s.score y) < min)) i fuel x = .ok (last Ref.node .header (A i)) := by
  refine walk_all (p := fun a => (s.node a).score < min) hc hx (H.live i) ?_ ?_ ?_ hf
  · intro a ha
    simp [score_eq (H.live i a ha)]
  · exact fun a ha => by simpa using H.low i a ha
  · intro a ha
    rcases List.mem_append.1 ha with ha | ha
    · simpa using H.ge i a ha
    · simpa using le_trans hle (le_of_lt (H.high i a ha))

/-- The second one stops behind it. -/
theorem walk_upTo (H : RangeCut s min max A M B) (hle : min ≤ max)
    (hc : Seg Ref.node (s.next i) .header (A i ++ (M i ++ B i)) none)
    (hx : x ∈ Ref.header :: (A i ++ M i).map Ref.node) (hf : (A i ++ (M i ++ B i)).length < fuel) :
    s.walk (fun y => do return decide ((← s.score y) ≤ max)) i fuel x =
      .ok (last Ref.node .header (A i ++ M i)) := by
  have hlive := H.live i
  rw [← List.append_assoc] at hc hf hlive
  refine walk_all (p := fun a => (s.node a).score ≤ max) hc hx hlive ?_ ?_ ?_ hf
  · intro a ha
    simp [score_eq (hlive a ha)]
  · intro a ha
    rcases List.mem_append.1 ha with ha | ha
    · simpa using le_trans (le_of_lt (H.low i a ha)) hle
    · simpa using H.le i a ha
  · exact fun a ha => by simpa using H.high i a ha

/-- The range begins where a level has a node that is not below it. -/
theorem rangeStart (H : RangeCut s min max A M B) (hle : min ≤ max)
    (hc : Seg Ref.node (s.next i) .header (A i ++ (M i ++ B i)) none) (z : Option (Ref α))
    (hz : ∀ y ∈ z, y ∈ Ref.header :: (A i ++ M i).map Ref.node) :
    ∃ z', Libep.rangeStart min i (last Ref.node .header (A i)) z s = .ok z' ∧
      (z' = none → z = none ∧ M i ++ B i = []) ∧ ∀ y ∈ z', y ∈ Ref.header :: (A i ++ M i).map Ref.node := by
  cases z with
  | some w => exact ⟨some w, rfl, by rintro ⟨⟩, hz⟩
  | none =>
    have hvalid : s.Valid (last Ref.node .header (A i)) := valid_of_pos H.live_low (last_mem_cons ..)
    have hright := hc.right
    simp only [Libep.rangeStart, Option.isSome_none, Bool.false_eq_true, if_false, forward_eq hvalid, Res.ok_bind]
    cases hMB : M i ++ B i with
    | nil =>
      rw [hMB] at hright
      rw [seg_nil.1 hright]
      exact ⟨none, rfl, fun _ => ⟨trivial, rfl⟩, by rintro _ ⟨⟩⟩
    | cons c l =>
      rw [hMB] at hright
      have hmem : c ∈ M i ++ B i := by simp [hMB]
      have hge : min ≤ (s.node c).score := by
        rcases List.mem_append.1 hmem with hc | hc
        · exact H.ge i c hc
        · exact le_trans hle (le_of_lt (H.high i c hc))
      rw [hright.1]
      simp only [score_eq (H.live i c (List.mem_append_right _ hmem)), Res.ok_bind, if_pos hge]
      refine ⟨some _, rfl, by rintro ⟨⟩, fun y hy => ?_⟩
      cases hy
      exact pos_mono (fun a ha => List.mem_append_left _ ha) (last_mem_cons ..)

end RangeCut

/-- The entries below the range, in it, and above it. -/
theorem sorted_range {L : List (Entry σ α)} (h : Sorted Entry.score L) (hle : min ≤ max) :
    L.filter (·.score < min) ++ (inRange min max L ++ above Entry.score max L) = L := by
  have hrange : inRange min max L = upTo Entry.score max (L.filter (min ≤ ·.score)) := by
    rw [upTo, List.filter_filter]
    refine List.filter_congr fun e _ => ?_
    rw [← Bool.decide_and, decide_eq_decide]
    exact and_comm
  have habove : above Entry.score max L = above Entry.score max (L.filter (min ≤ ·.score)) := by
    rw [above, above, List.filter_filter]
    refine List.filter_congr fun e _ => ?_
    rw [← Bool.decide_and, decide_eq_decide]
    exact ⟨fun h => ⟨h, le_trans hle (le_of_lt h)⟩, And.left⟩
  rw [hrange, habove, upTo_append_above (Sorted.filter h)]
  exact Sorted.lt_append_ge h min

variable [DecidableEq α] {fuel : Nat}

/-- The loop cuts the nodes of the range out of every level. -/
theorem rangeLevels_spec {i : Nat} {x : Ref α} {z : Option (Ref α)} (hle : min ≤ max) (G : RangeCut s min max A M B)
    (hc : ∀ j, j < i → Seg Ref.node (s.next j) .header (A j ++ (M j ++ B j)) none)
    (hx : x ∈ Ref.header :: (A i).map Ref.node) (hz : ∀ y ∈ z, y ∈ Ref.header :: (A i ++ M i).map Ref.node)
    (hf : ∀ j, (A j ++ (M j ++ B j)).length < fuel) :
    ∃ z' s', rangeLevels fuel min max i x z s = .ok (if i = 0 then x else last Ref.node .header (A 0), z', s') ∧
      Frame s s' (fun j y => j < i ∧ y ∈ Ref.header :: (A j).map Ref.node) ∧
      (∀ j, j < i → Seg Ref.node (s'.next j) .header (A j ++ B j) none) ∧ (i = 0 → z' = z) ∧
      (0 < i → M 0 ++ B 0 ≠ [] → z' = some (last Ref.node .header (A 0 ++ M 0))) := by
  induction i generalizing s x z with
  | zero => exact ⟨z, s, rfl, .refl, fun j h => by omega, fun _ => rfl, fun h => by omega⟩
  | succ i ih =>
    have hci := hc i (by omega)
    have hw := G.walk_low hle hci (pos_mono (G.nested_low _) hx) (hf _)
    set y := last Ref.node .header (A i) with hy
    have hmem : y ∈ Ref.header :: (A i).map Ref.node := last_mem_cons ..
    have hsub : ∀ a ∈ A (i + 1) ++ M (i + 1), a ∈ A i ++ M i := fun a ha =>
      (List.mem_append.1 ha).elim (fun h => List.mem_append_left _ (G.nested_low i a h))
        fun h => List.mem_append_right _ (G.nested_mid i a h)
    obtain ⟨z₁, hstart, hnone, hz₁⟩ := G.rangeStart hle hci z fun w hw => pos_mono hsub (hz w hw)
    rw [← hy] at hstart
    have hif : (if i = 0 then y else last Ref.node .header (A 0)) = last Ref.node .header (A 0) := by
      split
      · next h0 =>
        subst h0
        rfl
      · rfl
    rw [if_neg (Nat.succ_ne_zero i)]
    cases z₁ with
    | none =>
      obtain ⟨-, hMB⟩ := hnone rfl
      obtain ⟨z', s', hrun, F, hnew, h0, hpos⟩ := ih (z := none) G (fun j hj => hc j (by omega)) hmem
        (by rintro _ ⟨⟩)
      refine ⟨z', s', ?_, F.mono fun j y h => ⟨by omega, h.2⟩, Nat.forall_lt_succ_right.2 ⟨hnew, ?_⟩,
        fun h => absurd h (Nat.succ_ne_zero i), fun _ => ?_⟩
      · simp only [rangeLevels, hw, Res.ok_bind, hstart]
        rw [hrun, hif]
      · obtain ⟨hM, hB⟩ := List.append_eq_nil_iff.1 hMB
        rw [hB]
        rw [hM, hB] at hci
        exact F.seg (fun y hy => Nat.lt_irrefl i hy.1) hci
      · rcases Nat.eq_zero_or_pos i with rfl | hi
        · exact fun h => absurd hMB h
        · exact hpos hi
    | some w =>
      have hw' := G.walk_upTo hle hci (hz₁ w rfl) (hf _)
      set v := last Ref.node .header (A i ++ M i) with hv
      have hvmem : v ∈ Ref.header :: (A i ++ M i).map Ref.node := last_mem_cons ..
      set s₁ := s.set y i (s.next i v) with hs₁
      have F : Frame s s₁ (fun j u => j < i + 1 ∧ u ∈ Ref.header :: (A j).map Ref.node) :=
        .set ⟨by omega, hmem⟩
      have hother : ∀ j, j < i → s₁.next j = s.next j := fun j hj => by
        rw [hs₁, next_set_of_ne (by omega)]
      have hcut : Seg Ref.node (s₁.next i) .header (A i ++ B i) none := by
        rw [hs₁, next_set_same]
        exact hci.cut hci.nodup
      obtain ⟨z', s', hrun, F', hnew, h0, hpos⟩ := ih (z := some v) (G.frame F)
        (fun j hj => by rw [hother j hj]; exact hc j (by omega)) hmem
        (fun u hu => by cases hu; exact hvmem)
      refine ⟨z', s', ?_, F.trans (F'.mono fun j u h => ⟨by omega, h.2⟩),
        Nat.forall_lt_succ_right.2 ⟨hnew, F'.seg (fun u hu => Nat.lt_irrefl i hu.1) hcut⟩,
        fun h => absurd h (Nat.succ_ne_zero i), fun _ hne => ?_⟩
      · simp only [rangeLevels, hw, Res.ok_bind, hstart, hw', forward_eq (valid_of_pos G.live_upTo hvmem),
          setForward_eq (valid_of_pos G.live_low hmem)]
        rw [hrun, hif]
      · rcases Nat.eq_zero_or_pos i with rfl | hi
        · exact h0 rfl
        · exact hpos hi hne

/-- The statements after the loop: there is a node above the range, or `NULL` is read through. -/
theorem skiplistExtract_spec {level : Nat} (hlevel : 0 < level) (hle : min ≤ max) (G : RangeCut s min max A M B)
    (hc : ∀ j, j < level → Seg Ref.node (s.next j) .header (A j ++ (M j ++ B j)) none)
    (hf : ∀ j, (A j ++ (M j ++ B j)).length < fuel) :
    ∃ s₁, Frame s s₁ (fun j y => j < level ∧ y ∈ Ref.header :: (A j).map Ref.node) ∧
      (∀ j, j < level → Seg Ref.node (s₁.next j) .header (A j ++ B j) none) ∧
      skiplistExtract level fuel s min max = if B 0 = [] then .error .invalid
        else .ok ((B 0).head?, s₁.set (last Ref.node .header (A 0 ++ M 0)) 0 none) := by
  obtain ⟨z, s₁, hrun, F, hnew, -, hz⟩ := rangeLevels_spec (x := .header) (z := none) hle G hc List.mem_cons_self
    (by rintro _ ⟨⟩) hf
  rw [if_neg (Nat.ne_of_gt hlevel)] at hrun
  refine ⟨s₁, F, hnew, ?_⟩
  have G₁ := G.frame F
  have hvalid : s₁.Valid (last Ref.node .header (A 0)) := valid_of_pos G₁.live_low (last_mem_cons ..)
  have hright := (hnew 0 hlevel).right
  simp only [skiplistExtract, hrun, Res.ok_bind, forward_eq hvalid]
  cases hB : B 0 with
  | nil =>
    rw [hB] at hright
    rw [seg_nil.1 hright]
    rfl
  | cons b l =>
    have hb : b ∈ B 0 := by simp [hB]
    have hlive : s₁.live b := G₁.live 0 b (List.mem_append_right _ (List.mem_append_right _ hb))
    have hscore : min ≤ (s₁.node b).score := le_trans hle (le_of_lt (G₁.high 0 b hb))
    obtain rfl := hz hlevel (by simp [hB])
    rw [hB] at hright
    rw [hright.1]
    simp only [score_eq hlive, Res.ok_bind, if_pos hscore,
      setForward_eq (valid_of_pos G₁.live_upTo (last_mem_cons Ref.node Ref.header (A 0 ++ M 0)))]
    rfl

namespace SkipList.Rep
variable {level : Nat} {L : List (Entry σ α)} {e : Entry σ α} {l : List (Entry σ α)}

omit [DecidableEq α] in
theorem rangeCut (H : Rep level s L) (hle : min ≤ max) :
    RangeCut s min max (fun j => nodesAt j (L.filter (·.score < min))) (fun j => nodesAt j (inRange min max L))
      (fun j => nodesAt j (above Entry.score max L)) := by
  have hsplit := sorted_range H.sorted hle
  have score : ∀ {j a} {p : Entry σ α → Bool}, a ∈ nodesAt j (L.filter p) →
      ∃ e ∈ L, p e = true ∧ (s.node a).score = e.score := fun ha => by
    obtain ⟨e, he, -, rfl⟩ := mem_nodesAt.1 ha
    obtain ⟨heL, hp⟩ := List.mem_filter.1 he
    exact ⟨e, heL, hp, H.score e heL⟩
  refine ⟨fun j a ha => ?_, fun j a ha => ?_, fun j a ha => ?_, fun j a ha => ?_, fun j a ha => ?_,
    fun j a ha => mem_nodesAt_of_succ ha, fun j a ha => mem_nodesAt_of_succ ha⟩
  · rw [← nodesAt_append, ← nodesAt_append, hsplit] at ha
    exact H.live_of_mem (nodesAt_sublist.subset ha)
  · obtain ⟨e, -, hp, h⟩ := score ha
    exact h ▸ of_decide_eq_true hp
  · obtain ⟨e, -, hp, h⟩ := score ha
    exact h ▸ (of_decide_eq_true hp).1
  · obtain ⟨e, -, hp, h⟩ := score ha
    exact h ▸ (of_decide_eq_true hp).2
  · obtain ⟨e, -, hp, h⟩ := score ha
    exact h ▸ of_decide_eq_true hp

omit [DecidableEq α] in
/-- The nodes of the three parts are different. -/
theorem nodup_range (H : Rep level s L) (hlevel : 0 < level) (hle : min ≤ max) :
    ((L.filter (·.score < min)).map Entry.node ++ ((inRange min max L).map Entry.node ++
      (above Entry.score max L).map Entry.node)).Nodup := by
  rw [← List.map_append, ← List.map_append, sorted_range H.sorted hle]
  exact H.nodup hlevel

/-- The loop leaves the list without the range, and writes to no node of it. -/
theorem extract_cut (H : Rep level s L) (hlevel : 0 < level) (hle : min ≤ max) (hf : L.length < fuel) :
    ∃ s₁, Rep level s₁ (L.filter (·.score < min) ++ above Entry.score max L) ∧
      (∀ a ∈ (inRange min max L).map Entry.node, s₁.node a = s.node a) ∧
      skiplistExtract level fuel s min max = if above Entry.score max L = [] then .error .invalid
        else .ok (((above Entry.score max L).map Entry.node).head?, s₁.set (last Ref.node .header
          ((L.filter (·.score < min)).map Entry.node ++ (inRange min max L).map Entry.node)) 0 none) := by
  have hsplit := sorted_range H.sorted hle
  have hlevels : ∀ j, nodesAt j (L.filter (·.score < min)) ++ (nodesAt j (inRange min max L) ++
      nodesAt j (above Entry.score max L)) = nodesAt j L := fun j => by
    rw [← nodesAt_append, ← nodesAt_append, hsplit]
  obtain ⟨s₁, F, hnew, heq⟩ := skiplistExtract_spec hlevel hle (H.rangeCut hle)
    (fun j hj => by rw [hlevels]; exact H.chain j hj)
    (fun j => by rw [hlevels]; exact Nat.lt_of_le_of_lt nodesAt_length_le hf)
  have hsub : (L.filter (·.score < min) ++ above Entry.score max L).Sublist L := by
    conv_rhs => rw [← hsplit]
    exact (List.Sublist.refl _).append (List.sublist_append_right _ _)
  have hzero : ∀ {p : Entry σ α → Bool}, nodesAt 0 (L.filter p) = (L.filter p).map Entry.node :=
    nodesAt_zero fun e he => H.height e (List.mem_of_mem_filter he)
  refine ⟨s₁, H.of_sublist F hsub (fun e he i h1 _ hw => ?_) (fun i hi => ?_), fun a ha => F.node fun i hw => ?_, ?_⟩
  · -- a node below the range on level `i` reaches level `i`
    obtain ⟨a, ha, h⟩ := List.mem_map.1 (List.mem_of_ne_of_mem (by simp) hw.2)
    obtain ⟨d, hd, hi, rfl⟩ := mem_nodesAt.1 ha
    have := H.eq_of_node_eq hlevel (List.mem_of_mem_filter hd) (hsub.subset he) (Ref.node.inj h)
    subst this
    omega
  · rw [nodesAt_append]
    exact hnew i hi
  · obtain ⟨d, hd, h⟩ := List.mem_map.1 (List.mem_of_ne_of_mem (by simp) hw.2)
    cases h
    have hdisj := (List.nodup_append.1 (H.nodup_range hlevel hle)).2.2
    exact hdisj a (nodesAt_sublist.subset hd) a (List.mem_append_left _ ha) rfl
  · rw [inRange, above] at heq ⊢
    simp only [hzero, List.map_eq_nil_iff] at heq
    exact heq

/-- The cut behind the last node of the range ends the range there, and leaves the list without it as it is. -/
theorem cut_range {s₁ : SkipList σ α} {z : Ref α} (H : Rep level s L) (hlevel : 0 < level) (hle : min ≤ max)
    (H₁ : Rep level s₁ (L.filter (·.score < min) ++ above Entry.score max L))
    (hnode : ∀ a ∈ (inRange min max L).map Entry.node, s₁.node a = s.node a) (hne : inRange min max L ≠ [])
    (hz : z = last Ref.node .header
      ((L.filter (·.score < min)).map Entry.node ++ (inRange min max L).map Entry.node)) :
    Rep level (s₁.set z 0 none) (L.filter (·.score < min) ++ above Entry.score max L) ∧
      From Ref.node ((s₁.set z 0 none).next 0) ((inRange min max L).map Entry.node).head?
        ((inRange min max L).map Entry.node) none := by
  have hnd := H.nodup_range hlevel hle
  obtain ⟨-, hnd₂, hdisj₁⟩ := List.nodup_append.1 hnd
  obtain ⟨hnd₃, -, hdisj₂⟩ := List.nodup_append.1 hnd₂
  set low := (L.filter (·.score < min)).map Entry.node with hlow
  set mid := (inRange min max L).map Entry.node with hmid
  obtain ⟨m, k, hcons⟩ := List.exists_cons_of_ne_nil hne
  rw [hcons, List.map_cons] at hmid
  have hzk : z = last Ref.node (.node m.node) (k.map Entry.node) := by rw [hz, last_append, hmid, last_cons]
  obtain ⟨b, hb, hzb⟩ : ∃ b ∈ mid, z = .node b := by
    rcases last_mem Ref.node (.node m.node) (k.map Entry.node) with h | ⟨b, hb, h⟩
    · exact ⟨m.node, by simp [hmid], hzk.trans h⟩
    · exact ⟨b, by simpa [hmid] using .inr (List.mem_map.1 hb), hzk.trans h⟩
  constructor
  · rw [hzb]
    refine H₁.move rfl (fun d hd => ?_) fun d hd => by rw [live_set]; exact H₁.live d hd
    have hdb : d.node ≠ b := fun h => by
      rcases List.mem_append.1 hd with hd | hd
      · exact hdisj₁ d.node (List.mem_map_of_mem hd) b (List.mem_append_left _ hb) h
      · exact hdisj₂ b hb d.node (List.mem_map_of_mem hd) h.symm
    simp [SkipList.set, hdb]
  · have hc := H.chain_zero hlevel
    rw [← sorted_range H.sorted hle, List.map_append, List.map_append, ← hlow] at hc
    obtain ⟨t, hseg⟩ : ∃ t, Seg Ref.node (s.next 0) (last Ref.node .header low) mid t := ⟨_, hc.right.left⟩
    rw [hmid] at hseg hnd₃ hnode ⊢
    -- the loop wrote to no node of the range
    have hkeep : Seg Ref.node (s₁.next 0) (.node m.node) (k.map Entry.node) t := by
      refine hseg.2.congr fun y hy => ?_
      obtain ⟨a, ha, rfl⟩ := List.mem_map.1 (show y ∈ (m.node :: k.map Entry.node).map Ref.node from hy)
      show (s₁.node a).forward 0 = (s.node a).forward 0
      rw [hnode a ha]
    refine ⟨rfl, ?_⟩
    rw [next_set_same, hzk]
    exact hkeep.close (hnd₃.map fun _ _ h => Ref.node.inj h)

/-- Without nodes in the range the cut is behind the nodes below it, on level 0 only. -/
theorem cut_low {low high : List (Entry σ α)} (H : Rep level s (low ++ high)) (hlevel : 0 < level) :
    Seg Ref.node ((s.set (last Ref.node .header (low.map Entry.node)) 0 none).next 0) .header
        (low.map Entry.node) none ∧
      ∀ i, 0 < i → i < level → Seg Ref.node ((s.set (last Ref.node .header (low.map Entry.node)) 0 none).next i)
        .header (nodesAt i (low ++ high)) none := by
  have hzero := H.chain_zero hlevel
  rw [List.map_append] at hzero
  constructor
  · rw [next_set_same]
    refine hzero.left.close ?_
    have hnd := hzero.nodup
    rw [List.map_append, ← List.cons_append] at hnd
    exact (List.nodup_append.1 hnd).1
  · intro i hi hlt
    rw [next_set_of_ne (by omega)]
    exact H.chain i hlt

end SkipList.Rep

/-- **What `skiplist_extract` does.** With no node above the range it reads through `NULL`. Otherwise it returns the
chain of the nodes above the range. If there are nodes in the range, the list is left without them, with the nodes
that were returned, and they are a chain of their own. If there are none, level 0 ends before the nodes that are
returned, and the other levels are as before. -/
theorem skiplist_extract_spec {level : Nat} {L : List (Entry σ α)} (hlevel : 1 ≤ level) (H : Rep level s L)
    (hle : min ≤ max) : ∃ n, ∀ fuel, n ≤ fuel →
      (above Entry.score max L = [] → skiplistExtract level fuel s min max = .error .invalid) ∧
      ∀ e l, above Entry.score max L = e :: l → ∃ s',
        skiplistExtract level fuel s min max = .ok (some e.node, s') ∧
          From Ref.node (s'.next 0) (some e.node) ((e :: l).map Entry.node) none ∧
          (inRange min max L ≠ [] → Rep level s' (L.filter (·.score < min) ++ e :: l) ∧
            From Ref.node (s'.next 0) ((inRange min max L).map Entry.node).head?
              ((inRange min max L).map Entry.node) none) ∧
          (inRange min max L = [] →
            Seg Ref.node (s'.next 0) .header ((L.filter (·.score < min)).map Entry.node) none ∧
              ∀ i, 0 < i → i < level → Seg Ref.node (s'.next i) .header (nodesAt i L) none) := by
  refine ⟨L.length + 1, fun fuel hf => ?_⟩
  have hsplit := sorted_range H.sorted hle
  have hnd := H.nodup_range hlevel hle
  obtain ⟨s₁, H₁, hnode, heq⟩ := H.extract_cut hlevel hle hf
  refine ⟨fun hnil => by rw [heq, if_pos hnil], fun e l hhigh => ?_⟩
  have hrange := fun hne => H.cut_range hlevel hle H₁ hnode hne rfl
  rw [hhigh] at heq H₁ hnd hsplit hrange
  rw [if_neg (by simp)] at heq
  set z := last Ref.node .header
    ((L.filter (·.score < min)).map Entry.node ++ (inRange min max L).map Entry.node) with hz
  refine ⟨_, heq, ⟨rfl, ?_⟩, hrange, fun hnil => ?_⟩
  · have hzero := H₁.chain_zero hlevel
    rw [List.map_append] at hzero
    rw [← List.append_assoc] at hnd
    -- the node behind which the list is cut is not above the range
    have hzhigh : ∀ a ∈ (e :: l).map Entry.node, z ≠ .node a := fun a ha h => by
      have hmem : z ∈ _ := last_mem_cons Ref.node Ref.header
        ((L.filter (·.score < min)).map Entry.node ++ (inRange min max L).map Entry.node)
      rw [h] at hmem
      obtain ⟨b, hb, hba⟩ := List.mem_map.1 (List.mem_of_ne_of_mem (by simp) hmem)
      cases hba
      exact (List.nodup_append.1 hnd).2.2 a hb a ha rfl
    rw [next_set_same]
    refine hzero.right.2.update_of_notMem fun h => ?_
    rcases List.mem_cons.1 h with h | h
    · exact hzhigh e.node (by simp) h
    · obtain ⟨a, ha, h⟩ := List.mem_map.1 h
      exact hzhigh a (List.mem_cons_of_mem _ ha) h.symm
  · rw [hnil, List.map_nil, List.append_nil] at hz
    rw [hnil, List.nil_append] at hsplit
    have hcut := H₁.cut_low hlevel
    rw [hsplit, ← hz] at hcut
    exact hcut

theorem skiplist_extract_spec_sample :
    ∃ fuel s', skiplistExtract 1 fuel sampleRange 2 2 = .ok (some 3, s') ∧
      From Ref.node (s'.next 0) (some 3) [3] none ∧ Rep 1 s' [⟨1, 1, 1⟩, ⟨3, 3, 1⟩] ∧
      From Ref.node (s'.next 0) (some 2) [2] none := by
  obtain ⟨n, hn⟩ := skiplist_extract_spec (Nat.le_refl 1) sampleRange_rep (Nat.le_refl 2)
  obtain ⟨s', hrun, hret, hrange, -⟩ := (hn n (Nat.le_refl n)).2 ⟨3, 3, 1⟩ [] (by decide)
  obtain ⟨hrep, hchain⟩ := hrange (by decide)
  exact ⟨n, s', hrun, hret, hrep, hchain⟩

end Libep

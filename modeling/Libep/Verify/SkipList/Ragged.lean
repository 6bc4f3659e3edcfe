import Libep.Theory.StableList
import Libep.Verify.SkipList.Insert
import Libep.Verify.SkipList.Delete
import Libep.Verify.SkipList.Extract

/-!
# The skip list with shift

`skiplist_shift` gives the header all links of the node it takes off, so an upper level of the header
may miss nodes that reach it: these nodes are *hidden* on that level until a later shift takes a node
whose links lead to them. `Ragged level s L p` is what remains of the shape of the list: from every place,
not only from the header, the links of each level run through a chain `p i x` of later nodes, and the chain
of a level is a part of the chain of the level below. Each operation keeps it; `skiplist_delete` does so
for a node that no hidden node is linked to.
-/

namespace Libep
open Chain SkipList StableList

variable {σ α : Type}

namespace SkipList

/-- The scores in memory, as the key of the nodes. -/
abbrev key (s : SkipList σ α) (a : α) : σ := (s.node a).score

/-- `a` is on level `i`: the level-`i` links lead to it from the header. -/
def OnLevel (s : SkipList σ α) (i : Nat) (a : α) : Prop :=
  ∃ l, Seg Ref.node (s.next i) .header l (some a)

/-- Every linked node whose level-`i` link is `n` is on level `i`. -/
def Unhidden (level : Nat) (s : SkipList σ α) (n : α) : Prop :=
  ∀ i, i < level → ∀ a, s.OnLevel 0 a → s.next i (.node a) = some n → s.OnLevel i a

variable [LinearOrder σ]

/-- The memory `s` holds the nodes `L`; the level-`i` links from the place `x` on run through `p i x`. -/
structure Ragged (level : Nat) (s : SkipList σ α) (L : List α) (p : Nat → Ref α → List α) : Prop where
  zero : p 0 .header = L
  path : ∀ i, i < level → ∀ x ∈ Ref.header :: L.map Ref.node, Seg Ref.node (s.next i) x (p i x) none
  nested : ∀ i, ∀ x ∈ Ref.header :: L.map Ref.node, (p (i + 1) x).Sublist (p i x)
  live : ∀ a ∈ L, s.live a
  sorted : Sorted s.key L

end SkipList

namespace SkipList.Ragged
variable [LinearOrder σ] {level : Nat} {s s' : SkipList σ α} {L : List α}
  {p : Nat → Ref α → List α} {i : Nat} {x : Ref α} {a n : α}

/-! ### Paths -/

theorem sublist_zero (H : Ragged level s L p) (hx : x ∈ Ref.header :: L.map Ref.node) :
    ∀ i, (p i x).Sublist (p 0 x)
  | 0 => .refl _
  | i + 1 => (H.nested i x hx).trans (H.sublist_zero hx i)

theorem sublist_header (H : Ragged level s L p) (i : Nat) : (p i .header).Sublist L := by
  rw [← H.zero]
  exact H.sublist_zero List.mem_cons_self i

theorem nodup (H : Ragged level s L p) (hlevel : 0 < level) : L.Nodup :=
  H.zero ▸ (H.path 0 hlevel .header List.mem_cons_self).nodup_nodes

/-- The path from a place of a path is the rest of it. -/
theorem path_last (H : Ragged level s L p) (hi : i < level) (hx : x ∈ Ref.header :: L.map Ref.node)
    {l₁ l₂ : List α} (hl : p i x = l₁ ++ l₂)
    (hlast : last Ref.node x l₁ ∈ Ref.header :: L.map Ref.node) :
    p i (last Ref.node x l₁) = l₂ := by
  have h := H.path i hi x hx
  rw [hl] at h
  exact (H.path i hi _ hlast).unique h.right

/-- The nodes after a linked node. -/
theorem path_node (H : Ragged level s L p) (hlevel : 0 < level) {l₁ l₂ : List α}
    (hL : L = l₁ ++ a :: l₂) : p 0 (.node a) = l₂ := by
  have hlast : last Ref.node .header (l₁ ++ [a]) = Ref.node a := by simp
  rw [← hlast]
  refine H.path_last hlevel List.mem_cons_self (by rw [H.zero, hL]; simp) ?_
  rw [hlast, hL]
  simp

/-- A path leads to linked nodes. -/
theorem path_sublist (H : Ragged level s L p) (hlevel : 0 < level)
    (hx : x ∈ Ref.header :: L.map Ref.node) (i : Nat) : (p i x).Sublist L := by
  refine (H.sublist_zero hx i).trans ?_
  rcases List.mem_cons.1 hx with rfl | hx
  · rw [H.zero]
  · obtain ⟨a, ha, rfl⟩ := List.mem_map.1 hx
    obtain ⟨l₁, l₂, hL⟩ := List.append_of_mem ha
    rw [H.path_node hlevel hL, hL]
    exact (List.sublist_cons_self a l₂).trans (List.sublist_append_right ..)

/-- The nodes of a path are places of the list. -/
theorem places_subset (H : Ragged level s L p) (hlevel : 0 < level)
    (hx : x ∈ Ref.header :: L.map Ref.node) {y : Ref α} (hy : y ∈ x :: (p i x).map Ref.node) :
    y ∈ Ref.header :: L.map Ref.node := by
  rcases List.mem_cons.1 hy with rfl | hy
  · exact hx
  · obtain ⟨b, hb, rfl⟩ := List.mem_map.1 hy
    exact List.mem_cons_of_mem _ (List.mem_map_of_mem ((H.path_sublist hlevel hx i).subset hb))

/-- A path leads to nodes of no smaller score. -/
theorem score_le (H : Ragged level s L p) (hlevel : 0 < level) (ha : a ∈ L) {b : α}
    (hb : b ∈ p i (.node a)) : (s.node a).score ≤ (s.node b).score := by
  have hx : Ref.node a ∈ Ref.header :: L.map Ref.node :=
    List.mem_cons_of_mem _ (List.mem_map_of_mem ha)
  obtain ⟨l₁, l₂, hL⟩ := List.append_of_mem ha
  have hs := H.sorted
  have hb' := (H.sublist_zero hx i).subset hb
  rw [H.path_node hlevel hL] at hb'
  rw [hL] at hs
  exact (List.pairwise_cons.1 (List.pairwise_append.1 hs).2.1).1 b hb'

theorem mem_iff_onLevel (H : Ragged level s L p) (hi : i < level) :
    a ∈ p i .header ↔ s.OnLevel i a := (H.path i hi .header List.mem_cons_self).mem_iff_exists_seg

/-- A memory with the same header and the same linked nodes. -/
theorem move (H : Ragged level s L p) (hlevel : 0 < level) (hh : s'.header = s.header)
    (hn : ∀ a ∈ L, s'.node a = s.node a) (hl : ∀ a ∈ L, s'.live a) : Ragged level s' L p := by
  refine ⟨H.zero, fun i hi x hx => ?_, H.nested, hl, ?_⟩
  · apply (H.path i hi x hx).congr
    intro y hy
    have hyL := H.places_subset hlevel hx hy
    rcases List.mem_cons.1 hyL with rfl | hyL
    · simp [next, hh]
    · obtain ⟨a, ha, rfl⟩ := List.mem_map.1 hyL
      simp [next, hn a ha]
  · refine H.sorted.imp_of_mem fun ha hb h => ?_
    simpa [key, hn _ ha, hn _ hb] using h

/-! ### Insertion -/

/-- The place of `n` on the levels of the header. -/
theorem gap (H : Ragged level s L p) (hn : s.live n) (hL : n ∉ L) :
    Gap s n (fun j => upTo s.key (s.node n).score (p j .header))
      (fun j => above s.key (s.node n).score (p j .header)) := by
  refine ⟨hn, fun j a ha => ?_, fun j a ha => (mem_upTo.1 ha).2, fun j a ha => (mem_above.1 ha).2,
    fun j ha => hL ?_, fun j a ha => ?_⟩
  · rw [upTo_append_above (H.sorted.sublist (H.sublist_header j))] at ha
    exact H.live a ((H.sublist_header j).subset ha)
  · rw [upTo_append_above (H.sorted.sublist (H.sublist_header j))] at ha
    exact (H.sublist_header j).subset ha
  · obtain ⟨h1, h2⟩ := mem_upTo.1 ha
    exact mem_upTo.2 ⟨(H.nested j _ List.mem_cons_self).subset h1, h2⟩

/-- The last place on level `i` with score at most `c`. -/
def lastUpTo (s : SkipList σ α) (p : Nat → Ref α → List α) (c : σ) (i : Nat) : Ref α :=
  last Ref.node .header (upTo s.key c (p i .header))

theorem lastUpTo_mem (c : σ) (i : Nat) :
    lastUpTo s p c i ∈ Ref.header :: (p i .header).map Ref.node :=
  pos_mono (fun _ ha => (mem_upTo.1 ha).1) (last_mem_cons ..)

/-- A path through the last place with score at most `c` is split there at `c`. -/
theorem split_at (H : Ragged level s L p) (hlevel : 0 < level) (hi : i < level) {c : σ}
    (hx : x ∈ Ref.header :: L.map Ref.node)
    (hy : lastUpTo s p c i ∈ x :: (p i x).map Ref.node) :
    last Ref.node x (upTo s.key c (p i x)) = lastUpTo s p c i ∧
      above s.key c (p i x) =
        above s.key c (p i .header) := by
  obtain ⟨l₁, l₂, hl, hlast⟩ := exists_prefix hy
  have hplace := H.places_subset hlevel hx hy
  have hsort := H.sorted.sublist (H.path_sublist hlevel hx i)
  have h₂ : l₂ = above s.key c (p i .header) := by
    rw [← H.path_last hi hx hl (hlast ▸ hplace), ← hlast, lastUpTo]
    apply H.path_last hi List.mem_cons_self
    · rw [upTo_append_above (H.sorted.sublist (H.sublist_header i))]
    · exact hplace
  have h₁ : ∀ a ∈ l₁, (s.node a).score ≤ c := by
    rcases l₁.eq_nil_or_concat with rfl | ⟨m, b, rfl⟩
    · nofun
    · -- the last of these nodes is the place itself
      have hb : (s.node b).score ≤ c := by
        rcases last_mem Ref.node .header
          (upTo s.key c (p i .header)) with h | ⟨d, hd, h⟩
        · rw [lastUpTo, h] at hlast
          simp at hlast
        · rw [lastUpTo, h] at hlast
          simp only [List.concat_eq_append, last_append, last_cons, last_nil, Ref.node.injEq] at hlast
          exact hlast ▸ (mem_upTo.1 hd).2
      intro a ha
      rw [hl] at hsort
      simp only [List.concat_eq_append, List.mem_append, List.mem_singleton] at ha hsort
      rcases ha with ha | rfl
      · have := (List.pairwise_append.1 (List.pairwise_append.1 hsort).1).2.2 a ha b (by simp)
        exact le_trans this hb
      · exact hb
  have h₂' : ∀ a ∈ l₂, c < s.key a := by
    rw [h₂]
    exact fun a ha => (mem_above.1 ha).2
  have hsplit := split_eq h₁ h₂'
  rw [hl, hsplit.1, hsplit.2]
  exact ⟨hlast.symm, h₂⟩

variable [DecidableEq α] {fuel : Nat}

/-- The paths after the insertion of `n` on the levels below `l`. -/
def insertPaths (s : SkipList σ α) (p : Nat → Ref α → List α) (n : α) (l i : Nat) (x : Ref α) :
    List α :=
  if x = .node n then if i < l then above s.key (s.key n) (p i .header) else []
  else if i < l ∧ lastUpTo s p (s.key n) i ∈ x :: (p i x).map Ref.node then
    stableInsert s.key n (p i x)
  else p i x

omit [DecidableEq α] in
/-- A path on a level goes through the last place on this level, if it does so on the level above. -/
theorem lastUpTo_mem_of_succ (H : Ragged level s L p) (hlevel : 0 < level) {c : σ}
    (hi : i + 1 < level) (hx : x ∈ Ref.header :: L.map Ref.node)
    (hy : lastUpTo s p c (i + 1) ∈ x :: (p (i + 1) x).map Ref.node) :
    lastUpTo s p c i ∈ x :: (p i x).map Ref.node := by
  have hplace := H.places_subset hlevel hx hy
  have hy' : lastUpTo s p c (i + 1) ∈ x :: (p i x).map Ref.node :=
    List.cons_subset_cons _ ((H.nested i x hx).map _).subset hy
  have hh : lastUpTo s p c (i + 1) ∈ Ref.header :: (upTo s.key c (p i .header)).map Ref.node :=
    List.cons_subset_cons _ (((H.nested i _ List.mem_cons_self).filter _).map _).subset
      (last_mem_cons ..)
  obtain ⟨k₁, k₂, hk, hlast⟩ := exists_prefix hy'
  obtain ⟨m₁, m₂, hm, hlast'⟩ := exists_prefix hh
  have hk₂ : k₂ = m₂ ++ above s.key c (p i .header) := by
    rw [← H.path_last (by omega) hx hk (hlast ▸ hplace), ← hlast, hlast']
    apply H.path_last (by omega) List.mem_cons_self
    · rw [← List.append_assoc, ← hm, upTo_append_above (H.sorted.sublist (H.sublist_header i))]
    · exact hlast' ▸ hplace
  have hend : lastUpTo s p c i = last Ref.node x (k₁ ++ m₂) := by
    rw [lastUpTo, hm, last_append, ← hlast', hlast, last_append]
  rw [hend, hk, hk₂, ← List.append_assoc, List.map_append, ← List.cons_append]
  exact List.mem_append_left _ (last_mem_cons ..)

omit [DecidableEq α] in
theorem place_of_insert {key : α → σ} (hx : x ∈ Ref.header :: (stableInsert key n L).map Ref.node)
    (hxn : x ≠ .node n) : x ∈ Ref.header :: L.map Ref.node := by
  simp only [List.mem_cons, List.mem_map, mem_stableInsert] at hx ⊢
  rcases hx with rfl | ⟨a, rfl | ha, rfl⟩
  · exact .inl rfl
  · exact absurd rfl hxn
  · exact .inr ⟨a, ha, rfl⟩

theorem insertPaths_nested (H : Ragged level s L p) (hlevel : 0 < level) {l : Nat} (hl : l ≤ level)
    (hx : x ∈ Ref.header :: (stableInsert s.key n L).map Ref.node) (i : Nat) :
    (insertPaths s p n l (i + 1) x).Sublist (insertPaths s p n l i x) := by
  unfold insertPaths
  rcases eq_or_ne x (.node n) with rfl | hxn
  · rw [if_pos rfl, if_pos rfl]
    rcases Nat.lt_or_ge (i + 1) l with hi | hi
    · rw [if_pos hi, if_pos (by omega)]
      exact (H.nested i _ List.mem_cons_self).filter _
    · rw [if_neg (Nat.not_lt.2 hi)]
      exact List.nil_sublist _
  · have hxL := place_of_insert hx hxn
    rw [if_neg hxn, if_neg hxn]
    split
    · rename_i h
      rw [if_pos ⟨by omega, H.lastUpTo_mem_of_succ hlevel (by omega) hxL h.2⟩]
      exact stableInsert_sublist (H.nested i x hxL) n
    · apply (H.nested i x hxL).trans
      split
      · exact sublist_stableInsert (H.sorted.sublist (H.path_sublist hlevel hxL i)) n
      · exact .refl _

/-- `skiplist_insert` of a node that is not linked puts it in its place. -/
theorem insert (H : Ragged level s L p) (hlevel : 0 < level) (hn : s.live n) (hL : n ∉ L)
    (hf : L.length < fuel) (hits : Nat) :
    ∃ s' p', skiplistInsert level fuel s n hits = .ok s' ∧
      Ragged level s' (stableInsert s.key n L) p' ∧ Frame s s' fun _ _ => True := by
  set l := min level (hits + 1) with hl
  have hll : l ≤ level := Nat.min_le_left ..
  have hl0 : 0 < l := Nat.lt_min.2 ⟨hlevel, Nat.succ_pos _⟩
  have hsplit : ∀ j, upTo s.key (s.key n) (p j .header) ++ above s.key (s.key n) (p j .header) =
      p j .header := fun j => upTo_append_above (H.sorted.sublist (H.sublist_header j)) _
  have hpath : ∀ j, j < level → Seg Ref.node (s.next j) .header
      (upTo s.key (s.key n) (p j .header) ++ above s.key (s.key n) (p j .header)) none := by
    intro j hj
    rw [hsplit]
    exact H.path j hj _ List.mem_cons_self
  obtain ⟨s', hrun, F, hnew, htop⟩ := skiplistInsert_spec level hits hl (H.gap hn hL) hpath
    (fun j => by rw [hsplit]; exact Nat.lt_of_le_of_lt (H.sublist_header j).length_le hf)
  have hkey : s'.key = s.key := funext F.score
  have hnL : Ref.node n ∉ Ref.header :: L.map Ref.node := by simpa using hL
  -- the only links of other places that change are those of the last places
  have hlink : ∀ i, i < l → s'.next i = Function.update (Function.update (s.next i) (.node n)
      (s.next i (lastUpTo s p (s.key n) i))) (lastUpTo s p (s.key n) i) (some n) := by
    intro i hi
    refine (hpath i (by omega)).eq_insert (hnew i hi) (fun h => hnL ?_) fun y hy h => F.next i y ?_
    · exact pos_mono (fun a ha => (H.sublist_header i).subset (mem_upTo.1 ha).1) h
    · rintro (h' | ⟨-, h'⟩)
      · exact hy h'
      · exact h h'
  refine ⟨s', insertPaths s p n l, hrun, ⟨?_, fun i hi x hx => ?_, fun i x hx => ?_, fun a ha => ?_, ?_⟩,
    F.mono fun _ _ _ => trivial⟩
  · have hy := lastUpTo_mem (s := s) (p := p) (s.key n) 0
    rw [insertPaths, if_neg (by simp), if_pos ⟨hl0, hy⟩, H.zero]
  · unfold insertPaths
    rcases eq_or_ne x (.node n) with rfl | hxn
    · rw [if_pos rfl]
      split
      · rename_i hil
        exact (hnew i hil).right.2
      · exact htop i (by omega) hi
    · have hxL := place_of_insert hx hxn
      have hfresh : Ref.node n ∉ x :: (p i x).map Ref.node :=
        fun h => hnL (H.places_subset hlevel hxL h)
      rw [if_neg hxn]
      split
      · rename_i h
        obtain ⟨hlast, hab⟩ := H.split_at hlevel hi hxL h.2
        have hseg := H.path i hi x hxL
        have hsx := upTo_append_above (H.sorted.sublist (H.path_sublist hlevel hxL i)) (s.key n)
        rw [← hsx] at hseg hfresh
        rw [hlink i h.1, ← hlast]
        exact hseg.insert hseg.nodup hfresh
      · rename_i h
        rcases Nat.lt_or_ge i l with hil | hil
        · rw [hlink i hil]
          exact ((H.path i hi x hxL).update_of_notMem hfresh).update_of_notMem fun hy => h ⟨hil, hy⟩
        · apply (H.path i hi x hxL).congr
          intro y hy
          apply F.next i y
          rintro (rfl | ⟨h', -⟩)
          · exact hfresh hy
          · exact absurd h' (Nat.not_lt.2 hil)
  · exact H.insertPaths_nested hlevel hll hx i
  · rw [F.live]
    rcases mem_stableInsert.1 ha with rfl | ha
    · exact hn
    · exact H.live a ha
  · rw [hkey]
    exact H.sorted.stableInsert n

/-! ### Extraction -/

/-- `skiplist_extract_lte` takes the nodes with score at most `c` off the front of the list. -/
theorem extractLte (H : Ragged level s L p) (hlevel : 0 < level) (hf : L.length < fuel) (c : σ) :
    ∃ s' p', skiplistExtractLte level fuel s c = .ok ((upTo s.key c L).head?, s') ∧
      Ragged level s' (above s.key c L) p' ∧
      From Ref.node (s'.next 0) (upTo s.key c L).head? (upTo s.key c L) none ∧
      Frame s s' fun _ _ => True := by
  have hsplit : ∀ j, upTo s.key c (p j .header) ++ above s.key c (p j .header) = p j .header :=
    fun j => upTo_append_above (H.sorted.sublist (H.sublist_header j)) _
  have G : Cut s c (fun j => upTo s.key c (p j .header)) (fun j => above s.key c (p j .header)) := by
    refine ⟨fun j a ha => ?_, fun j a ha => (mem_upTo.1 ha).2, fun j a ha => (mem_above.1 ha).2,
      fun j => (((H.nested j _ List.mem_cons_self).filter _).subset)⟩
    rw [hsplit] at ha
    exact H.live a ((H.sublist_header j).subset ha)
  obtain ⟨s', hrun, F, hfrom, hnew⟩ := skiplistExtractLte_spec hlevel G
    (fun j hj => by rw [hsplit]; exact H.path j hj _ List.mem_cons_self)
    (fun j => by rw [hsplit]; exact Nat.lt_of_le_of_lt (H.sublist_header j).length_le hf)
  have hkey : s'.key = s.key := funext F.score
  simp only [H.zero] at hrun hfrom
  refine ⟨s', fun i x => if x = .header then above s.key c (p i .header) else p i x, hrun,
    ⟨?_, fun i hi x hx => ?_, fun i x hx => ?_, fun a ha => ?_, ?_⟩, hfrom,
    F.mono fun _ _ _ => trivial⟩
  · rw [if_pos rfl, H.zero]
  · rcases List.mem_cons.1 hx with rfl | hx
    · rw [if_pos rfl]
      exact hnew i hi
    · obtain ⟨a, ha, rfl⟩ := List.mem_map.1 hx
      rw [if_neg (by simp)]
      obtain ⟨haL, hca⟩ := mem_above.1 ha
      have hxL : Ref.node a ∈ Ref.header :: L.map Ref.node :=
        List.mem_cons_of_mem _ (List.mem_map_of_mem haL)
      apply (H.path i hi _ hxL).congr
      intro y hy
      apply F.next i y
      rintro (rfl | ⟨rfl, b, hb, rfl⟩)
      · simp at hy
      · -- the nodes from `a` on are above `c`
        have hcb : c < s.key b := by
          rcases List.mem_cons.1 hy with h | h
          · cases h
            exact hca
          · obtain ⟨d, hd, h⟩ := List.mem_map.1 h
            cases h
            exact lt_of_lt_of_le hca (H.score_le hlevel haL hd)
        exact absurd (mem_upTo.1 hb).2 (not_le.2 hcb)
  · rcases List.mem_cons.1 hx with rfl | hx
    · rw [if_pos rfl, if_pos rfl]
      exact (H.nested i _ List.mem_cons_self).filter _
    · obtain ⟨a, ha, rfl⟩ := List.mem_map.1 hx
      rw [if_neg (by simp), if_neg (by simp)]
      exact H.nested i _ (List.mem_cons_of_mem _ (List.mem_map_of_mem (mem_above.1 ha).1))
  · rw [F.live]
    exact H.live a (mem_above.1 ha).1
  · rw [hkey]
    exact H.sorted.filter

/-! ### Shift -/

omit [LinearOrder σ] in
theorem shiftLevels_spec {r : α} (hr : s.live r) (k : Nat) :
    ∃ s', shiftLevels r k s = .ok s' ∧ Frame s s' (fun j y => j < k ∧ y = .header) ∧
      ∀ j, j < k → s'.next j .header = s.next j (.node r) := by
  induction k generalizing s with
  | zero => exact ⟨s, rfl, .refl, fun j h => by omega⟩
  | succ k ih =>
    set s₁ := s.set .header k (s.next k (.node r)) with hs₁
    have F : Frame s s₁ (fun j y => j < k + 1 ∧ y = .header) := .set ⟨by omega, rfl⟩
    obtain ⟨s', hrun, F', hnew⟩ := ih (s := s₁) (by rw [F.live]; exact hr)
    refine ⟨s', ?_, F.trans (F'.mono fun j y h => ⟨by omega, h.2⟩),
      Nat.forall_lt_succ_right.2 ⟨fun j hj => ?_, ?_⟩⟩
    · simp only [shiftLevels, forward_eq (x := .node r) hr, setForward_eq (x := .header) rfl,
        Res.ok_bind]
      exact hrun
    · rw [hnew j hj, F.next j _ fun h => by cases h.2]
    · rw [F'.next k _ fun h => Nat.lt_irrefl k h.1, hs₁, next_set_same, Function.update_self]

/-- `skiplist_shift` takes the first node off the list. -/
theorem shift (H : Ragged level s L p) (hlevel : 0 < level) :
    ∃ s' p', skiplistShift level s = .ok (L.head?, s') ∧ Ragged level s' L.tail p' ∧
      Frame s s' fun _ y => y = .header := by
  have h₀ := H.path 0 hlevel _ List.mem_cons_self
  rw [H.zero] at h₀
  cases L with
  | nil =>
    refine ⟨s, p, ?_, H, .refl⟩
    simp [skiplistShift, forward_eq (x := .header) rfl, seg_nil.1 h₀]
  | cons r L =>
    obtain ⟨s', hrun, F, hnew⟩ := shiftLevels_spec (H.live r List.mem_cons_self) level
    have hkey : s'.key = s.key := funext F.score
    have hr : Ref.node r ∈ Ref.header :: (r :: L).map Ref.node := by simp
    have hsub : ∀ x ∈ L.map Ref.node, x ∈ Ref.header :: (r :: L).map Ref.node :=
      fun x hx => List.mem_cons_of_mem _ (List.mem_cons_of_mem _ hx)
    -- a node of the list keeps its path, which does not go through the header
    have hkeep : ∀ i, i < level → ∀ a ∈ r :: L,
        Seg Ref.node (s'.next i) (.node a) (p i (.node a)) none := by
      intro i hi a ha
      apply (H.path i hi _ (List.mem_cons_of_mem _ (List.mem_map_of_mem ha))).congr
      intro y hy
      apply F.next i y
      rintro ⟨-, rfl⟩
      simp at hy
    refine ⟨s', fun i x => if x = .header then p i (.node r) else p i x, ?_,
      ⟨?_, fun i hi x hx => ?_, fun i x hx => ?_, fun a ha => ?_, ?_⟩, F.mono fun _ _ h => h.2⟩
    · simp [skiplistShift, forward_eq (x := .header) rfl, h₀.1, hrun]
    · rw [if_pos rfl]
      exact H.path_node hlevel (show r :: L = [] ++ r :: L from rfl)
    · rcases List.mem_cons.1 hx with rfl | hx
      · rw [if_pos rfl]
        rw [seg_iff_from, hnew i hi, ← F.next i (.node r) (fun h => by cases h.2), ← seg_iff_from]
        exact hkeep i hi r List.mem_cons_self
      · obtain ⟨a, ha, rfl⟩ := List.mem_map.1 hx
        rw [if_neg (by simp)]
        exact hkeep i hi a (List.mem_cons_of_mem _ ha)
    · rcases List.mem_cons.1 hx with rfl | hx
      · rw [if_pos rfl, if_pos rfl]
        exact H.nested i _ hr
      · obtain ⟨a, ha, rfl⟩ := List.mem_map.1 hx
        rw [if_neg (by simp), if_neg (by simp)]
        exact H.nested i _ (hsub _ hx)
    · rw [F.live]
      exact H.live a (List.mem_cons_of_mem _ ha)
    · rw [hkey]
      exact (List.pairwise_cons.1 H.sorted).2

/-! ### Deletion -/

omit [DecidableEq α] in
/-- A level of the header around a linked node. -/
theorem exists_around (H : Ragged level s L p) {P Q : List α} (hL : L = P ++ n :: Q) (i : Nat) :
    ∃ P' Q', P'.Sublist P ∧ Q'.Sublist Q ∧
      (p i .header = P' ++ Q' ∨ p i .header = P' ++ n :: Q') := by
  have h := H.sublist_header i
  rw [hL] at h
  obtain ⟨P', R, hp, hP, hR⟩ := List.sublist_append_iff.1 h
  rcases List.sublist_cons_iff.1 hR with hR | ⟨Q', rfl, hQ⟩
  · exact ⟨P', R, hP, hR, .inl hp⟩
  · exact ⟨P', Q', hP, hQ, .inr hp⟩

/-- The levels a decreasing property holds on. -/
private theorem exists_height {q : Nat → Prop} (hq : ∀ j, q (j + 1) → q j) (k : Nat) :
    ∃ h, ∀ j, j < k → (j < h ↔ q j) := by
  induction k with
  | zero => exact ⟨0, fun j hj => absurd hj (Nat.not_lt_zero j)⟩
  | succ k ih =>
    obtain ⟨h, hh⟩ := ih
    by_cases hk : q k
    · have hall : ∀ d, d ≤ k → q (k - d) := by
        intro d
        induction d with
        | zero => exact fun _ => hk
        | succ d ih => exact fun hd => hq _ (by
            rw [show k - (d + 1) + 1 = k - d by omega]
            exact ih (by omega))
      refine ⟨k + 1, fun j hj => ⟨fun _ => ?_, fun _ => hj⟩⟩
      have := hall (k - j) (by omega)
      rwa [show k - (k - j) = j by omega] at this
    · refine ⟨min h k, Nat.forall_lt_succ_right.2 ⟨fun j hj => ?_, ?_⟩⟩
      · rw [← hh j hj]
        omega
      · exact ⟨fun h => absurd h (by omega), fun h => absurd h hk⟩

section
variable {PL QL : List α} {P Q : Nat → List α}

omit [DecidableEq α] in
/-- The levels of the header around `n` are a spot for the deletion. -/
theorem spot_of_around (H : Ragged level s L p) (hlevel : 0 < level) (hL : L = PL ++ n :: QL)
    (hP : ∀ j, (P j).Sublist PL) (hQ : ∀ j, (Q j).Sublist QL)
    (hPQ : ∀ j, p j .header = P j ++ Q j ∨ p j .header = P j ++ n :: Q j) : Spot s n P Q := by
  have hnd := hL ▸ H.nodup hlevel
  have hsort := List.pairwise_append.1 (hL ▸ H.sorted)
  have hsub : ∀ j, (P j ++ Q j).Sublist L := by
    intro j
    rw [hL]
    exact (hP j).append ((hQ j).trans (List.sublist_cons_self n QL))
  have hn : n ∈ L := by simp [hL]
  refine ⟨H.live n hn, fun j a ha => H.live a ((hsub j).subset ha), fun j => ?_, fun j a ha => ?_,
    fun j a ha => ?_, fun j hj => ?_, fun j a ha => ?_⟩
  · exact H.sorted.sublist ((List.sublist_append_left ..).trans (hsub j))
  · exact hsort.2.2 a ((hP j).subset ha) n List.mem_cons_self
  · exact (List.pairwise_cons.1 hsort.2.1).1 a ((hQ j).subset ha)
  · exact (List.nodup_cons.1 (List.nodup_middle.1 hnd)).1 (((hP j).append (hQ j)).subset hj)
  · -- a node before `n` on level `j + 1` is on level `j`, and there it is not behind `n`
    have ha' : a ∈ p j .header := by
      apply (H.nested j _ List.mem_cons_self).subset
      rcases hPQ (j + 1) with h | h
      · rw [h]
        exact List.mem_append_left _ ha
      · rw [h]
        exact List.mem_append_left _ ha
    have haQ : a ∉ n :: QL := fun h => (List.nodup_append.1 hnd).2.2 a ((hP _).subset ha) a h rfl
    have hQ' : Q j ⊆ n :: QL := ((hQ j).trans (List.sublist_cons_self n QL)).subset
    rcases hPQ j with h | h
    · rw [h] at ha'
      exact (List.mem_append.1 ha').resolve_right fun h => haQ (hQ' h)
    · rw [h] at ha'
      refine (List.mem_append.1 ha').resolve_right fun h => haQ ?_
      rcases List.mem_cons.1 h with rfl | h
      · exact List.mem_cons_self
      · exact hQ' h

end

omit [DecidableEq α] in
/-- A place with a link to a node that no hidden node is linked to is on the level of the header. -/
theorem place_of_link (H : Ragged level s L p) (hlevel : 0 < level) (hsafe : s.Unhidden level n)
    (hi : i < level) (hx : x ∈ Ref.header :: L.map Ref.node) (h : s.next i x = some n) :
    x ∈ Ref.header :: (p i .header).map Ref.node := by
  rcases List.mem_cons.1 hx with rfl | hx
  · exact List.mem_cons_self
  · obtain ⟨b, hb, rfl⟩ := List.mem_map.1 hx
    have hb0 : s.OnLevel 0 b := (H.mem_iff_onLevel hlevel).1 (by rw [H.zero]; exact hb)
    have := (H.mem_iff_onLevel hi).2 (hsafe i hi b hb0 h)
    exact List.mem_cons_of_mem _ (List.mem_map_of_mem this)

/-- What a deletion has to do to the paths: one with the node loses it, and the others stay. -/
theorem remove (H : Ragged level s L p) (hkey : s'.key = s.key) (hlive : ∀ a ∈ L, s'.live a)
    (hout : ∀ i, i < level → ∀ x ∈ Ref.header :: L.map Ref.node, n ∉ p i x →
      Seg Ref.node (s'.next i) x (p i x) none)
    (hin : ∀ i, i < level → ∀ x ∈ Ref.header :: L.map Ref.node, ∀ l₁ l₂, p i x = l₁ ++ n :: l₂ →
      Seg Ref.node (s'.next i) x (l₁ ++ l₂) none) :
    Ragged level s' (L.filter (· ≠ n)) fun i x => (p i x).filter (· ≠ n) := by
  have hsub : ∀ x ∈ Ref.header :: (L.filter (· ≠ n)).map Ref.node,
      x ∈ Ref.header :: L.map Ref.node :=
    fun x hx => pos_mono (fun a ha => List.mem_of_mem_filter ha) hx
  refine ⟨by rw [H.zero], fun i hi x hx => ?_, fun i x hx => (H.nested i x (hsub x hx)).filter _,
    fun a ha => hlive a (List.mem_of_mem_filter ha), ?_⟩
  · by_cases hnx : n ∈ p i x
    · obtain ⟨l₁, l₂, hl⟩ := List.append_of_mem hnx
      have hseg := H.path i hi x (hsub x hx)
      rw [hl] at hseg ⊢
      rw [filter_ne_middle hseg.nodup_nodes]
      exact hin i hi x (hsub x hx) l₁ l₂ hl
    · have hfilter : (p i x).filter (· ≠ n) = p i x := by
        rw [List.filter_eq_self]
        intro a ha
        simpa using fun e : a = n => hnx (e ▸ ha)
      rw [hfilter]
      exact hout i hi x (hsub x hx) hnx
  · rw [hkey]
    exact H.sorted.filter

/-- `skiplist_delete` of a linked node takes it off every level, if no hidden node is linked to it. -/
theorem delete (H : Ragged level s L p) (hlevel : 0 < level) (hn : n ∈ L)
    (hsafe : s.Unhidden level n) (hf : L.length < fuel) :
    ∃ s' p', skiplistDelete level fuel s n = .ok s' ∧ Ragged level s' (L.filter (· ≠ n)) p' ∧
      Frame s s' fun _ _ => True := by
  obtain ⟨PL, QL, hL⟩ := List.append_of_mem hn
  choose P Q hP hQ hPQ using H.exists_around hL
  have G := H.spot_of_around hlevel hL hP hQ hPQ
  have hmem : ∀ j, n ∈ p j .header → p j .header = P j ++ n :: Q j := by
    intro j hj
    rcases hPQ j with h | h
    · exact absurd (h ▸ hj) (G.fresh j)
    · exact h
  have hlen : ∀ j, (P j ++ n :: Q j).length < fuel := by
    intro j
    refine Nat.lt_of_le_of_lt ?_ hf
    rw [hL]
    exact ((hP j).append ((hQ j).cons_cons n)).length_le
  obtain ⟨h, hh⟩ := exists_height (q := fun j => n ∈ p j .header)
    (fun j hj => (H.nested j _ List.mem_cons_self).subset hj) level
  have hseg : ∀ i, i < level → i < h → Seg Ref.node (s.next i) .header (P i ++ n :: Q i) none :=
    fun i hi hih => hmem i ((hh i hi).1 hih) ▸ H.path i hi _ List.mem_cons_self
  obtain ⟨s', hrun, F, hnew⟩ := skiplistDelete_spec level h G hseg
    (fun j hj hjh => by
      rcases hPQ j with hp | hp
      · exact hp ▸ H.path j hj _ List.mem_cons_self
      · exact absurd ((hh j hj).2 (by rw [hp]; simp)) (Nat.not_lt.2 hjh)) hlen
  have hlink : ∀ i, i < level → i < h → s'.next i =
      Function.update (s.next i) (last Ref.node .header (P i)) (s.next i (.node n)) :=
    fun i hi hih => (hseg i hi hih).eq_remove (hnew i hi) fun y hy => F.next i y fun w => hy w.2
  -- the only place with a link to `n` is the one before it on the level of the header
  have hpred : ∀ i, i < level → ∀ x ∈ Ref.header :: L.map Ref.node, s.next i x = some n →
      i < h ∧ x = last Ref.node .header (P i) := by
    intro i hi x hx hxn
    have hpath := H.path i hi _ List.mem_cons_self
    have hxh := H.place_of_link hlevel hsafe hi hx hxn
    have hnh := hpath.next_mem hxh hxn
    have hp := hmem i hnh
    refine ⟨(hh i hi).2 hnh, hpath.link_inj hxh ?_ hxn (hp ▸ hpath).right.1⟩
    rw [hp, List.map_append, ← List.cons_append]
    exact List.mem_append_left _ (last_mem_cons ..)
  refine ⟨s', _, hrun, H.remove (funext F.score) (fun a ha => ?_) (fun i hi x hx hnx => ?_)
    (fun i hi x hx l₁ l₂ hl => ?_), F.mono fun _ _ _ => trivial⟩
  · rw [F.live]
    exact H.live a ha
  · have hpath := H.path i hi x hx
    rcases Nat.lt_or_ge i h with hih | hih
    · rw [hlink i hi hih]
      apply hpath.update_of_notMem
      intro hy
      exact hnx (hpath.next_mem hy (hseg i hi hih).right.1)
    · exact hpath.congr fun y _ => F.next i y fun w => absurd w.1 (Nat.not_lt.2 hih)
  · have hpath := H.path i hi x hx
    have hz : last Ref.node x l₁ ∈ x :: (p i x).map Ref.node := by
      rw [hl, List.map_append, ← List.cons_append]
      exact List.mem_append_left _ (last_mem_cons ..)
    rw [hl] at hpath
    obtain ⟨hih, hlast⟩ := hpred i hi _ (H.places_subset hlevel hx hz) hpath.right.1
    rw [hlink i hi hih, ← hlast]
    exact hpath.remove hpath.nodup

end SkipList.Ragged

end Libep

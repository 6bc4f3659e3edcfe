import Mathlib

/-!
# Chains of links

A linked structure seen from the places that hold a link. A *location* (`β`) is a place in memory
that holds a pointer to the next node or nothing: the field of a list head, or the field of a
node, `cell a` for the node `a`. `Seg cell link x l t` says that the links from the location `x`
on run through the nodes `l`, and that the link after the last of them holds `t`; with `t = none`
it is a whole chain.

The rules are those of pointer surgery: a segment splits at every location it passes
(`Seg.append_iff`), is blind to writes elsewhere (`Seg.congr`), is determined by its links
(`Seg.unique`) and so never visits a location twice (`Seg.nodup`); writing one link inserts a
node (`Seg.insert`), removes one (`Seg.remove`) or closes the segment (`Seg.close`).
-/

namespace Chain

universe u v
variable {α : Type u} {β : Type v} (cell : α → β)

/-- The links from the location `x` on run through the nodes `l`; the last link holds `t`. -/
def Seg (link : β → Option α) : β → List α → Option α → Prop
  | x, [], t => link x = t
  | x, a :: l, t => link x = some a ∧ Seg link (cell a) l t

/-- The location a walk from `x` through the nodes `l` ends at. -/
def last : β → List α → β
  | x, [] => x
  | _, a :: l => last (cell a) l

/-- A pointer `p` that heads the nodes `l`: the chain as a reader who holds `p` sees it. -/
def From (link : β → Option α) : Option α → List α → Option α → Prop
  | p, [], t => p = t
  | p, a :: l, t => p = some a ∧ Seg cell link (cell a) l t

variable {cell} {link link' : β → Option α} {x y z : β} {a b : α} {l l₁ l₂ l₃ : List α}
  {t u : Option α}

@[simp] theorem seg_nil : Seg cell link x [] t ↔ link x = t := .rfl

@[simp] theorem seg_cons :
    Seg cell link x (a :: l) t ↔ link x = some a ∧ Seg cell link (cell a) l t := .rfl

@[simp] theorem last_nil : last cell x ([] : List α) = x := rfl

@[simp] theorem last_cons : last cell x (a :: l) = last cell (cell a) l := rfl

@[simp] theorem last_append : last cell x (l₁ ++ l₂) = last cell (last cell x l₁) l₂ := by
  induction l₁ generalizing x with
  | nil => rfl
  | cons a l₁ ih => exact ih

variable (cell x l) in
theorem last_mem : last cell x l = x ∨ ∃ a ∈ l, last cell x l = cell a := by
  induction l generalizing x with
  | nil => exact .inl rfl
  | cons a l ih =>
    rcases ih (cell a) with h | ⟨b, hb, h⟩
    · exact .inr ⟨a, List.mem_cons_self, h⟩
    · exact .inr ⟨b, List.mem_cons_of_mem _ hb, h⟩

variable (cell x l) in
theorem last_mem_cons : last cell x l ∈ x :: l.map cell := by
  rcases last_mem cell x l with h | ⟨a, ha, h⟩
  · rw [h]; exact List.mem_cons_self
  · rw [h]; exact List.mem_cons_of_mem _ (List.mem_map_of_mem ha)

/-- Every location on the way is where some prefix of the walk ends. -/
theorem exists_prefix (h : y ∈ x :: l.map cell) : ∃ l₁ l₂, l = l₁ ++ l₂ ∧ y = last cell x l₁ := by
  induction l generalizing x with
  | nil => exact ⟨[], [], rfl, List.mem_singleton.1 h⟩
  | cons a l ih =>
    rcases List.mem_cons.1 h with rfl | h
    · exact ⟨[], a :: l, rfl, rfl⟩
    · obtain ⟨l₁, l₂, rfl, hy⟩ := ih h
      exact ⟨a :: l₁, l₂, rfl, hy⟩

theorem seg_iff_from : Seg cell link x l t ↔ From cell link (link x) l t := by
  cases l <;> rfl

/-- The pointer of a whole chain is to its first node. -/
theorem From.eq_head? {p : Option α} (H : From cell link p l none) : p = l.head? := by
  cases l with
  | nil => exact H
  | cons a l => exact H.1

namespace Seg

theorem append_iff : Seg cell link x (l₁ ++ l₂) t ↔
    Seg cell link x l₁ (link (last cell x l₁)) ∧ Seg cell link (last cell x l₁) l₂ t := by
  induction l₁ generalizing x with
  | nil => simp
  | cons a l₁ ih => simp [ih, and_assoc]

theorem left (H : Seg cell link x (l₁ ++ l₂) t) :
    Seg cell link x l₁ (link (last cell x l₁)) := (append_iff.1 H).1

theorem right (H : Seg cell link x (l₁ ++ l₂) t) : Seg cell link (last cell x l₁) l₂ t :=
  (append_iff.1 H).2

/-- A segment depends only on the links at its own locations. -/
theorem congr (H : Seg cell link x l t) (h : ∀ y ∈ x :: l.map cell, link' y = link y) :
    Seg cell link' x l t := by
  induction l generalizing x with
  | nil => exact (h x List.mem_cons_self).trans H
  | cons a l ih =>
    exact ⟨(h x List.mem_cons_self).trans H.1,
      ih H.2 fun y hy => h y (List.mem_cons_of_mem _ hy)⟩

/-- The links determine the chain. -/
theorem unique (H₁ : Seg cell link x l₁ none) (H₂ : Seg cell link x l₂ none) : l₁ = l₂ := by
  induction l₁ generalizing x l₂ with
  | nil =>
    cases l₂ with
    | nil => rfl
    | cons b l₂ => simp [seg_nil.1 H₁] at H₂
  | cons a l₁ ih =>
    cases l₂ with
    | nil => simp [seg_nil.1 H₂] at H₁
    | cons b l₂ =>
      have hab : a = b := Option.some.inj (H₁.1.symm.trans H₂.1)
      subst hab
      rw [ih H₁.2 H₂.2]

/-- The way to a node is a front of the chain. -/
theorem exists_append (H : Seg cell link x l none) (H' : Seg cell link x l₁ (some a)) :
    ∃ l₂, l = l₁ ++ a :: l₂ := by
  induction l₁ generalizing x l with
  | nil =>
    cases l with
    | nil => cases (seg_nil.1 H).symm.trans (seg_nil.1 H')
    | cons b l =>
      obtain rfl : b = a := Option.some.inj (H.1.symm.trans H')
      exact ⟨l, rfl⟩
  | cons b l₁ ih =>
    cases l with
    | nil => cases (seg_nil.1 H).symm.trans H'.1
    | cons c l =>
      obtain rfl : c = b := Option.some.inj (H.1.symm.trans H'.1)
      obtain ⟨l₂, rfl⟩ := ih H.2 H'.2
      exact ⟨l₂, rfl⟩

theorem mem_iff_exists_seg (H : Seg cell link x l none) :
    a ∈ l ↔ ∃ l₁, Seg cell link x l₁ (some a) := by
  constructor
  · intro ha
    obtain ⟨l₁, l₂, rfl⟩ := List.append_of_mem ha
    refine ⟨l₁, ?_⟩
    rw [← H.right.1]
    exact H.left
  · rintro ⟨l₁, h⟩
    obtain ⟨l₂, rfl⟩ := H.exists_append h
    simp

/-- A link of a chain leads to a node of the chain. -/
theorem next_mem (H : Seg cell link x l none) (hy : y ∈ x :: l.map cell) (h : link y = some a) :
    a ∈ l := by
  obtain ⟨l₁, l₂, rfl, rfl⟩ := exists_prefix hy
  have H₂ := H.right
  cases l₂ with
  | nil => rw [seg_nil.1 H₂] at h; cases h
  | cons b l₂ =>
    obtain rfl : b = a := Option.some.inj (H₂.1.symm.trans h)
    simp

/-- Two memories with the same chain agree on its links. -/
theorem link_eq (H : Seg cell link x l t) (H' : Seg cell link' x l t) (hy : y ∈ x :: l.map cell) :
    link y = link' y := by
  induction l generalizing x with
  | nil =>
    rw [List.mem_singleton.1 hy, seg_nil.1 H, seg_nil.1 H']
  | cons a l ih =>
    rcases List.mem_cons.1 hy with rfl | hy
    · rw [H.1, H'.1]
    · exact ih H.2 H'.2 hy

/-- Two memories in which the same nodes follow a location agree on its link. -/
theorem first_eq (H : Seg cell link x l t) (H' : Seg cell link' y l t) : link' y = link x := by
  cases l with
  | nil => rw [seg_nil.1 H, seg_nil.1 H']
  | cons a l => rw [H.1, H'.1]

/-- Chains with a common front agree on its links but the last. -/
theorem link_eq_of_front (H : Seg cell link x (l₁ ++ l₂) t) (H' : Seg cell link' x (l₁ ++ l₃) u)
    (hy : y ∈ x :: l₁.map cell) (hne : y ≠ last cell x l₁) : link' y = link y := by
  obtain ⟨m₁, m₂, rfl, rfl⟩ := exists_prefix hy
  cases m₂ with
  | nil => exact absurd (by rw [List.append_nil]) hne
  | cons b m₂ =>
    rw [List.append_assoc] at H H'
    rw [H.right.1, H'.right.1]

/-- A chain that ends never passes a location twice. -/
theorem nodup (H : Seg cell link x l none) : (x :: l.map cell).Nodup := by
  induction l generalizing x with
  | nil => simp
  | cons a l ih =>
    refine List.nodup_cons.2 ⟨fun hx => ?_, ih H.2⟩
    -- a second visit to `x` would make the rest of the chain as long as the whole of it
    obtain ⟨l₁, l₂, hl, hx⟩ := exists_prefix (x := cell a) hx
    have h2 : Seg cell link x l₂ none := by
      have := H.2
      rw [hl] at this
      exact hx ▸ this.right
    have hlen := congrArg List.length (unique H h2)
    simp [hl] at hlen
    omega

theorem nodup_nodes (H : Seg cell link x l none) : l.Nodup :=
  (List.nodup_cons.1 H.nodup).2.of_map

/-- A node of a chain is linked from one location of the chain only. -/
theorem link_inj (H : Seg cell link x l none) (hy : y ∈ x :: l.map cell) (hz : z ∈ x :: l.map cell)
    (h : link y = some a) (h' : link z = some a) : y = z := by
  have hnd := H.nodup_nodes
  obtain ⟨m₁, m₂, rfl, rfl⟩ := exists_prefix hy
  obtain ⟨n₁, n₂, hl, rfl⟩ := exists_prefix hz
  have H₁ := H.right
  have H₂ := (hl ▸ H).right
  cases m₂ with
  | nil => rw [seg_nil.1 H₁] at h; cases h
  | cons b m₂ =>
    cases n₂ with
    | nil => rw [seg_nil.1 H₂] at h'; cases h'
    | cons c n₂ =>
      obtain rfl : b = a := Option.some.inj (H₁.1.symm.trans h)
      obtain rfl : c = b := Option.some.inj (H₂.1.symm.trans h')
      have hnd' := (List.nodup_cons.1 (List.nodup_middle.1 hnd)).1
      rw [List.mem_append, not_or] at hnd'
      rw [((List.append_cons_inj_of_notMem hnd'.1 hnd'.2).1 hl).1]

variable [DecidableEq β]

/-- Writing the last link of a segment. -/
theorem close (H : Seg cell link x l t) (hnd : (x :: l.map cell).Nodup) :
    Seg cell (Function.update link (last cell x l) u) x l u := by
  induction l generalizing x with
  | nil => simp
  | cons a l ih =>
    have hnd' := List.nodup_cons.1 hnd
    have hne : x ≠ last cell (cell a) l := fun h => hnd'.1 (h ▸ last_mem_cons ..)
    refine ⟨?_, ih H.2 hnd'.2⟩
    rw [last_cons, Function.update_of_ne hne]
    exact H.1

/-- A write outside a segment leaves it. -/
theorem update_of_notMem (H : Seg cell link x l t) (hy : y ∉ x :: l.map cell) :
    Seg cell (Function.update link y u) x l t :=
  H.congr fun z hz => Function.update_of_ne (fun h => hy (by rwa [h] at hz)) _ _

/-- Insertion: the new node `b` takes over the link of the location it is put after. -/
theorem insert (H : Seg cell link x (l₁ ++ l₂) t) (hnd : (x :: (l₁ ++ l₂).map cell).Nodup)
    (hb : cell b ∉ x :: (l₁ ++ l₂).map cell) :
    Seg cell (Function.update (Function.update link (cell b) (link (last cell x l₁)))
      (last cell x l₁) (some b)) x (l₁ ++ b :: l₂) t := by
  have hlast : last cell x l₁ ∈ x :: (l₁ ++ l₂).map cell := by
    have := last_mem_cons cell x l₁
    simp only [List.mem_cons, List.map_append, List.mem_append] at this ⊢
    tauto
  have hne : cell b ≠ last cell x l₁ := fun h => hb (h ▸ hlast)
  have hnd' := hnd
  rw [List.map_append, ← List.cons_append] at hnd'
  obtain ⟨hnd₁, -, hdisj⟩ := List.nodup_append.1 hnd'
  have hlast₂ : last cell x l₁ ∉ l₂.map cell := fun h => hdisj _ (last_mem_cons ..) _ h rfl
  refine append_iff.2 ⟨?_, ?_⟩
  · rw [Function.update_self]
    exact (H.left.update_of_notMem fun h => hb (by
      rw [List.map_append, ← List.cons_append]; exact List.mem_append_left _ h)).close hnd₁
  · refine ⟨Function.update_self .., ?_⟩
    cases l₂ with
    | nil =>
      rw [seg_nil, Function.update_of_ne hne, Function.update_self]
      exact H.right
    | cons c l₂ =>
      have H₂ := H.right
      refine ⟨?_, ?_⟩
      · rw [Function.update_of_ne hne, Function.update_self]
        exact H₂.1
      · refine (H₂.2.update_of_notMem fun h => hb ?_).update_of_notMem hlast₂
        simp only [List.map_append, List.map_cons, List.mem_cons, List.mem_append] at h ⊢
        tauto

/-- Splicing: the nodes behind the location `y` go behind a location of the way. -/
theorem splice {y : β} {l₂ : List α} (H : Seg cell link x (l₁ ++ l₃) t) (H₂ : Seg cell link y l₂ u)
    (hl₂ : l₂ ≠ []) (hnd : (x :: (l₁ ++ l₂ ++ l₃).map cell).Nodup) :
    Seg cell (Function.update (Function.update link (last cell x l₁) (link y)) (last cell y l₂)
      (link (last cell x l₁))) x (l₁ ++ l₂ ++ l₃) t := by
  obtain ⟨b, l₂, rfl⟩ := List.exists_cons_of_ne_nil hl₂
  set z := last cell x l₁ with hz
  set e := last cell (cell b) l₂ with he
  rw [List.append_assoc, List.map_append, ← List.cons_append, List.map_append] at hnd
  obtain ⟨hnd₁, hnd', hdisj₁⟩ := List.nodup_append.1 hnd
  obtain ⟨hnd₂, -, hdisj₂⟩ := List.nodup_append.1 hnd'
  have hzm : z ∈ x :: l₁.map cell := last_mem_cons cell x l₁
  have hem : e ∈ (b :: l₂).map cell := last_mem_cons cell (cell b) l₂
  have hez : e ≠ z := fun h => hdisj₁ z hzm e (List.mem_append_left _ hem) h.symm
  have hz₂ : z ∉ (b :: l₂).map cell := fun h => hdisj₁ z hzm z (List.mem_append_left _ h) rfl
  have hz₃ : z ∉ l₃.map cell := fun h => hdisj₁ z hzm z (List.mem_append_right _ h) rfl
  have he₃ : e ∉ l₃.map cell := fun h => hdisj₂ e hem e h rfl
  rw [last_cons, List.append_assoc, append_iff, ← hz, ← he, Function.update_of_ne hez.symm,
    Function.update_self]
  constructor
  · refine (H.left.close hnd₁).update_of_notMem fun h => ?_
    exact hdisj₁ e h e (List.mem_append_left _ hem) rfl
  · refine ⟨by rw [Function.update_of_ne hez.symm, Function.update_self]; exact H₂.1, ?_⟩
    refine append_iff.2 ⟨?_, ?_⟩
    · rw [← he, Function.update_self]
      exact (H₂.2.update_of_notMem hz₂).close hnd₂
    · rw [← he]
      have H₃ := H.right
      cases l₃ with
      | nil =>
        rw [seg_nil, Function.update_self]
        exact H₃
      | cons c l₃ =>
        refine ⟨by rw [Function.update_self]; exact H₃.1, ?_⟩
        exact (H₃.2.update_of_notMem hz₃).update_of_notMem he₃

/-- Nodes are cut out: the location before them takes over the link of the last one. -/
theorem cut (H : Seg cell link x (l₁ ++ (l₂ ++ l₃)) t) (hnd : (x :: (l₁ ++ (l₂ ++ l₃)).map cell).Nodup) :
    Seg cell (Function.update link (last cell x l₁) (link (last cell x (l₁ ++ l₂)))) x (l₁ ++ l₃) t := by
  rw [List.map_append, ← List.cons_append] at hnd
  obtain ⟨hnd₁, -, hdisj⟩ := List.nodup_append.1 hnd
  have hlast : last cell x l₁ ∉ l₃.map cell := fun h =>
    hdisj _ (last_mem_cons ..) _ (by rw [List.map_append]; exact List.mem_append_right _ h) rfl
  have H₃ := H.right.right
  rw [last_append]
  refine append_iff.2 ⟨?_, ?_⟩
  · rw [Function.update_self]
    exact H.left.close hnd₁
  · cases l₃ with
    | nil =>
      rw [seg_nil, Function.update_self]
      exact H₃
    | cons c l₃ =>
      refine ⟨?_, H₃.2.update_of_notMem hlast⟩
      rw [Function.update_self]
      exact H₃.1

/-- Removal: the location before the node `b` takes over the link of `b`. -/
theorem remove (H : Seg cell link x (l₁ ++ b :: l₂) t)
    (hnd : (x :: (l₁ ++ b :: l₂).map cell).Nodup) :
    Seg cell (Function.update link (last cell x l₁) (link (cell b))) x (l₁ ++ l₂) t := by
  have hcut := @cut _ _ cell link x l₁ [b] l₂ t _ H hnd
  rwa [last_append] at hcut

/-- What a chain was before and after an insertion tells what was written. -/
theorem eq_insert (H : Seg cell link x (l₁ ++ l₂) t) (H' : Seg cell link' x (l₁ ++ b :: l₂) t)
    (hb : cell b ∉ x :: l₁.map cell)
    (h : ∀ y, y ≠ cell b → y ∉ x :: l₁.map cell → link' y = link y) :
    link' = Function.update (Function.update link (cell b) (link (last cell x l₁)))
      (last cell x l₁) (some b) := by
  have hlast : cell b ≠ last cell x l₁ := fun e => hb (e ▸ last_mem_cons ..)
  funext y
  rcases eq_or_ne y (last cell x l₁) with rfl | hy
  · rw [Function.update_self, H'.right.1]
  · rw [Function.update_of_ne hy]
    rcases eq_or_ne y (cell b) with rfl | hyb
    · rw [Function.update_self, H.right.first_eq H'.right.2]
    · rw [Function.update_of_ne hyb]
      by_cases hyl : y ∈ x :: l₁.map cell
      · exact H.link_eq_of_front H' hyl hy
      · exact h y hyb hyl

/-- What a chain was before and after a removal tells what was written. -/
theorem eq_remove (H : Seg cell link x (l₁ ++ b :: l₂) t) (H' : Seg cell link' x (l₁ ++ l₂) t)
    (h : ∀ y, y ∉ x :: l₁.map cell → link' y = link y) :
    link' = Function.update link (last cell x l₁) (link (cell b)) := by
  funext y
  rcases eq_or_ne y (last cell x l₁) with rfl | hy
  · rw [Function.update_self, H.right.2.first_eq H'.right]
  · rw [Function.update_of_ne hy]
    by_cases hyl : y ∈ x :: l₁.map cell
    · exact H.link_eq_of_front H' hyl hy
    · exact h y hyl

/-- Cutting a front off: the first location takes over the link after it. -/
theorem drop_front (H : Seg cell link x (l₁ ++ l₂) t)
    (hx : x ∉ (l₁ ++ l₂).map cell) :
    Seg cell (Function.update link x (link (last cell x l₁))) x l₂ t := by
  have H₂ := H.right
  cases l₂ with
  | nil =>
    rw [seg_nil, Function.update_self]
    exact H₂
  | cons c l₂ =>
    refine ⟨by rw [Function.update_self]; exact H₂.1, H₂.2.update_of_notMem fun h => hx ?_⟩
    rw [List.map_append]
    exact List.mem_append_right _ h

end Seg

namespace From
variable {p : Option α}

/-- A reader of a chain is blind to writes elsewhere. -/
theorem congr (H : From cell link p l t) (h : ∀ y ∈ l.map cell, link' y = link y) :
    From cell link' p l t := by
  cases l with
  | nil => exact H
  | cons a l => exact ⟨H.1, H.2.congr h⟩

theorem nodup_nodes (H : From cell link p l none) : l.Nodup := by
  cases l with
  | nil => exact List.nodup_nil
  | cons a l => exact List.Nodup.of_map cell (l := a :: l) H.2.nodup

end From

/-! ### The nodes of a chain without one of them -/

theorem filter_key_ne {γ : Type v} [DecidableEq γ] {f : α → γ} (h : ((l₁ ++ a :: l₂).map f).Nodup) :
    (l₁ ++ a :: l₂).filter (fun b => f b ≠ f a) = l₁ ++ l₂ := by
  rw [List.map_append, List.map_cons] at h
  have ha := (List.nodup_cons.1 (List.nodup_middle.1 h)).1
  rw [← List.map_append] at ha
  rw [List.filter_append, List.filter_cons_of_neg (by simp), ← List.filter_append, List.filter_eq_self]
  intro b hb
  have hne : f b ≠ f a := fun e => ha (e ▸ List.mem_map_of_mem hb)
  simpa using hne

theorem filter_ne_middle [DecidableEq α] (h : (l₁ ++ a :: l₂).Nodup) :
    (l₁ ++ a :: l₂).filter (· ≠ a) = l₁ ++ l₂ :=
  filter_key_ne (f := id) (by rwa [List.map_id])

end Chain

import Mathlib

/-!
# Stable sorted lists

Lists of entries `ε` kept in the order of a key in a linear order, where an entry that is put in
goes after all entries with the same key: first in, first out among equal keys. The operations are
filters, so they commute with every further filter of the list.
-/

namespace StableList

universe u v
variable {ε : Type u} {σ : Type v} [LinearOrder σ] (key : ε → σ)

/-- The entries with key at most `s`. -/
def upTo (s : σ) (l : List ε) : List ε := l.filter (key · ≤ s)

/-- The entries with key above `s`. -/
def above (s : σ) (l : List ε) : List ε := l.filter (s < key ·)

/-- Put `e` after every entry with key at most its own and before every entry with a greater key. -/
def stableInsert (e : ε) (l : List ε) : List ε := upTo key (key e) l ++ e :: above key (key e) l

/-- In the order of the keys. -/
def Sorted (l : List ε) : Prop := l.Pairwise (key · ≤ key ·)

variable {key} {s : σ} {e x : ε} {l l' : List ε} {p : ε → Bool}

@[simp] theorem mem_upTo : x ∈ upTo key s l ↔ x ∈ l ∧ key x ≤ s := by simp [upTo]

@[simp] theorem mem_above : x ∈ above key s l ↔ x ∈ l ∧ s < key x := by simp [above]

@[simp] theorem mem_stableInsert : x ∈ stableInsert key e l ↔ x = e ∨ x ∈ l := by
  simp only [stableInsert, List.mem_append, mem_upTo, List.mem_cons, mem_above]
  constructor
  · rintro (h | rfl | h)
    · exact .inr h.1
    · exact .inl rfl
    · exact .inr h.1
  · rintro (rfl | h)
    · exact .inr (.inl rfl)
    · rcases le_or_gt (key x) (key e) with hk | hk
      · exact .inl ⟨h, hk⟩
      · exact .inr (.inr ⟨h, hk⟩)

theorem Sorted.sublist (H : Sorted key l) (h : l'.Sublist l) : Sorted key l' :=
  List.Pairwise.sublist h H

theorem Sorted.filter (H : Sorted key l) : Sorted key (l.filter p) := H.sublist List.filter_sublist

theorem upTo_append_above (H : Sorted key l) (s : σ) : upTo key s l ++ above key s l = l := by
  induction l with
  | nil => rfl
  | cons x l ih =>
    have H' := List.pairwise_cons.1 H
    rcases le_or_gt (key x) s with hx | hx
    · simpa [upTo, above, hx, not_lt.2 hx] using ih H'.2
    · -- past the first key above `s` there is none at or below it
      have h1 : l.filter (key · ≤ s) = [] := by
        simpa [List.filter_eq_nil_iff] using fun y hy => lt_of_lt_of_le hx (H'.1 y hy)
      have h2 : l.filter (s < key ·) = l := by
        simpa [List.filter_eq_self] using fun y hy => lt_of_lt_of_le hx (H'.1 y hy)
      simp [upTo, above, hx, not_le.2 hx, h1, h2]

theorem Sorted.lt_append_ge (H : Sorted key l) (s : σ) : l.filter (key · < s) ++ l.filter (s ≤ key ·) = l := by
  induction l with
  | nil => rfl
  | cons x l ih =>
    have H' := List.pairwise_cons.1 H
    rcases lt_or_ge (key x) s with hx | hx
    · simpa [hx, not_le.2 hx] using ih H'.2
    · -- past the first key from `s` on there is none below it
      have h1 : l.filter (key · < s) = [] := by
        simpa [List.filter_eq_nil_iff] using fun y hy => le_trans hx (H'.1 y hy)
      have h2 : l.filter (s ≤ key ·) = l := by
        simpa [List.filter_eq_self] using fun y hy => le_trans hx (H'.1 y hy)
      simp [hx, not_lt.2 hx, h1, h2]

theorem Sorted.stableInsert (H : Sorted key l) (e : ε) : Sorted key (stableInsert key e l) := by
  refine List.pairwise_append.2 ⟨H.filter, List.pairwise_cons.2 ⟨?_, H.filter⟩, ?_⟩
  · exact fun y hy => le_of_lt (mem_above.1 hy).2
  · intro x hx y hy
    rcases List.mem_cons.1 hy with rfl | hy
    · exact (mem_upTo.1 hx).2
    · exact le_trans (mem_upTo.1 hx).2 (le_of_lt (mem_above.1 hy).2)

theorem stableInsert_perm (H : Sorted key l) (e : ε) : (stableInsert key e l).Perm (e :: l) := by
  conv_rhs => rw [← upTo_append_above H (key e)]
  exact List.perm_middle

theorem length_stableInsert (H : Sorted key l) (e : ε) :
    (stableInsert key e l).length = l.length + 1 :=
  (stableInsert_perm H e).length_eq

theorem nodup_stableInsert (h : l.Nodup) (he : e ∉ l) : (stableInsert key e l).Nodup := by
  refine List.nodup_middle.2 (List.nodup_cons.2 ⟨fun h' => he ?_, ?_⟩)
  · rcases List.mem_append.1 h' with h' | h'
    · exact (mem_upTo.1 h').1
    · exact (mem_above.1 h').1
  · refine List.nodup_append.2 ⟨h.filter _, h.filter _, ?_⟩
    rintro a ha _ hb rfl
    exact absurd (mem_upTo.1 ha).2 (not_le.2 (mem_above.1 hb).2)

theorem sublist_stableInsert (H : Sorted key l) (e : ε) : l.Sublist (stableInsert key e l) := by
  conv_lhs => rw [← upTo_append_above H (key e)]
  exact (List.Sublist.refl _).append (List.sublist_cons_self ..)

theorem stableInsert_sublist (h : l'.Sublist l) (e : ε) :
    (stableInsert key e l').Sublist (stableInsert key e l) :=
  (h.filter _).append ((h.filter _).cons_cons e)

/-- A list split at a key is split into these two parts. -/
theorem split_eq {l₁ l₂ : List ε} (h₁ : ∀ x ∈ l₁, key x ≤ s) (h₂ : ∀ x ∈ l₂, s < key x) :
    upTo key s (l₁ ++ l₂) = l₁ ∧ above key s (l₁ ++ l₂) = l₂ := by
  have h₁' : l₁.filter (s < key ·) = [] := by
    simpa [List.filter_eq_nil_iff] using h₁
  have h₂' : l₂.filter (key · ≤ s) = [] := by
    simpa [List.filter_eq_nil_iff] using h₂
  constructor
  · rw [upTo, List.filter_append, h₂', List.append_nil]
    simpa [List.filter_eq_self] using h₁
  · rw [above, List.filter_append, h₁', List.nil_append]
    simpa [List.filter_eq_self] using h₂

/-- Insertion leaves what a filter that drops the new entry keeps. -/
theorem filter_stableInsert_of_neg (H : Sorted key l) (he : ¬p e) :
    (stableInsert key e l).filter p = l.filter p := by
  conv_rhs => rw [← upTo_append_above H (key e)]
  simp [stableInsert, he]

end StableList

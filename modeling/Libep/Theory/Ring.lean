import Libep.Theory.Chain

/-!
# Rings

A doubly linked ring through a head: the links `next` run from the head through the nodes and back to it,
the links `prev` run the other way. Each direction is a segment of `Chain`, in which the nodes are their own
locations; so the surgery on a ring is that on two segments.
-/

namespace Chain

universe u
variable {β : Type u}

/-- The links `next` and `prev` form a ring through the head `h` and the nodes `l`. -/
structure Ring (next prev : β → Option β) (h : β) (l : List β) : Prop where
  next : Seg id next h l (some h)
  prev : Seg id prev h l.reverse (some h)
  nodup : (h :: l).Nodup

/-- The node after the head in a ring through `l`; the head itself when there is none. -/
theorem last_reverse (h : β) (l : List β) : last id h l.reverse = l.headD h := by
  cases l <;> simp

theorem headD_mem (h : β) (l : List β) : l.headD h ∈ h :: l := by cases l <;> simp

/-- Two segments from one place to the first link back to `h` are the same. -/
theorem Seg.unique_until {link : β → Option β} {x h : β} {l l' : List β}
    (H : Seg id link x l (some h)) (hl : h ∉ l) (H' : Seg id link x l' (some h)) (hl' : h ∉ l') :
    l = l' := by
  induction l generalizing x l' with
  | nil =>
    cases l' with
    | nil => rfl
    | cons b l' =>
      cases (seg_nil.1 H).symm.trans H'.1
      simp at hl'
  | cons a l ih =>
    cases l' with
    | nil =>
      cases (seg_nil.1 H').symm.trans H.1
      simp at hl
    | cons b l' =>
      obtain rfl : a = b := Option.some.inj (H.1.symm.trans H'.1)
      rw [ih H.2 (fun h => hl (List.mem_cons_of_mem _ h)) H'.2 fun h => hl' (List.mem_cons_of_mem _ h)]

namespace Ring
variable {next prev next' prev' : β → Option β} {h a y : β} {l l₁ l₂ : List β}

theorem nil_iff : Ring next prev h [] ↔ next h = some h ∧ prev h = some h :=
  ⟨fun H => ⟨H.next, H.prev⟩, fun H => ⟨H.1, H.2, by simp⟩⟩

theorem symm (H : Ring next prev h l) : Ring prev next h l.reverse :=
  ⟨H.prev, by rw [List.reverse_reverse]; exact H.next, by simpa using H.nodup⟩

/-- A ring depends only on the links of its places. -/
theorem congr (H : Ring next prev h l) (hn : ∀ y ∈ h :: l, next' y = next y)
    (hp : ∀ y ∈ h :: l, prev' y = prev y) : Ring next' prev' h l := by
  refine ⟨H.next.congr ?_, H.prev.congr ?_, H.nodup⟩
  · simpa using hn
  · simpa using hp

/-- The links determine the ring. -/
theorem unique {l' : List β} (H : Ring next prev h l) (H' : Ring next prev h l') : l = l' :=
  H.next.unique_until (List.nodup_cons.1 H.nodup).1 H'.next (List.nodup_cons.1 H'.nodup).1

theorem next_head (H : Ring next prev h l) : next h = some (l.headD h) := by
  cases l with
  | nil => exact H.next
  | cons a l => exact H.next.1

theorem next_node (H : Ring next prev h (l₁ ++ a :: l₂)) : next a = some (l₂.headD h) := by
  have := H.next.right.2
  cases l₂ with
  | nil => exact this
  | cons b l₂ => exact this.1

theorem prev_head (H : Ring next prev h l) : prev h = some (last id h l) := by
  rw [H.symm.next_head, ← last_reverse, List.reverse_reverse]

theorem prev_node (H : Ring next prev h (l₁ ++ a :: l₂)) : prev a = some (last id h l₁) := by
  have H' := H.symm
  simp only [List.reverse_append, List.reverse_cons, List.append_assoc, List.singleton_append] at H'
  rw [H'.next_node, ← last_reverse, List.reverse_reverse]

variable [DecidableEq β]

/-- Put a node between the last one and the head. -/
theorem addTail (H : Ring next prev h l) (ha : a ∉ h :: l) :
    Ring (Function.update (Function.update next a (some h)) (last id h l) (some a))
      (Function.update (Function.update prev h (some a)) a (some (last id h l))) h (l ++ [a]) := by
  refine ⟨?_, ?_, ?_⟩
  · have hn := H.next
    rw [← List.append_nil l] at hn
    have hnd : (h :: (l ++ []).map id).Nodup := by simpa using H.nodup
    have hins := @Seg.insert _ _ id _ _ a _ _ _ _ hn hnd (by simpa using ha)
    rwa [show next (last id h l) = some h from hn.right] at hins
  · have hnd : (h :: ([] ++ l.reverse).map id).Nodup := by simpa using H.nodup
    have hins := @Seg.insert _ _ id _ _ a [] l.reverse _ _ H.prev hnd (by simpa using ha)
    rw [last_nil, H.prev_head] at hins
    have hne : a ≠ h := fun e => ha (e ▸ List.mem_cons_self)
    rw [List.reverse_append, Function.update_comm hne.symm]
    exact hins
  · rw [← List.cons_append]
    exact List.nodup_append.2 ⟨H.nodup, by simp, by
      rintro b hb c hc rfl
      exact ha (List.mem_singleton.1 hc ▸ hb)⟩

/-- Put a node between the head and the first one. -/
theorem addHead (H : Ring next prev h l) (ha : a ∉ h :: l) :
    Ring (Function.update (Function.update next h (some a)) a (some (l.headD h)))
      (Function.update (Function.update prev a (some h)) (l.headD h) (some a)) h (a :: l) := by
  have := (H.symm.addTail (by simpa using ha)).symm
  rwa [List.reverse_append, List.reverse_reverse, last_reverse] at this

/-- Put the nodes of another ring behind the head. -/
theorem splice {p : β} {l' : List β} (H : Ring next prev h l) (H' : Ring next prev p l')
    (hl' : l' ≠ []) (hnd : (h :: (l' ++ l)).Nodup) :
    Ring (Function.update (Function.update next h (next p)) (last id p l') (next h))
      (Function.update (Function.update prev (l.headD h) (prev p)) (l'.headD p) (some h)) h
      (l' ++ l) := by
  refine ⟨?_, ?_, hnd⟩
  · exact @Seg.splice _ _ id _ h [] l _ (some p) _ p l' H.next H'.next hl' (by simpa using hnd)
  · rw [List.reverse_append]
    have hnd' : (h :: (l.reverse ++ l'.reverse ++ []).map id).Nodup := by
      rw [List.append_nil, List.map_id, ← List.reverse_append, List.nodup_cons, List.mem_reverse,
        List.nodup_reverse]
      exact List.nodup_cons.1 hnd
    have hprev := H.prev
    rw [← List.append_nil l.reverse] at hprev
    have hfirst : prev (last id h l.reverse) = some h := hprev.right
    have := hprev.splice H'.prev (by simpa using hl') hnd'
    rwa [List.append_nil, hfirst, last_reverse, last_reverse] at this

/-- Take a node out. -/
theorem del (H : Ring next prev h (l₁ ++ a :: l₂)) :
    Ring (Function.update next (last id h l₁) (next a)) (Function.update prev (l₂.headD h) (prev a)) h
      (l₁ ++ l₂) := by
  refine ⟨H.next.remove (by simpa using H.nodup), ?_, ?_⟩
  · have hp := H.prev
    simp only [List.reverse_append, List.reverse_cons, List.append_assoc, List.singleton_append]
      at hp ⊢
    rw [← last_reverse]
    refine hp.remove ?_
    have := H.symm.nodup
    simpa [List.nodup_cons, List.nodup_append] using this
  · exact H.nodup.sublist (((List.sublist_cons_self a l₂).append_left l₁).cons_cons h)

end Ring

end Chain

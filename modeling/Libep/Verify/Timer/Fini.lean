import Libep.Verify.Timer.Rep

/-!
# The end of a timer list

`ep_timer_fini` frees the blocks of the list, each after its link was read, and no other.
-/

namespace Libep
open Chain SkipList

variable {t : Timer} {l : List Nat} {k fuel : Nat} {A : Alarms}

/-- The timer after the blocks `l` were freed. -/
def Timer.freeAll (t : Timer) (l : List Nat) : Timer :=
  { t with
    sl := { t.sl with live := fun a => t.sl.live a && decide (a ∉ l) }
    freed := t.freed ++ l }

theorem clearLoop_spec (H : From Ref.node (t.sl.next 0) l.head? l none) (hnd : l.Nodup)
    (hlive : ∀ a ∈ l, t.sl.live a) (hk : l.length < k) :
    clearLoop Timer.sl epTimerNodeDestroy k t l.head? = .ok (t.freeAll l) := by
  induction l generalizing t k with
  | nil =>
    obtain ⟨k, rfl⟩ := Nat.exists_eq_succ_of_ne_zero (Nat.ne_of_gt hk)
    simp [clearLoop, Timer.freeAll]
  | cons a l ih =>
    obtain ⟨k, rfl⟩ := Nat.exists_eq_succ_of_ne_zero (Nat.ne_of_gt (Nat.zero_lt_of_lt hk))
    have ha : t.sl.live a := hlive a List.mem_cons_self
    have hnd' := List.nodup_cons.1 hnd
    have hchain := seg_iff_from.1 H.2
    have hnext := hchain.eq_head?
    rw [hnext] at hchain
    have hrest : ∀ b ∈ l, Function.update t.sl.live a false b := fun b hb => by
      have hne : b ≠ a := fun e => hnd'.1 (e ▸ hb)
      rw [Function.update_of_ne hne]
      exact hlive b (List.mem_cons_of_mem _ hb)
    rw [List.head?_cons, clearLoop, forward_eq (by exact ha), hnext, Res.ok_bind, epTimerNodeDestroy,
      if_pos ha, Res.ok_bind]
    have := ih (t := { t with
      sl := { t.sl with live := Function.update t.sl.live a false }, freed := t.freed ++ [a] })
      hchain hnd'.2 hrest (Nat.lt_of_succ_lt_succ hk)
    rw [this, Timer.freeAll, Timer.freeAll]
    simp only [List.append_assoc, List.singleton_append]
    congr 3
    funext b
    rcases eq_or_ne b a with rfl | hne
    · simp
    · simp [hne]

/-- `ep_timer_fini`. -/
theorem Timer.Rep.fini (H : t.Rep A []) (hfuel : A.brk < fuel) :
    ∃ t', epTimerFini fuel t = .ok t' ∧ t'.freed = A.freed ++ A.ids ∧ t'.brk = A.brk ∧
      ∀ a, t'.sl.live a = (A.live a && decide (a ∉ A.ids)) := by
  have hchain := seg_iff_from.1 H.chain
  have hfirst := hchain.eq_head?
  rw [hfirst] at hchain
  have hlive : ∀ a ∈ A.ids, t.sl.live a := fun a ha => by
    obtain ⟨e, he, rfl⟩ := List.mem_map.1 ha
    rw [H.live]
    exact H.wf.live e he
  have hlen : A.ids.length < fuel := by
    rw [Alarms.ids, List.length_map]
    exact Nat.lt_of_le_of_lt H.wf.length_le hfuel
  have hrun := clearLoop_spec hchain H.wf.nodup hlive hlen
  rw [epTimerFini, skiplistForEachClear, forward_eq rfl, hfirst, Res.ok_bind, hrun]
  refine ⟨_, rfl, ?_, H.brk, fun a => ?_⟩
  · exact congrArg (· ++ A.ids) H.freed
  · exact congrArg (· && decide (a ∉ A.ids)) (congrFun H.live a)

end Libep

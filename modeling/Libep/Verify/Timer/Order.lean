import Libep.Verify.Timer.Bounded

/-!
# What `ep_timer_execute` fires, and what it leaves

For callbacks that clear no timer of the batch: the due timers in the order of their deadlines, each
once, and nothing that was created or re-armed on the way.
-/

namespace Libep
open SkipList StableList Filter

/-- Callbacks may not clear the timer in turn, nor one that still waits in the batch. -/
def NotWaiting (A : Alarms) (now : UInt64) (k id : Nat) : Prop :=
  id ∉ ((A.due now).drop k).map Alarm.id

instance (A : Alarms) (now : UInt64) (k id : Nat) : Decidable (NotWaiting A now k id) :=
  inferInstanceAs (Decidable (_ ∉ _))

/-- The number of turns, for a limit other than 0. -/
def turnCount (max_times : Int32) (n : Nat) : Nat :=
  if max_times < 0 then n else min max_times.toInt.toNat n

theorem Alarms.limit_eq_turnCount {m : Int32} (hm : m ≠ 0) (n : Nat) : limit m n = turnCount m n := by
  unfold limit turnCount
  split
  · rfl
  · rename_i h
    have h0 : m.toInt ≠ 0 := fun h => hm (Int32.toInt_inj.1 h)
    have h1 : (0 : Int) ≤ m.toInt := Int32.le_iff_toInt_le.1 (Int32.not_lt.1 h)
    omega

variable {t : Timer} {A : Alarms} {script : Nat → List TimerOp} {now : UInt64} {m : Int32}

/-- **`ep_timer_execute` fires exactly the due timers, once each, in deadline order.** -/
theorem execute_fires_due (H : t.Rep A []) (hm : m ≠ 0)
    (hlegal : A.LegalExecute (NotWaiting A now) script now m) :
    ∀ᶠ fuel in atTop, ∃ t' fired A',
      epTimerExecute fuel (callScript fuel script) (t, []) now m = .ok (t', fired) ∧
      t'.Rep A' [] ∧
      fired = ((A.due now).take (turnCount m (A.due now).length)).map Alarm.firing ∧
      (fired.map Firing.id).Nodup ∧
      (∀ e, e ∈ A.due now ↔ e ∈ A.list ∧ e.deadline ≤ now) ∧ (A.due now).Pairwise Alarm.Before ∧
      (m < 0 → (∀ e ∈ A.due now, 0 < e.ms → e.deadline.toNat + e.ms.toNat < 2 ^ 64) →
        ∀ v, v ∈ A'.plain ↔ .clear v.id ∉ calls script 0 (A.due now).length ∧
          (v ∈ (A.detach now).plain ∨
            v ∈ created A.now A.brk (calls script 0 (A.due now).length) ∨
            ∃ e ∈ A.due now, 0 < e.ms ∧ v.toTimerNode = e.toTimerNode ∧ v.id = e.id ∧
              v.deadline.toNat = e.deadline.toNat + e.ms.toNat ∧ v.stamp = 0)) := by
  -- an alarm with its turn at `i` or later waits at `i`
  have hwait : ∀ i j e, i ≤ j → (A.batch now m)[j]? = some e →
      e.id ∈ ((A.due now).drop i).map Alarm.id := by
    intro i j e hij hj
    rw [Alarms.batch, List.getElem?_take] at hj
    split at hj
    · refine List.mem_map_of_mem (List.mem_iff_getElem?.2 ⟨j - i, ?_⟩)
      rw [List.getElem?_drop, Nat.add_sub_cancel' hij]
      exact hj
    · cases hj
  obtain ⟨A', hA'⟩ := H.wf.execute_ok hlegal fun i j e hij hj _ h => h (hwait i j e hij hj)
  have E := H.wf.effect_execute hA'
  filter_upwards [Timer.Rep.execute script now m A] with fuel hb
  obtain ⟨⟨t', fired⟩, hrun, H', rfl⟩ := (hb t H).exists_ok hA'
  refine ⟨t', _, A', hrun, H', ?_, ?_, fun e => mem_upTo, H.wf.before.filter _, fun hneg hov v => ?_⟩
  · rw [Alarms.batch, Alarms.limit_eq_turnCount hm]
  · simpa [Function.comp_def, Alarm.firing] using H.wf.nodup_batch now m
  · have hbatch : A.batch now m = A.due now := Alarms.unlimited_iff.1 (.inl hneg)
    rw [E.plain, hbatch]
    refine and_congr_right fun _ => or_congr_right (or_congr_right ?_)
    refine exists_congr fun e => and_congr_right fun he => and_congr_right fun hms => ?_
    have hd : (e.deadline + e.ms).toNat = e.deadline.toNat + e.ms.toNat := by
      rw [UInt64.toNat_add]
      exact Nat.mod_eq_of_lt (hov e he hms)
    constructor
    · rintro rfl
      exact ⟨rfl, rfl, hd, rfl⟩
    · rintro ⟨h1, h2, h3, h4⟩
      have h3 : v.deadline = e.deadline + e.ms := UInt64.toNat_inj.1 (h3.trans hd.symm)
      cases v
      simp_all [Alarm.next]

/-- An interval two periods late: its callback makes a timer that is due at once and clears the
one-shot that is not due; neither the interval nor the new timer fires again. -/
theorem execute_fires_due_sample :
    ∃ t A, execOps 4 (epTimerInit blank) [.runEvery false 5 7 0, .runAfter false 19 8 0] = .ok t ∧
      t.Rep A [] ∧ ∀ᶠ fuel in atTop, ∃ t' fired A',
        epTimerExecute fuel (callScript fuel fun _ => [.runAfter false 0 9 0, .clear 1]) (t, []) 12
          (-1) = .ok (t', fired) ∧ t'.Rep A' [] ∧ fired = [⟨0, 7, 0⟩] := by
  obtain ⟨t, ht, H⟩ :=
    execOps_blank [.runEvery false 5 7 0, .runAfter false 19 8 0] rfl
  refine ⟨t, _, ht, H, ?_⟩
  filter_upwards [@execute_fires_due t _ (fun _ => [.runAfter false 0 9 0, .clear 1]) 12
    (-1) H (by decide) ⟨⟨trivial, ⟨rfl, by decide⟩, trivial⟩, trivial⟩] with fuel h
  obtain ⟨t', fired, A', hrun, H', hf, -⟩ := h
  exact ⟨t', fired, A', hrun, H', hf⟩

end Libep

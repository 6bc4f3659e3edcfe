import Libep.Timer
import Libep.Verify.SkipList.Cut

/-!
# The bound on the loops of the timers

As for the skip list: a call with a smaller bound does what it does with a larger one, or uses it up. So
what is known of the calls for every bound that is large enough is known of every call that has a result.
-/

namespace Libep
open SkipList

variable {W : Type} {t : Timer} {fuel fuel' : Nat}

theorem timerInsert_cut {a : Nat} (h : fuel ≤ fuel') :
    CutShort .fuel (timerInsert fuel t a) (timerInsert fuel' t a) :=
  (skiplistInsert_cut h).bind fun _ => .refl _ _

theorem timerRun_cut {oom : Bool} {period ms : UInt64} {cb arg : Nat} (h : fuel ≤ fuel') :
    CutShort .fuel (timerRun fuel t oom period ms cb arg) (timerRun fuel' t oom period ms cb arg) := by
  rw [timerRun, timerRun]
  split
  · exact .refl _ _
  · exact (timerInsert_cut h).bind fun _ => .refl _ _

theorem epTimerClear_cut {id : Nat} (h : fuel ≤ fuel') :
    CutShort .fuel (epTimerClear fuel t id) (epTimerClear fuel' t id) := by
  rw [epTimerClear, epTimerClear]
  split
  · exact (skiplistDelete_cut h).bind fun _ => .refl _ _
  · exact .refl _ _

theorem rearmOrDestroy_cut {a : Nat} (h : fuel ≤ fuel') :
    CutShort .fuel (rearmOrDestroy fuel t a) (rearmOrDestroy fuel' t a) := by
  rw [rearmOrDestroy, rearmOrDestroy]
  refine (CutShort.refl _ _).bind fun ms => ?_
  split
  · exact (CutShort.refl _ _).bind fun score => timerInsert_cut h
  · exact .refl _ _

theorem TimerOp.exec_cut (op : TimerOp) (h : fuel ≤ fuel') :
    CutShort .fuel (op.exec fuel t) (op.exec fuel' t) := by
  cases op with
  | updatetime tv => exact .refl _ _
  | runAfter oom ms cb arg => exact (timerRun_cut h).bind fun _ => .refl _ _
  | runEvery oom ms cb arg => exact (timerRun_cut h).bind fun _ => .refl _ _
  | clear id => exact epTimerClear_cut h

theorem execOps_cut {ops : List TimerOp} (h : fuel ≤ fuel') :
    CutShort .fuel (execOps fuel t ops) (execOps fuel' t ops) := by
  induction ops generalizing t with
  | nil => exact .refl _ _
  | cons op ops ih => exact (op.exec_cut h).bind fun _ => ih

theorem callScript_cut {script : Nat → List TimerOp} (h : fuel ≤ fuel') (f : Firing)
    (s : Timer × List Firing) : CutShort .fuel (callScript fuel script f s) (callScript fuel' script f s) :=
  (execOps_cut h).bind fun _ => .refl _ _

section
variable {call call' : Firing → Timer × W → Res (Timer × W)} {s : Timer × W}

theorem executeLoop_cut (hcall : ∀ f s, CutShort .fuel (call f s) (call' f s)) (h : fuel ≤ fuel')
    {k k' : Nat} (hk : k ≤ k') {node n : Option Nat} {max_times : Int32} :
    CutShort .fuel (executeLoop fuel call k s node n max_times)
      (executeLoop fuel' call' k' s node n max_times) := by
  induction k generalizing s k' node n max_times with
  | zero => exact .short _ _
  | succ k ih =>
    obtain ⟨k', rfl⟩ := Nat.exists_eq_succ_of_ne_zero (Nat.ne_of_gt (Nat.zero_lt_of_lt hk))
    cases node with
    | none => exact .refl _ _
    | some a =>
      obtain ⟨t, w⟩ := s
      rw [executeLoop, executeLoop]
      refine (CutShort.refl _ _).bind fun f => (hcall f _).bind fun r => (rearmOrDestroy_cut h).bind fun t => ?_
      generalize (if max_times ≥ 0 then _ else _ : Int32 × Bool) = left
      obtain ⟨m, stop⟩ := left
      cases stop
      · exact (CutShort.refl _ _).bind fun n' => ih (Nat.le_of_succ_le_succ hk)
      · exact .refl _ _

theorem epTimerExecute_cut (hcall : ∀ f s, CutShort .fuel (call f s) (call' f s)) (h : fuel ≤ fuel')
    {now : UInt64} {max_times : Int32} :
    CutShort .fuel (epTimerExecute fuel call s now max_times) (epTimerExecute fuel' call' s now max_times) :=
  (skiplistExtractLte_cut h).bind fun _ => (CutShort.refl _ _).bind fun _ => executeLoop_cut hcall h h

end

theorem TimerStep.exec_cut (s : TimerStep) (h : fuel ≤ fuel') :
    CutShort .fuel (s.exec fuel t) (s.exec fuel' t) := by
  cases s with
  | call op => exact (op.exec_cut h).bind fun _ => .refl _ _
  | execute now max_times script =>
    exact (epTimerExecute_cut (callScript_cut h) h).bind fun _ => .refl _ _

theorem execSteps_cut {steps : List TimerStep} (h : fuel ≤ fuel') :
    CutShort .fuel (execSteps fuel t steps) (execSteps fuel' t steps) := by
  induction steps generalizing t with
  | nil => exact .refl _ _
  | cons s steps ih => exact (s.exec_cut h).bind fun _ => ih.bind fun _ => .refl _ _

end Libep

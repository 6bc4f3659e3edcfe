import Libep.Theory.Turns

/-!
# When a run of turns is free of faults

The only fault a call can have is the clear of a timer that is not allocated, and the only fault of a
turn that the alarm was destroyed before its end. A run in which each clear is of a live timer is
therefore free of faults exactly if no alarm is cleared before its turn or in it.
-/

namespace Libep
open StableList

namespace Alarms

/-- A clear is of a live timer that may be cleared. -/
def LegalOp (allowed : Nat → Prop) (A : Alarms) : TimerOp → Prop
  | .clear id => A.live id ∧ allowed id
  | _ => True

def LegalOps (allowed : Nat → Prop) : Alarms → List TimerOp → Prop
  | _, [] => True
  | A, op :: ops => A.LegalOp allowed op ∧
    match A.exec op with
    | .ok A' => LegalOps allowed A' ops
    | .error _ => True

/-- The calls of every callback are legal, up to a fault. -/
def LegalTurns (allowed : Nat → Nat → Prop) (script : Nat → List TimerOp) :
    Alarms → (k : Nat) → List Alarm → Prop
  | _, _, [] => True
  | A, k, e :: es => A.LegalOps (allowed k) (script k) ∧
    match A.turn (script k) e with
    | .ok A' => LegalTurns allowed script A' (k + 1) es
    | .error _ => True

/-- The calls of every callback of `execute` are legal. -/
def LegalExecute (allowed : Nat → Nat → Prop) (A : Alarms) (script : Nat → List TimerOp)
    (now : UInt64) (max_times : Int32) : Prop :=
  (A.detach now).LegalTurns allowed script 0 (A.batch now max_times)

variable {A A' : Alarms} {id : Nat} {op : TimerOp} {ops : List TimerOp}
variable {e : Alarm} {es : List Alarm} {script : Nat → List TimerOp} {k : Nat}

theorem LegalOp.exec_ok {allowed : Nat → Prop} (H : A.LegalOp allowed op) :
    ∃ A', A.exec op = .ok A' := by
  cases op with
  | clear id => exact ⟨_, if_pos H.1⟩
  | updatetime tv => exact ⟨_, rfl⟩
  | runAfter oom ms cb arg => exact ⟨_, rfl⟩
  | runEvery oom ms cb arg => exact ⟨_, rfl⟩

theorem LegalOps.execOps_ok {allowed : Nat → Prop} (H : A.LegalOps allowed ops) :
    ∃ A', A.execOps ops = .ok A' ∧ ∀ id, .clear id ∈ ops → allowed id := by
  induction ops generalizing A with
  | nil => exact ⟨A, rfl, nofun⟩
  | cons op ops ih =>
    obtain ⟨A₁, h₁⟩ := H.1.exec_ok
    have H₂ := H.2
    rw [h₁] at H₂
    obtain ⟨A', h', hallowed⟩ := ih H₂
    refine ⟨A', by simp [execOps, h₁, h'], fun id h => ?_⟩
    rcases List.mem_cons.1 h with rfl | h
    · exact H.1.2
    · exact hallowed id h

theorem finish_ok (h : A.live e.id) : ∃ A', A.finish e = .ok A' := by
  unfold finish
  rw [if_pos h]
  split
  · exact ⟨_, rfl⟩
  · exact ⟨_, if_pos h⟩

/-- Legal turns have no fault if no alarm is cleared up to its turn. -/
theorem WF.turns_ok {allowed : Nat → Nat → Prop} (H : A.WF)
    (hdet : ∀ e ∈ es, A.Detached e.id) (hnd : (es.map Alarm.id).Nodup)
    (hlive : ∀ e ∈ es, A.live e.id) (hlegal : A.LegalTurns allowed script k es)
    (h : ∀ i j e, i ≤ j → es[j]? = some e → .clear e.id ∈ script (k + i) → ¬allowed (k + i) e.id) :
    ∃ A', A.turns script k es = .ok A' := by
  induction es generalizing A k with
  | nil => exact ⟨A, rfl⟩
  | cons e es ih =>
    obtain ⟨A₁, h₁, hallowed⟩ := hlegal.1.execOps_ok
    have hnd' := List.nodup_cons.1 hnd
    have E := H.effect_execOps h₁
    -- the first callback clears no alarm of the batch
    have hclear : ∀ e' ∈ e :: es, .clear e'.id ∉ script k := by
      intro e' he' hc
      obtain ⟨j, hj⟩ := List.mem_iff_getElem?.1 he'
      exact h 0 j e' (Nat.zero_le j) hj hc (hallowed _ hc)
    have he := hdet e List.mem_cons_self
    have hl := hlive e List.mem_cons_self
    obtain ⟨A₂, h₂⟩ := finish_ok (A := A₁) (e := e)
      ((E.live _ he.1).2 ⟨hl, hclear e List.mem_cons_self, nofun⟩)
    have hturn : A.turn (script k) e = .ok A₂ := by
      rw [turn, if_pos hl, h₁]
      exact h₂
    have hlegal₂ := hlegal.2
    rw [hturn] at hlegal₂
    have E₂ := H.effect_turn he hturn
    have hne : ∀ e' ∈ es, e'.id ≠ e.id :=
      fun e' he' h => hnd'.1 (h ▸ List.mem_map_of_mem he')
    obtain ⟨A', h'⟩ := ih (k := k + 1) E₂.wf (H.detached_turn hdet hnd hturn) hnd'.2
      (fun e' he' => (E₂.live _ (hdet e' (List.mem_cons_of_mem _ he')).1).2
        ⟨hlive e' (List.mem_cons_of_mem _ he'), hclear e' (List.mem_cons_of_mem _ he'),
          by simpa using fun _ => Ne.symm (hne e' he')⟩)
      hlegal₂
      (fun i j e' hij hj => by
        rw [Nat.add_right_comm]
        exact h (i + 1) (j + 1) e' (Nat.succ_le_succ hij) (by simpa using hj))
    exact ⟨A', by simp [turns, hturn, h']⟩

/-- Turns without a fault clear no alarm up to its turn. -/
theorem WF.clear_notMem_of_turns (H : A.WF) (hdet : ∀ e ∈ es, A.Detached e.id)
    (hnd : (es.map Alarm.id).Nodup) (h : A.turns script k es = .ok A') {i j : Nat} (hij : i ≤ j)
    (hj : es[j]? = some e) : .clear e.id ∉ script (k + i) := by
  induction es generalizing A k i j with
  | nil => simp at hj
  | cons e₀ es ih =>
    obtain ⟨A₁, h₁, h₂⟩ := Res.bind_eq_ok.1 h
    have hnd' := List.nodup_cons.1 hnd
    have he₀ := hdet e₀ List.mem_cons_self
    have E := H.effect_turn he₀ h₁
    have hdet₁ := H.detached_turn hdet hnd h₁
    cases j with
    | zero =>
      -- a callback that clears its own alarm leaves nothing to re-arm or destroy
      obtain rfl : e₀ = e := by simpa using hj
      obtain rfl : i = 0 := Nat.le_zero.1 hij
      intro hc
      unfold Alarms.turn at h₁
      split at h₁
      · obtain ⟨A₂, h₃, h₄⟩ := Res.bind_eq_ok.1 h₁
        have E₂ := H.effect_execOps h₃
        have hdead := (E₂.cleared _ hc).2
        simp [finish, hdead] at h₄
      · cases h₁
    | succ j =>
      have hj' : es[j]? = some e := by simpa using hj
      have he : e ∈ es := List.mem_of_getElem? hj'
      cases i with
      | zero =>
        have hlive := (E.wf.effect_turns hdet₁ hnd'.2 h₂).turn e he
        exact ((E.live _ (hdet e (List.mem_cons_of_mem _ he)).1).1 hlive).2.1
      | succ i =>
        have := ih E.wf hdet₁ hnd'.2 h₂ (Nat.le_of_succ_le_succ hij) hj'
        rwa [Nat.add_right_comm] at this

/-! ### `execute` -/

variable {now : UInt64} {m : Int32}

theorem WF.execute_ok {allowed : Nat → Nat → Prop} (H : A.WF)
    (hlegal : A.LegalExecute allowed script now m)
    (h : ∀ i j e, i ≤ j → (A.batch now m)[j]? = some e → .clear e.id ∈ script i →
      ¬allowed i e.id) : ∃ A', A.execute script now m = .ok A' := by
  have hdue : ∀ e ∈ A.batch now m, e ∈ A.due now := fun e he => List.mem_of_mem_take he
  refine (H.detach now).turns_ok (fun e he => H.detached_of_mem_due (hdue e he)) (H.nodup_batch now m)
    (fun e he => H.live e (mem_upTo.1 (hdue e he)).1) hlegal ?_
  simpa using h

theorem LegalOps.of_no_clear (h : ∀ id, .clear id ∉ ops) : A.LegalOps (fun _ => True) ops := by
  induction ops generalizing A with
  | nil => trivial
  | cons op ops ih =>
    refine ⟨?_, ?_⟩
    · cases op with
      | clear id => exact absurd List.mem_cons_self (h id)
      | updatetime | runAfter | runEvery => trivial
    · split
      · exact ih fun id hid => h id (List.mem_cons_of_mem _ hid)
      · trivial

theorem LegalTurns.of_no_clear (h : ∀ id, .clear id ∉ calls script k es.length) :
    A.LegalTurns (fun _ _ => True) script k es := by
  induction es generalizing A k with
  | nil => trivial
  | cons e es ih =>
    refine ⟨.of_no_clear fun id hid => h id (List.mem_append_left _ hid), ?_⟩
    split
    · exact ih fun id hid => h id (List.mem_append_right _ hid)
    · trivial

/-- Callbacks that clear nothing cannot cause a fault. -/
theorem WF.execute_ok_of_no_clear (H : A.WF)
    (h : ∀ id, .clear id ∉ calls script 0 (A.batch now m).length) :
    ∃ A', A.execute script now m = .ok A' := by
  refine H.execute_ok (.of_no_clear h) fun i j e hij hj hc => absurd (mem_calls.2 ⟨i, ?_, ?_⟩) (h e.id)
  · obtain ⟨hj, -⟩ := List.getElem?_eq_some_iff.1 hj
    exact Nat.lt_of_le_of_lt hij hj
  · rwa [Nat.zero_add]

theorem WF.clear_notMem_of_execute (H : A.WF) (h : A.execute script now m = .ok A') {i j : Nat}
    (hij : i ≤ j) (hj : (A.batch now m)[j]? = some e) : .clear e.id ∉ script i := by
  have := (H.detach now).clear_notMem_of_turns
    (fun e he => H.detached_of_mem_due (List.mem_of_mem_take he)) (H.nodup_batch now m) h hij hj
  rwa [Nat.zero_add] at this

/-! ### The alarms have no loop without a bound -/

theorem free_ne_fuel : A.free id ≠ .error .fuel := by
  unfold free
  split <;> nofun

theorem exec_ne_fuel (A : Alarms) (op : TimerOp) : A.exec op ≠ .error .fuel := by
  cases op with
  | clear id => exact free_ne_fuel
  | updatetime tv => nofun
  | runAfter oom ms cb arg => nofun
  | runEvery oom ms cb arg => nofun

theorem execOps_ne_fuel (A : Alarms) (ops : List TimerOp) : A.execOps ops ≠ .error .fuel := by
  induction ops generalizing A with
  | nil => nofun
  | cons op ops ih => exact Res.bind_ne_fuel (A.exec_ne_fuel op) ih

theorem finish_ne_fuel (A : Alarms) (e : Alarm) : A.finish e ≠ .error .fuel := by
  unfold finish
  split
  · split
    · nofun
    · exact free_ne_fuel
  · nofun

theorem turn_ne_fuel (A : Alarms) (ops : List TimerOp) (e : Alarm) :
    A.turn ops e ≠ .error .fuel := by
  unfold turn
  split
  · exact Res.bind_ne_fuel (A.execOps_ne_fuel ops) fun A' => A'.finish_ne_fuel e
  · nofun

theorem turns_ne_fuel (A : Alarms) (k : Nat) (es : List Alarm) :
    A.turns script k es ≠ .error .fuel := by
  induction es generalizing A k with
  | nil => nofun
  | cons e es ih => exact Res.bind_ne_fuel (A.turn_ne_fuel _ e) fun A' => ih A' (k + 1)

theorem execStep_ne_fuel (A : Alarms) (s : TimerStep) : A.execStep s ≠ .error .fuel := by
  cases s with
  | call op => exact Res.bind_ne_fuel (A.exec_ne_fuel op) nofun
  | execute now m script => exact Res.bind_ne_fuel (turns_ne_fuel _ _ _) nofun

theorem execSteps_ne_fuel (A : Alarms) (steps : List TimerStep) :
    A.execSteps steps ≠ .error .fuel := by
  induction steps generalizing A with
  | nil => nofun
  | cons s steps ih =>
    exact Res.bind_ne_fuel (A.execStep_ne_fuel s) fun r => Res.bind_ne_fuel (ih r.1) nofun

end Alarms

end Libep

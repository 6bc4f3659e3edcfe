import Libep.Verify.Timer.Interval

/-!
# Timers and the range of the clock

A deadline is a sum of 64-bit numbers. A timer is called early exactly if it gets its turn on a
deadline that has wrapped around; the run is followed with the deadline as it was promised, which
does not wrap.
-/

namespace Libep
open Chain SkipList StableList Filter

/-- A timer made in a run: the clock at the time, its delay, and its period (0 for a one-shot). -/
structure Birth where
  id : Nat
  now : UInt64
  delay : UInt64
  period : UInt64
  deriving DecidableEq

/-- The time before which the firing after `k` firings may not be, without wrap-around. -/
def Birth.promised (b : Birth) (k : Nat) : Nat :=
  b.now.toNat + b.delay.toNat + k * b.period.toNat

/-- Every firing is at its promised time or later. -/
def Birth.NeverEarly (b : Birth) (log : TimerLog) : Prop :=
  ∀ k (hk : k < (firedAt b.id log).length), b.promised k ≤ ((firedAt b.id log)[k]).toNat

/-- The timer a call makes, at the time `now`, when `brk` is the next name. -/
def TimerOp.births (now : UInt64) (brk : Nat) : TimerOp → List Birth
  | .runAfter false ms _ _ => [⟨brk, now, ms, 0⟩]
  | .runEvery false ms _ _ => [⟨brk, now, ms, ms⟩]
  | _ => []

/-- The timers calls make. -/
def births (now : UInt64) (brk : Nat) : List TimerOp → List Birth
  | [] => []
  | op :: ops => op.births now brk ++ births (op.nowAfter now) (brk + (op.births now brk).length) ops

namespace Alarms

/-- The calls made in a step, those of the callbacks included. -/
def stepOps (A : Alarms) : TimerStep → List TimerOp
  | .call op => [op]
  | .execute now m script => calls script 0 (A.batch now m).length

/-- The timers made in a run. -/
def births : Alarms → List TimerStep → List Birth
  | _, [] => []
  | A, s :: steps => Libep.births A.now A.brk (A.stepOps s) ++
    match A.execStep s with
    | .ok (A', _) => births A' steps
    | .error _ => []

/-- The clears of a step are of timers that are allocated, and those of a callback not of one that has its turn then or
later in the execution. -/
def LegalStep (A : Alarms) : TimerStep → Prop
  | .call op => A.LegalOp (fun _ => True) op
  | .execute now m script =>
    A.LegalExecute (fun i id => ∀ j e, i ≤ j → (A.batch now m)[j]? = some e → e.id ≠ id) script now m

/-- Every step of a run is legal. -/
def LegalRun : Alarms → List TimerStep → Prop
  | _, [] => True
  | A, s :: steps => A.LegalStep s ∧
    match A.execStep s with
    | .ok (A', _) => LegalRun A' steps
    | .error _ => True

end Alarms

/-- If the timer gets a turn in the step, after `k` firings, its promised time is a 64-bit number. -/
def Birth.InRange (b : Birth) (k : Nat) (A : Alarms) : TimerStep → Prop
  | .call _ => True
  | .execute now m _ => b.id ∈ (A.batch now m).map Alarm.id → b.promised k < 2 ^ 64

/-- Every step of a run meets `Birth.InRange`. -/
def Birth.InRangeRun (b : Birth) : (k : Nat) → Alarms → List TimerStep → Prop
  | _, _, [] => True
  | k, A, s :: steps => b.InRange k A s ∧
    match A.execStep s with
    | .ok (A', log) => b.InRangeRun (k + (firedAt b.id log).length) A' steps
    | .error _ => True

/-! ### What is made -/

theorem TimerOp.length_births (now : UInt64) (brk : Nat) (op : TimerOp) :
    (op.births now brk).length = (op.made now brk).length := by
  cases op with
  | updatetime tv => rfl
  | runAfter oom ms cb arg => cases oom <;> rfl
  | runEvery oom ms cb arg => cases oom <;> rfl
  | clear id => rfl

/-- A timer is made with the deadline it is promised, as far as 64 bits hold it. -/
theorem TimerOp.made_of_births {now : UInt64} {brk : Nat} {op : TimerOp} {b : Birth}
    (h : b ∈ op.births now brk) :
    ∃ n : TimerNode, n.ms = b.period ∧ ⟨n, b.id, .ofNat (b.promised 0), 0⟩ ∈ op.made now brk := by
  unfold births at h
  split at h
  · rename_i ms cb arg
    obtain rfl := List.mem_singleton.1 h
    refine ⟨⟨0, cb, arg⟩, rfl, ?_⟩
    simp [made, Birth.promised]
  · rename_i ms cb arg
    obtain rfl := List.mem_singleton.1 h
    refine ⟨⟨ms, cb, arg⟩, rfl, ?_⟩
    simp [made, Birth.promised]
  · cases h

theorem created_of_births {ops : List TimerOp} {now : UInt64} {brk : Nat} {b : Birth}
    (h : b ∈ births now brk ops) :
    ∃ n : TimerNode, n.ms = b.period ∧
      ⟨n, b.id, .ofNat (b.promised 0), 0⟩ ∈ created now brk ops := by
  induction ops generalizing now brk with
  | nil => cases h
  | cons op ops ih =>
    rcases List.mem_append.1 h with h | h
    · obtain ⟨n, hn, hv⟩ := TimerOp.made_of_births h
      exact ⟨n, hn, List.mem_append_left _ hv⟩
    · rw [TimerOp.length_births] at h
      obtain ⟨n, hn, hv⟩ := ih h
      exact ⟨n, hn, List.mem_append_right _ hv⟩

namespace Alarms
variable {A A' : Alarms} {b : Birth} {k : Nat} {s : TimerStep} {steps : List TimerStep}
variable {log : TimerLog} {v : Alarm} {ops : List TimerOp} {es : List Alarm}

/-- The alarm of `b` after `k` firings, in the list or not. -/
def Scheduled (b : Birth) (k : Nat) (A : Alarms) : Prop :=
  A.Detached b.id ∨
    ∃ n : TimerNode, n.ms = b.period ∧ (⟨n, b.id, .ofNat (b.promised k), 0⟩ : Alarm) ∈ A.plain

namespace Effect

/-- What should be in the list is there, unless it was cleared. -/
theorem plain_or_detached (H : Effect A ops es A')
    (hv : v ∈ A.plain ∨ v ∈ created A.now A.brk ops ∨ ∃ e ∈ es, 0 < e.ms ∧ v = e.next) :
    A'.Detached v.id ∨ v ∈ A'.plain := by
  by_cases hc : .clear v.id ∈ ops
  · refine .inl ⟨(H.cleared _ hc).1, fun h => ?_⟩
    obtain ⟨v', hv', hid⟩ := mem_ids_iff_plain.1 h
    exact ((H.plain v').1 hv').1 (hid ▸ hc)
  · exact .inr ((H.plain v).2 ⟨hc, hv⟩)

theorem scheduled {n : TimerNode} (H : Effect A ops es A') (hn : n.ms = b.period)
    (hv : let v : Alarm := ⟨n, b.id, .ofNat (b.promised k), 0⟩
      v ∈ A.plain ∨ v ∈ created A.now A.brk ops ∨ ∃ e ∈ es, 0 < e.ms ∧ v = e.next) :
    Scheduled b k A' :=
  (H.plain_or_detached hv).imp_right fun h => ⟨n, hn, h⟩

/-- A one-shot that had its turn is gone. -/
theorem detached_of_turn {e : Alarm} (H : Effect A ops es A') (hdet : A.Detached e.id) (he : e ∈ es)
    (hnd : (es.map Alarm.id).Nodup) (hms : e.ms = 0) : A'.Detached e.id := by
  refine ⟨Nat.lt_of_lt_of_le hdet.1 H.brk_le, fun h => ?_⟩
  obtain ⟨v, hv, hid⟩ := mem_ids_iff_plain.1 h
  obtain ⟨-, hv | hv | ⟨e', he', hms', rfl⟩⟩ := (H.plain v).1 hv
  · exact hdet.2 (mem_ids_iff_plain.2 ⟨v, hv, hid⟩)
  · exact absurd hdet.1 (Nat.not_lt.2 (hid ▸ le_of_mem_created hv))
  · obtain rfl := List.inj_on_of_nodup_map hnd he' he hid
    rw [hms] at hms'
    exact absurd hms' (UInt64.lt_irrefl 0)

end Effect

/-- The turn of a timer on a deadline that is due: it is not early exactly if the deadline is in the
range. -/
theorem inRange_iff_of_due {now : UInt64} (h : (.ofNat (b.promised k) : UInt64) ≤ now) :
    b.promised k < 2 ^ 64 ↔ b.promised k ≤ now.toNat := by
  constructor
  · intro hlt
    have := UInt64.le_iff_toNat_le.1 h
    rwa [UInt64.toNat_ofNat_of_lt' hlt] at this
  · exact fun hle => Nat.lt_of_le_of_lt hle (UInt64.toNat_lt now)


namespace WF
variable {now : UInt64} {m : Int32} {script : Nat → List TimerOp}

/-- A call from outside the callbacks fires nothing. -/
theorem scheduled_exec {op : TimerOp} (H : A.WF) (hs : Scheduled b k A) (h : A.exec op = .ok A') :
    Scheduled b k A' := by
  have E := H.effect_exec h
  rcases hs with hdet | ⟨n, hn, hv⟩
  · exact .inl (E.detached hdet nofun)
  · exact E.scheduled hn (.inl hv)

/-- An execution that does not give the timer a turn. -/
theorem scheduled_execute (H : A.WF) (hs : Scheduled b k A)
    (h : A.execute script now m = .ok A') (hb : b.id ∉ (A.batch now m).map Alarm.id) :
    Scheduled b k A' := by
  have E := H.effect_execute h
  rcases hs with hdet | ⟨n, hn, hv⟩
  · exact .inl (E.detached ⟨hdet.1, fun h => hdet.2 (List.filter_sublist.map _ |>.subset h)⟩ hb)
  · obtain ⟨e, he, hev⟩ := List.mem_map.1 hv
    have hid : e.id = b.id := congrArg Alarm.id hev
    rcases le_or_gt e.deadline now with hdue | hdue
    · -- it is due, and the limit stopped the loop before its turn
      have := H.detached_of_mem_due (mem_upTo.2 ⟨he, hdue⟩)
      rw [hid] at this
      exact .inl (E.detached this hb)
    · exact E.scheduled hn (.inl (List.mem_map.2 ⟨e, mem_above.2 ⟨he, hdue⟩, hev⟩))

/-- An execution that gives the timer a turn. -/
theorem scheduled_turn (H : A.WF) (hs : Scheduled b k A)
    (h : A.execute script now m = .ok A') (hb : b.id ∈ (A.batch now m).map Alarm.id) :
    (.ofNat (b.promised k) : UInt64) ≤ now ∧ Scheduled b (k + 1) A' := by
  have E := H.effect_execute h
  obtain ⟨e, he, hid⟩ := List.mem_map.1 hb
  have hdue := List.mem_of_mem_take he
  have hl := (mem_upTo.1 hdue).1
  rcases hs with hdet | ⟨n, hn, hv⟩
  · exact absurd (List.mem_map.2 ⟨e, hl, hid⟩) hdet.2
  · obtain ⟨e', he', hev⟩ := List.mem_map.1 hv
    obtain rfl := H.eq_of_id_eq he' hl ((congrArg Alarm.id hev).trans hid.symm)
    have hms : e'.ms = b.period := (congrArg (fun v => v.ms) hev).trans hn
    have hd : e'.deadline = .ofNat (b.promised k) := congrArg Alarm.deadline hev
    refine ⟨hd ▸ (mem_upTo.1 hdue).2, ?_⟩
    rcases eq_or_ne e'.ms 0 with h0 | hpos
    · exact .inl (hid ▸ E.detached_of_turn (H.detached_of_mem_due hdue) he (H.nodup_batch now m) h0)
    · refine E.scheduled hms (.inr (.inr ⟨e', he, UInt64.pos_iff_ne_zero.2 hpos, ?_⟩))
      have hnext : b.promised (k + 1) = b.promised k + b.period.toNat := by
        unfold Birth.promised
        ring
      rw [Alarm.next, hd, hid, hms, hnext, UInt64.ofNat_add, UInt64.ofNat_toNat]

/-- What one step does to a timer after `k` firings: nothing, or one more firing. -/
theorem execStep_scheduled (H : A.WF) (hs : Scheduled b k A) (h : A.execStep s = .ok (A', log)) :
    A'.WF ∧ (firedAt b.id log = [] ∧ b.InRange k A s ∧ Scheduled b k A' ∨
      ∃ now, firedAt b.id log = [now] ∧ (b.InRange k A s ↔ b.promised k < 2 ^ 64) ∧
        (b.promised k ≤ now.toNat ↔ b.promised k < 2 ^ 64) ∧ Scheduled b (k + 1) A') := by
  cases s with
  | call op =>
    obtain ⟨A₁, h₁, h₂⟩ := Res.bind_eq_ok.1 h
    cases h₂
    exact ⟨(H.effect_exec h₁).wf, .inl ⟨rfl, trivial, H.scheduled_exec hs h₁⟩⟩
  | execute now m script =>
    obtain ⟨A₁, h₁, h₂⟩ := Res.bind_eq_ok.1 h
    cases h₂
    refine ⟨(H.effect_execute h₁).wf, ?_⟩
    rw [firedAt_singleton]
    by_cases hb : b.id ∈ (A.batch now m).map Alarm.id
    · obtain ⟨hdue, hs'⟩ := H.scheduled_turn hs h₁ hb
      rw [List.count_eq_one_of_mem (H.nodup_batch now m) hb]
      exact .inr ⟨now, rfl, forall_prop_of_true hb, (inRange_iff_of_due hdue).symm, hs'⟩
    · rw [List.count_eq_zero.2 hb]
      exact .inl ⟨rfl, fun h => absurd h hb, H.scheduled_execute hs h₁ hb⟩

/-- What a run does to a timer after `k` firings: each of its firings is at the promised time or later exactly if
that time is a 64-bit number. -/
theorem execSteps_scheduled (H : A.WF) (hs : Scheduled b k A)
    (h : A.execSteps steps = .ok (A', log)) :
    (∀ j (hj : j < (firedAt b.id log).length),
      b.promised (k + j) ≤ ((firedAt b.id log)[j]).toNat ↔ b.promised (k + j) < 2 ^ 64) ∧
    (b.InRangeRun k A steps ↔ ∀ j < (firedAt b.id log).length, b.promised (k + j) < 2 ^ 64) := by
  induction steps generalizing A k log with
  | nil =>
    cases h
    exact ⟨nofun, iff_of_true trivial nofun⟩
  | cons s steps ih =>
    obtain ⟨⟨A₁, log₁⟩, h₁, h⟩ := Res.bind_eq_ok.1 h
    obtain ⟨⟨A₂, log₂⟩, h₂, h⟩ := Res.bind_eq_ok.1 h
    cases h
    obtain ⟨H₁, ⟨hf, hin, hs₁⟩ | ⟨now, hf, hin, hnow, hs₁⟩⟩ := H.execStep_scheduled hs h₁
    · obtain ⟨hfired, hrange⟩ := ih H₁ hs₁ h₂
      simp only [Birth.InRangeRun, h₁, firedAt_append, hf, List.length_nil, Nat.add_zero]
      exact ⟨hfired, (and_iff_right hin).trans hrange⟩
    · obtain ⟨hfired, hrange⟩ := ih H₁ hs₁ h₂
      have hsucc : ∀ j, k + (j + 1) = k + 1 + j := fun j => by omega
      simp only [Birth.InRangeRun, h₁, firedAt_append, hf, List.length_singleton, hin, hrange]
      refine ⟨fun j hj => ?_, fun h j hj => ?_, fun h => ⟨h 0 (Nat.succ_pos _), fun j hj => ?_⟩⟩
      · cases j with
        | zero => exact hnow
        | succ j =>
          rw [hsucc]
          exact hfired j (Nat.lt_of_succ_lt_succ hj)
      · cases j with
        | zero => exact h.1
        | succ j =>
          rw [hsucc]
          exact h.2 j (Nat.lt_of_succ_lt_succ hj)
      · rw [← hsucc]
        exact h (j + 1) (Nat.succ_lt_succ hj)

/-- What is made in a step is not called in it. -/
theorem scheduled_of_births (H : A.WF) (h : A.execStep s = .ok (A', log))
    (hb : b ∈ Libep.births A.now A.brk (A.stepOps s)) :
    A.brk ≤ b.id ∧ Scheduled b 0 A' := by
  obtain ⟨n, hn, hv⟩ := created_of_births hb
  refine ⟨le_of_mem_created hv, ?_⟩
  cases s with
  | call op =>
    obtain ⟨A₁, h₁, h₂⟩ := Res.bind_eq_ok.1 h
    cases h₂
    exact (H.effect_exec h₁).scheduled hn (.inr (.inl hv))
  | execute now m script =>
    obtain ⟨A₁, h₁, h₂⟩ := Res.bind_eq_ok.1 h
    cases h₂
    exact (H.effect_execute h₁).scheduled hn (.inr (.inl hv))

/-- A timer that is not made yet is not called. -/
theorem firedAt_of_brk_le (H : A.WF) (h : A.execStep s = .ok (A', log)) (hb : A.brk ≤ b.id) :
    A'.WF ∧ A.brk ≤ A'.brk ∧ firedAt b.id log = [] ∧ b.InRange k A s := by
  cases s with
  | call op =>
    obtain ⟨A₁, h₁, h₂⟩ := Res.bind_eq_ok.1 h
    cases h₂
    have E := H.effect_exec h₁
    exact ⟨E.wf, E.brk_le, rfl, trivial⟩
  | execute now m script =>
    obtain ⟨A₁, h₁, h₂⟩ := Res.bind_eq_ok.1 h
    cases h₂
    have E := H.effect_execute h₁
    have hnot : b.id ∉ (A.batch now m).map Alarm.id := by
      intro h
      obtain ⟨e, he, hid⟩ := List.mem_map.1 h
      have hl := (mem_upTo.1 (List.mem_of_mem_take he)).1
      exact absurd (H.lt_of_mem (List.mem_map_of_mem hl)) (Nat.not_lt.2 (hid ▸ hb))
    refine ⟨E.wf, E.brk_le, ?_, fun h => absurd h hnot⟩
    rw [firedAt_singleton, List.count_eq_zero.2 hnot]
    rfl

theorem le_of_mem_births (H : A.WF) (hb : b ∈ A.births steps) : A.brk ≤ b.id := by
  induction steps generalizing A with
  | nil => cases hb
  | cons s steps ih =>
    rcases List.mem_append.1 hb with hb | hb
    · obtain ⟨n, -, hv⟩ := created_of_births hb
      exact le_of_mem_created hv
    · cases h₁ : A.execStep s with
      | error x =>
        rw [h₁] at hb
        cases hb
      | ok r =>
        rw [h₁] at hb
        obtain ⟨H₁, hbrk, -⟩ := H.firedAt_of_brk_le (b := ⟨A.brk, 0, 0, 0⟩) (k := 0) h₁ (Nat.le_refl _)
        exact Nat.le_trans hbrk (ih H₁ hb)

/-- What a run does to a timer that is made in it. -/
theorem births_fired (H : A.WF) (h : A.execSteps steps = .ok (A', log)) (hb : b ∈ A.births steps) :
    (∀ k (hk : k < (firedAt b.id log).length),
      b.promised k ≤ ((firedAt b.id log)[k]).toNat ↔ b.promised k < 2 ^ 64) ∧
    (b.InRangeRun 0 A steps ↔ ∀ k < (firedAt b.id log).length, b.promised k < 2 ^ 64) := by
  have hle := H.le_of_mem_births hb
  induction steps generalizing A log with
  | nil => cases hb
  | cons s steps ih =>
    obtain ⟨⟨A₁, log₁⟩, h₁, h⟩ := Res.bind_eq_ok.1 h
    obtain ⟨⟨A₂, log₂⟩, h₂, h⟩ := Res.bind_eq_ok.1 h
    cases h
    obtain ⟨H₁, -, hf, hin⟩ := H.firedAt_of_brk_le (k := 0) h₁ hle
    simp only [Birth.InRangeRun, h₁, firedAt_append, hf, List.nil_append, List.length_nil, Nat.add_zero]
    rw [and_iff_right hin]
    rcases List.mem_append.1 hb with hb | hb
    · obtain ⟨-, hs⟩ := H.scheduled_of_births h₁ hb
      have := H₁.execSteps_scheduled hs h₂
      simpa only [Nat.zero_add] using this
    · rw [h₁] at hb
      exact ih H₁ h₂ hb (H₁.le_of_mem_births hb)

/-- A timer made in a run is never called early exactly if its turns are in the range. -/
theorem neverEarly_iff (H : A.WF) (h : A.execSteps steps = .ok (A', log))
    (hb : b ∈ A.births steps) : b.NeverEarly log ↔ b.InRangeRun 0 A steps := by
  obtain ⟨hfired, hrange⟩ := H.births_fired h hb
  rw [hrange]
  exact forall₂_congr hfired

/-- A legal run uses no destroyed timer. -/
theorem execSteps_ok_of_legal (H : A.WF) (hlegal : A.LegalRun steps) :
    ∃ A' log, A.execSteps steps = .ok (A', log) := by
  induction steps generalizing A with
  | nil => exact ⟨A, [], rfl⟩
  | cons s steps ih =>
    obtain ⟨A₁, log₁, h₁⟩ : ∃ A₁ log₁, A.execStep s = .ok (A₁, log₁) := by
      cases s with
      | call op =>
        obtain ⟨A₁, h₁⟩ := LegalOp.exec_ok hlegal.1
        exact ⟨A₁, [], by simp [Alarms.execStep, h₁]⟩
      | execute now m script =>
        obtain ⟨A₁, h₁⟩ := H.execute_ok hlegal.1 fun i j e hij hj _ h => h j e hij hj rfl
        exact ⟨A₁, [(now, (A.batch now m).map Alarm.firing)], by simp [Alarms.execStep, h₁]⟩
    obtain ⟨H₁, -⟩ := H.firedAt_of_brk_le (b := ⟨A.brk, 0, 0, 0⟩) (k := 0) h₁ (Nat.le_refl _)
    have hlegal₁ := hlegal.2
    rw [h₁] at hlegal₁
    obtain ⟨A₂, log₂, h₂⟩ := ih H₁ hlegal₁
    exact ⟨A₂, log₁ ++ log₂, by simp [Alarms.execSteps, h₁, h₂]⟩

end WF

end Alarms

/-- **A timer made in a run is never called early exactly if it gets no turn on a deadline that has
wrapped around.** The run may be any that uses no destroyed timer, and so every legal one; the timer may be made in a
callback. -/
theorem never_early_iff {t : Timer} {A : Alarms} (H : t.Rep A []) (steps : List TimerStep) :
    ∀ᶠ fuel in atTop, execSteps fuel t steps = .error .invalid ∧ ¬A.LegalRun steps ∨
      ∃ t' log, execSteps fuel t steps = .ok (t', log) ∧
        ∀ b ∈ A.births steps, b.NeverEarly log ↔ b.InRangeRun 0 A steps := by
  filter_upwards [Timer.Rep.execSteps steps A] with fuel h
  cases hrun' : A.execSteps steps with
  | error x =>
    cases x with
    | fuel => exact absurd hrun' (A.execSteps_ne_fuel steps)
    | invalid =>
      refine .inl ⟨(h t H).eq_error hrun', fun hlegal => ?_⟩
      obtain ⟨A', log, hrun⟩ := H.wf.execSteps_ok_of_legal hlegal
      cases hrun.symm.trans hrun'
  | ok r =>
    obtain ⟨⟨t', log⟩, hrun, -, rfl⟩ := (h t H).exists_ok hrun'
    exact .inr ⟨t', _, hrun, fun b hb => H.wf.neverEarly_iff hrun' hb⟩

/-- A one-shot with the delay `2 ^ 64 - 1`, made at the time 1, and one execution at the time 1. -/
def wrapSteps : List TimerStep :=
  [.call (.updatetime ⟨0, 1000⟩), .call (.runAfter false 0xffffffffffffffff 7 0),
    .execute 1 (-1) fun _ => []]

/-- An interval whose callback makes a one-shot; the next execution calls both. -/
def nestedSteps : List TimerStep :=
  [.call (.runEvery false 5 7 0), .execute 6 (-1) fun _ => [.runAfter false 3 8 0],
    .execute 10 (-1) fun _ => []]

theorem never_early_iff_sample :
    ∃ t A, t.Rep A [] ∧ A.births nestedSteps = [⟨0, 0, 5, 5⟩, ⟨1, 0, 3, 0⟩] ∧
      ∀ᶠ fuel in atTop, ∃ t' log, execSteps fuel t nestedSteps = .ok (t', log) ∧
        ∀ b ∈ A.births nestedSteps, b.NeverEarly log ↔ b.InRangeRun 0 A nestedSteps := by
  have H : (epTimerInit blank).Rep (.empty 0) [] := .init rfl rfl rfl
  have hlegal : (Alarms.empty 0).LegalRun nestedSteps :=
    ⟨trivial, ⟨⟨trivial, trivial⟩, trivial⟩, ⟨trivial, ⟨trivial, trivial⟩⟩, trivial⟩
  refine ⟨_, _, H, rfl, ?_⟩
  filter_upwards [never_early_iff H nestedSteps] with fuel h
  exact h.resolve_left fun h => h.2 hlegal

/-- The deadline of the one-shot wraps around to 0, and it is called at once. -/
theorem early_after_wrap :
    (∀ᶠ fuel in atTop, ∃ t',
      execSteps fuel (epTimerInit blank) wrapSteps = .ok (t', [(1, [⟨0, 7, 0⟩])])) ∧
      (Alarms.empty 0).births wrapSteps = [⟨0, 1, 0xffffffffffffffff, 0⟩] ∧
      ¬(⟨0, 1, 0xffffffffffffffff, 0⟩ : Birth).NeverEarly [(1, [⟨0, 7, 0⟩])] := by
  have H : (epTimerInit blank).Rep (.empty 0) [] := .init rfl rfl rfl
  refine ⟨?_, rfl, fun h => absurd (h 0 (by decide)) (by decide)⟩
  filter_upwards [Timer.Rep.execSteps wrapSteps (.empty 0)] with fuel h
  obtain ⟨⟨t', log⟩, hrun, -, rfl⟩ := (h _ H).exists_ok rfl
  exact ⟨t', hrun⟩

end Libep

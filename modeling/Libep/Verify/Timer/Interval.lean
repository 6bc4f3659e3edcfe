import Libep.Verify.Timer.Bounded

/-!
# Interval timers do not drift

The deadline of an interval is its first deadline plus a period for every firing, whatever the
executions looked like. From this invariant of a run follow the bounds on its firings, and their
number once nothing is due.
-/

namespace Libep
open Chain SkipList StableList Filter

/-- The times of the executions that fired `id`, once for each firing. -/
def firedAt (id : Nat) (log : TimerLog) : List UInt64 :=
  log.flatMap fun call => List.replicate ((call.2.map Firing.id).count id) call.1

namespace Alarms

/-- A step that leaves the timer `id` alone: clears are of other timers and not in callbacks, and the
limit of an execution is negative or at least the number of due timers (or as good as that). -/
def Spares (id : Nat) (A : Alarms) : TimerStep → Prop
  | .call op => A.LegalOp (· ≠ id) op
  | .execute now m script =>
    A.Unlimited now m ∧ ∀ id', .clear id' ∉ calls script 0 (A.batch now m).length

/-- Every step of a run leaves the timer `id` alone. -/
def SparesRun (id : Nat) : Alarms → List TimerStep → Prop
  | _, [] => True
  | A, s :: steps => A.Spares id s ∧
    match A.execStep s with
    | .ok (A', _) => SparesRun id A' steps
    | .error _ => True

variable {A A' : Alarms} {n : TimerNode} {x D : Nat}

theorem firedAt_singleton (now : UInt64) (es : List Alarm) :
    firedAt x [(now, es.map Alarm.firing)] = List.replicate ((es.map Alarm.id).count x) now := by
  simp [firedAt, Function.comp_def, Alarm.firing]

theorem count_batch (H : A.WF) {now : UInt64} {m : Int32} {e : Alarm} (he : e ∈ A.batch now m) :
    ((A.batch now m).map Alarm.id).count e.id = 1 :=
  List.count_eq_one_of_mem (H.nodup_batch now m) (List.mem_map_of_mem he)

theorem count_batch_of_notMem (H : A.WF) {now : UInt64} {m : Int32} {e : Alarm} (he : e ∈ A.list)
    (hb : e ∉ A.batch now m) : ((A.batch now m).map Alarm.id).count e.id = 0 := by
  apply List.count_eq_zero.2
  intro h
  apply hb
  obtain ⟨e', he', hid⟩ := List.mem_map.1 h
  exact H.eq_of_id_eq (mem_upTo.1 (List.mem_of_mem_take he')).1 he hid ▸ he'

/-- What one step does to an interval it spares: nothing, or a firing that was due and a deadline one
period later. -/
theorem WF.execStep_interval (H : A.WF) (hms : 0 < n.ms)
    (hv : (⟨n, x, .ofNat D, 0⟩ : Alarm) ∈ A.plain) {s : TimerStep} (hs : A.Spares x s) :
    ∃ A' log, A.execStep s = .ok (A', log) ∧ A'.WF ∧
      (∀ call ∈ log, (call.2.map Firing.id).count x ≤ 1) ∧
      (firedAt x log = [] ∧ (⟨n, x, .ofNat D, 0⟩ : Alarm) ∈ A'.plain ∨
        ∃ now, firedAt x log = [now] ∧ (.ofNat D : UInt64) ≤ now ∧
          (⟨n, x, .ofNat (D + n.ms.toNat), 0⟩ : Alarm) ∈ A'.plain) := by
  cases s with
  | call op =>
    obtain ⟨A', hA'⟩ := LegalOp.exec_ok hs
    have E := H.effect_exec hA'
    refine ⟨A', [], by simp [Alarms.execStep, hA'], E.wf, nofun, .inl ⟨rfl, (E.plain _).2 ⟨?_, .inl hv⟩⟩⟩
    intro hc
    obtain rfl := List.mem_singleton.1 hc
    exact hs.2 rfl
  | execute now m script =>
    obtain ⟨A', hA'⟩ := H.execute_ok_of_no_clear hs.2
    have E := H.effect_execute hA'
    refine ⟨A', [(now, (A.batch now m).map Alarm.firing)], by simp [Alarms.execStep, hA'], E.wf, ?_,
      ?_⟩
    · intro call hcall
      rw [List.mem_singleton.1 hcall, List.map_map]
      exact List.nodup_iff_count_le_one.1 (H.nodup_batch now m) x
    · obtain ⟨e, he, hev⟩ := List.mem_map.1 hv
      obtain ⟨rfl, rfl, hd⟩ : e.toTimerNode = n ∧ e.id = x ∧ e.deadline = .ofNat D := by
        cases e
        cases hev
        exact ⟨rfl, rfl, rfl⟩
      have hbatch : A.batch now m = A.due now := unlimited_iff.1 hs.1
      rcases le_or_gt e.deadline now with hdue | hdue
      · have hmem : e ∈ A.batch now m := hbatch ▸ mem_upTo.2 ⟨he, hdue⟩
        refine .inr ⟨now, by rw [firedAt_singleton, count_batch H hmem]; rfl, hd ▸ hdue,
          (E.plain _).2 ⟨hs.2 _, .inr (.inr ⟨e, hmem, hms, ?_⟩)⟩⟩
        rw [Alarm.next, hd, UInt64.ofNat_add, UInt64.ofNat_toNat]
      · have hnot : e ∉ A.batch now m := fun h =>
          not_le.2 hdue (mem_upTo.1 (List.mem_of_mem_take h)).2
        refine .inl ⟨by rw [firedAt_singleton, count_batch_of_notMem H he hnot]; rfl,
          (E.plain _).2 ⟨hs.2 _, .inl (List.mem_map.2 ⟨e, mem_above.2 ⟨he, hdue⟩, hev⟩)⟩⟩

theorem firedAt_append (log log' : TimerLog) :
    firedAt x (log ++ log') = firedAt x log ++ firedAt x log' := List.flatMap_append

/-- What a run does to an interval it spares. -/
theorem WF.execSteps_interval (H : A.WF) (hms : 0 < n.ms)
    (hv : (⟨n, x, .ofNat D, 0⟩ : Alarm) ∈ A.plain) {steps : List TimerStep}
    (hs : A.SparesRun x steps) :
    ∃ A' log, A.execSteps steps = .ok (A', log) ∧ A'.WF ∧
      (∀ call ∈ log, (call.2.map Firing.id).count x ≤ 1) ∧
      (⟨n, x, .ofNat (D + (firedAt x log).length * n.ms.toNat), 0⟩ : Alarm) ∈ A'.plain ∧
      ∀ k (hk : k < (firedAt x log).length),
        (.ofNat (D + k * n.ms.toNat) : UInt64) ≤ (firedAt x log)[k] := by
  induction steps generalizing A D with
  | nil => exact ⟨A, [], rfl, H, nofun, by simpa [firedAt] using hv, nofun⟩
  | cons s steps ih =>
    obtain ⟨A₁, log₁, h₁, H₁, honce₁, hfired⟩ := H.execStep_interval hms hv hs.1
    have hs₁ := hs.2
    rw [h₁] at hs₁
    rcases hfired with ⟨hf, hv₁⟩ | ⟨now, hf, hdue, hv₁⟩
    all_goals
      obtain ⟨A', log, h', H', honce, hv', hlate⟩ := ih H₁ hv₁ hs₁
      refine ⟨A', log₁ ++ log, by simp [Alarms.execSteps, h₁, h'], H', ?_, ?_⟩
      · intro call hcall
        exact (List.mem_append.1 hcall).elim (honce₁ call) (honce call)
      simp only [firedAt_append, hf]
    · exact ⟨hv', hlate⟩
    · refine ⟨?_, fun k hk => ?_⟩
      · rw [List.length_append, List.length_singleton, Nat.add_mul, Nat.one_mul, ← Nat.add_assoc]
        exact hv'
      · cases k with
        | zero => simpa using hdue
        | succ k =>
          have heq : D + (k + 1) * n.ms.toNat = D + n.ms.toNat + k * n.ms.toNat := by ring
          rw [heq]
          exact hlate k (by simpa using hk)

end Alarms

namespace Timer.Rep

/-- Runs, with any bound on the loops that is large enough. -/
theorem execSteps (steps : List TimerStep) (A : Alarms) :
    ∀ᶠ fuel in atTop, ∀ t : Timer, t.Rep A [] →
      Lockstep (fun s s' => s.1.Rep s'.1 [] ∧ s.2 = s'.2) (Libep.execSteps fuel t steps)
        (A.execSteps steps) := by
  induction steps generalizing A with
  | nil => exact .of_forall fun _ t H => ⟨H, rfl⟩
  | cons s steps ih =>
    have hstep : ∀ᶠ fuel in atTop, ∀ t : Timer, t.Rep A [] →
        Lockstep (fun s s' => s.1.Rep s'.1 [] ∧ s.2 = s'.2) (s.exec fuel t) (A.execStep s) := by
      cases s with
      | call op =>
        filter_upwards [eventually_gt_atTop (A.brk + 1)] with fuel hf t H
        exact (H.exec op hf).bind fun _ _ _ H' => ⟨H', rfl⟩
      | execute now m script =>
        filter_upwards [execute script now m A] with fuel h t H
        refine (h t H).bind fun s A' _ H' => ⟨H'.1, ?_⟩
        rw [H'.2]
    refine Lockstep.eventually_bind (Q := fun t => Timer.Rep t A [])
      (R := fun (s : Timer × TimerLog) (s' : Alarms × TimerLog) => s.1.Rep s'.1 [] ∧ s.2 = s'.2)
      (F := fun fuel t => s.exec fuel t)
      (G := fun fuel s => do
        let s' ← Libep.execSteps fuel s.1 steps
        return (s'.1, s.2 ++ s'.2)) hstep fun r _ => ?_
    filter_upwards [ih r.1] with fuel h s' hs'
    refine (h s'.1 hs'.1).bind fun s'' r' _ H' => ⟨H'.1, ?_⟩
    rw [hs'.2, H'.2]

end Timer.Rep

/-- The run stands at a state where no timer is due at `T`, a time not before `t0` nor before any
execution. -/
structure QuietAt (t0 T : UInt64) (log : TimerLog) (A : Alarms) : Prop where
  start : t0 ≤ T
  latest : ∀ call ∈ log, call.1 ≤ T
  quiet : ∀ e ∈ A.list, T < e.deadline

/-- The laws of the interval `id` with period `p`, created at `t0`, after a run. -/
structure NoDrift (t0 p : UInt64) (id : Nat) (t : Timer) (A : Alarms) (log : TimerLog) : Prop where
  once : ∀ call ∈ log, (call.2.map Firing.id).count id ≤ 1
  late : ∀ k (hk : k < (firedAt id log).length),
    t0.toNat + (k + 1) * p.toNat ≤ ((firedAt id log)[k]).toNat
  listed : t.Listed id
  deadline : (t.sl.node id).score.toNat = t0.toNat + ((firedAt id log).length + 1) * p.toNat
  count : ∀ T, QuietAt t0 T log A → (firedAt id log).length = (T.toNat - t0.toNat) / p.toNat

theorem mem_firedAt {id : Nat} {log : TimerLog} {now : UInt64} (h : now ∈ firedAt id log) :
    ∃ call ∈ log, call.1 = now := by
  obtain ⟨call, hcall, h⟩ := List.mem_flatMap.1 h
  exact ⟨call, hcall, (List.eq_of_mem_replicate h).symm⟩

variable {t : Timer} {A : Alarms} {p : UInt64} {cb arg : Nat}

/-- The laws follow from the deadline of the interval and the bounds on its firings. -/
theorem Timer.Rep.noDrift {x : Nat} {t0 : UInt64} {log : TimerLog} (H : t.Rep A [])
    (honce : ∀ call ∈ log, (call.2.map Firing.id).count x ≤ 1)
    (hv : (⟨⟨p, cb, arg⟩, x,
      .ofNat (t0.toNat + p.toNat + (firedAt x log).length * p.toNat), 0⟩ : Alarm) ∈ A.plain)
    (hlate : ∀ k (hk : k < (firedAt x log).length),
      (.ofNat (t0.toNat + p.toNat + k * p.toNat) : UInt64) ≤ (firedAt x log)[k])
    (hov : t0.toNat + ((firedAt x log).length + 1) * p.toNat < 2 ^ 64) :
    NoDrift t0 p x t A log := by
  have hsum : ∀ k, t0.toNat + p.toNat + k * p.toNat = t0.toNat + (k + 1) * p.toNat := by
    intro k
    ring
  simp only [hsum] at hv hlate
  have hlate' : ∀ k (hk : k < (firedAt x log).length),
      t0.toNat + (k + 1) * p.toNat ≤ ((firedAt x log)[k]).toNat := by
    intro k hk
    have hle := Nat.mul_le_mul_right p.toNat (Nat.succ_le_succ (Nat.le_of_lt hk))
    have := UInt64.le_iff_toNat_le.1 (hlate k hk)
    rwa [UInt64.toNat_ofNat_of_lt' (Nat.lt_of_le_of_lt (Nat.add_le_add_left hle _) hov)] at this
  obtain ⟨hlisted, hscore⟩ := H.of_plain hv
  refine ⟨honce, hlate', hlisted, ?_, fun T hT => ?_⟩
  · rw [hscore]
    exact UInt64.toNat_ofNat_of_lt' hov
  · obtain ⟨e, he, hev⟩ := List.mem_map.1 hv
    have hlt := UInt64.lt_iff_toNat_lt.1 (hT.quiet e he)
    have hd := congrArg Alarm.deadline hev
    rw [show e.deadline = e.plain.deadline from rfl, hd, UInt64.toNat_ofNat_of_lt' hov] at hlt
    -- the last firing was not after `T`, and the next deadline is
    have hlast : t0.toNat + (firedAt x log).length * p.toNat ≤ T.toNat := by
      cases hn : (firedAt x log).length with
      | zero =>
        rw [Nat.zero_mul]
        exact UInt64.le_iff_toNat_le.1 hT.start
      | succ n =>
        have hk : n < (firedAt x log).length := hn ▸ Nat.lt_succ_self n
        obtain ⟨call, hcall, hnow⟩ := mem_firedAt (List.getElem_mem hk)
        have := UInt64.le_iff_toNat_le.1 (hT.latest call hcall)
        rw [hnow] at this
        exact Nat.le_trans (hlate' n hk) this
    symm
    apply Nat.div_eq_of_lt_le
    · omega
    · omega

theorem interval_run (H : A.WF) (hp : 1 ≤ p) {steps : List TimerStep}
    (hs : (A.start false ⟨p, cb, arg⟩ p).SparesRun A.brk steps) :
    ∀ᶠ fuel in atTop, ∀ t₀ : Timer, t₀.Rep (A.start false ⟨p, cb, arg⟩ p) [] →
      ∃ t' log A', execSteps fuel t₀ steps = .ok (t', log) ∧ t'.Rep A' [] ∧
        (A.now.toNat + ((firedAt A.brk log).length + 1) * p.toNat < 2 ^ 64 →
          NoDrift A.now p A.brk t' A' log) := by
  have hv : (⟨⟨p, cb, arg⟩, A.brk, .ofNat (A.now.toNat + p.toNat), 0⟩ : Alarm) ∈
      (A.start false ⟨p, cb, arg⟩ p).plain := by
    rw [UInt64.ofNat_add, UInt64.ofNat_toNat, UInt64.ofNat_toNat]
    exact (Alarms.plain_put ..).2 (.inl rfl)
  have hms : 0 < p := UInt64.lt_iff_toNat_lt.2 (UInt64.le_iff_toNat_le.1 hp)
  obtain ⟨A', log, hrun, -, honce, hv', hlate⟩ :=
    (H.start false ⟨p, cb, arg⟩ p).execSteps_interval (n := ⟨p, cb, arg⟩) hms hv hs
  filter_upwards [Timer.Rep.execSteps steps (A.start false ⟨p, cb, arg⟩ p)] with fuel h t₀ H₀
  obtain ⟨⟨t', log'⟩, hrun', H', rfl⟩ := (h t₀ H₀).exists_ok hrun
  exact ⟨t', _, A', hrun', H', H'.noDrift honce hv' hlate⟩

/-- **Interval timers do not drift**, and after two runs that both end quiet at `T` they have fired
equally often. The runs start when `ep_timer_run_every` returns. -/
theorem interval_no_drift (H : t.Rep A []) (hp : 1 ≤ p) (cb arg : Nat) :
    (∀ steps, (A.start false ⟨p, cb, arg⟩ p).SparesRun A.brk steps →
      ∀ᶠ fuel in atTop, ∃ t₀ t' log A',
        epTimerRunEvery fuel t false p cb arg = .ok (some A.brk, t₀) ∧
        execSteps fuel t₀ steps = .ok (t', log) ∧ t'.Rep A' [] ∧
        (t.now.toNat + ((firedAt A.brk log).length + 1) * p.toNat < 2 ^ 64 →
          NoDrift t.now p A.brk t' A' log)) ∧
    ∀ steps₁ steps₂, (A.start false ⟨p, cb, arg⟩ p).SparesRun A.brk steps₁ →
      (A.start false ⟨p, cb, arg⟩ p).SparesRun A.brk steps₂ →
      ∀ᶠ fuel in atTop, ∃ t₀ t₁ log₁ A₁ t₂ log₂ A₂,
        epTimerRunEvery fuel t false p cb arg = .ok (some A.brk, t₀) ∧
        execSteps fuel t₀ steps₁ = .ok (t₁, log₁) ∧ t₁.Rep A₁ [] ∧
        execSteps fuel t₀ steps₂ = .ok (t₂, log₂) ∧ t₂.Rep A₂ [] ∧
        (t.now.toNat + ((firedAt A.brk log₁).length + 1) * p.toNat < 2 ^ 64 →
          t.now.toNat + ((firedAt A.brk log₂).length + 1) * p.toNat < 2 ^ 64 →
          ∀ T, QuietAt t.now T log₁ A₁ → QuietAt t.now T log₂ A₂ →
            (firedAt A.brk log₁).length = (firedAt A.brk log₂).length) := by
  rw [H.now]
  constructor
  · intro steps hs
    filter_upwards [interval_run H.wf hp hs, eventually_gt_atTop (A.brk + 1)] with fuel h hf
    obtain ⟨t₀, hrun₀, H₀⟩ := H.start false p p cb arg hf
    obtain ⟨t', log, A', h'⟩ := h t₀ H₀
    exact ⟨t₀, t', log, A', hrun₀, h'⟩
  · intro steps₁ steps₂ hs₁ hs₂
    filter_upwards [interval_run H.wf hp hs₁, interval_run H.wf hp hs₂,
      eventually_gt_atTop (A.brk + 1)] with fuel h₁ h₂ hf
    obtain ⟨t₀, hrun₀, H₀⟩ := H.start false p p cb arg hf
    obtain ⟨t₁, log₁, A₁, hrun₁, H₁, hlaws₁⟩ := h₁ t₀ H₀
    obtain ⟨t₂, log₂, A₂, hrun₂, H₂, hlaws₂⟩ := h₂ t₀ H₀
    refine ⟨t₀, t₁, log₁, A₁, t₂, log₂, A₂, hrun₀, hrun₁, H₁, hrun₂, H₂, fun hov₁ hov₂ T hT₁ hT₂ => ?_⟩
    rw [(hlaws₁ hov₁).count T hT₁, (hlaws₂ hov₂).count T hT₂]

/-- A late execution whose callback makes another timer, the clear of that timer, and an execution at
the same time. -/
def lateSteps : List TimerStep :=
  [.execute 12 (-1) fun _ => [.runAfter false 0 9 0], .call (.clear 1), .execute 12 1 fun _ => []]

theorem interval_no_drift_sample :
    ∃ t A, t.Rep A [] ∧ ∀ᶠ fuel in atTop, ∃ t₀ t' log A',
      epTimerRunEvery fuel t false 5 7 0 = .ok (some 0, t₀) ∧
      execSteps fuel t₀ lateSteps = .ok (t', log) ∧ t'.Rep A' [] ∧
      (0 + ((firedAt 0 log).length + 1) * 5 < 2 ^ 64 → NoDrift 0 5 0 t' A' log) := by
  have H : (epTimerInit blank).Rep (.empty 0) [] := .init rfl rfl rfl
  refine ⟨_, _, H, (interval_no_drift H (by decide) 7 0).1 lateSteps ?_⟩
  refine ⟨⟨.inl (by decide), fun id h => ?_⟩, ⟨rfl, by decide⟩, ⟨.inr (by decide), fun id h => ?_⟩,
    trivial⟩
  · obtain ⟨i, -, h⟩ := mem_calls.1 h
    cases h with
    | tail _ h => cases h
  · obtain ⟨i, -, h⟩ := mem_calls.1 h
    cases h

end Libep

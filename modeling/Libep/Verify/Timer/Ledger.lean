import Libep.Verify.Timer.Cut
import Libep.Verify.Timer.Early
import Libep.Verify.Timer.Fini

/-!
# The ledger of the alarms

An alarm that is due when the limit of an execution is used up is off the list and gets no turn. Its name
stays in use until the timer is cleared. The ledger says where the names are that were given out: in the list,
destroyed once, or lost in this way. So `ep_timer_fini` frees all blocks but the lost ones: `timer_blocks`.
-/

namespace Libep
open StableList Filter

/-- The names that are given out by calls have no gaps. -/
theorem exists_created {ops : List TimerOp} {now : UInt64} {brk id : Nat} (hle : brk ≤ id)
    (hlt : id < brk + (created now brk ops).length) : ∃ v ∈ created now brk ops, v.id = id := by
  induction ops generalizing now brk with
  | nil => simp only [created, List.length_nil] at hlt; omega
  | cons op ops ih =>
    simp only [created, List.length_append] at hlt
    rcases Nat.lt_or_ge id (brk + (op.made now brk).length) with hmade | hmade
    · obtain ⟨v, hv⟩ : ∃ v, op.made now brk = [v] ∧ v.id = brk := by
        unfold TimerOp.made at hmade ⊢
        split at hmade
        · exact ⟨_, rfl, rfl⟩
        · exact ⟨_, rfl, rfl⟩
        · simp only [List.length_nil] at hmade; omega
      rw [hv.1, List.length_singleton] at hmade
      exact ⟨v, List.mem_append_left _ (by simp [hv.1]), by omega⟩
    · have hlt' : id < brk + (op.made now brk).length +
          (created (op.nowAfter now) (brk + (op.made now brk).length) ops).length := by omega
      obtain ⟨v, hv, hid⟩ := ih hmade hlt'
      exact ⟨v, List.mem_append_right _ hv, hid⟩

namespace Alarms

/-- The due alarms that a step takes off the list and gives no turn. -/
def cutOff (A : Alarms) : TimerStep → List Nat
  | .call _ => []
  | .execute now m _ => ((A.due now).drop (limit m (A.due now).length)).map Alarm.id

/-- The names that were cut off in a run and not cleared after it; `out` are those before it. -/
def lost : Alarms → List TimerStep → (out : List Nat) → List Nat
  | _, [], out => out
  | A, s :: steps, out =>
    match A.execStep s with
    | .ok (A', _) => lost A' steps ((A.cutOff s ++ out).filter fun id => .clear id ∉ A.stepOps s)
    | .error _ => []

/-- The ledger: a name in use is in the list or one of `out`, and the others were destroyed. -/
structure Ledger (A : Alarms) (out : List Nat) : Prop where
  wf : A.WF
  nodup : (A.ids ++ out).Nodup
  live : ∀ id, A.live id ↔ id ∈ A.ids ∨ id ∈ out
  freed : ∀ id < A.brk, ¬A.live id → id ∈ A.freed

variable {A A' : Alarms} {out : List Nat} {ops : List TimerOp} {es : List Alarm} {s : TimerStep}
  {steps : List TimerStep} {log : TimerLog} {id : Nat}

namespace Ledger

theorem empty (now : UInt64) : (empty now).Ledger [] :=
  ⟨.empty now, .nil, fun id => by simp [Alarms.empty, ids], fun id h => absurd h (Nat.not_lt_zero id)⟩

theorem out_lt (H : A.Ledger out) (hid : id ∈ out) : id < A.brk := H.wf.lt id ((H.live id).2 (.inr hid))

theorem notMem_ids (H : A.Ledger out) (hid : id ∈ out) : id ∉ A.ids := fun h =>
  (List.nodup_append.1 H.nodup).2.2 id h id hid rfl

/-- Off the list with the due alarms. -/
theorem detach (H : A.Ledger out) (now : UInt64) :
    (A.detach now).Ledger ((A.due now).map Alarm.id ++ out) := by
  have hperm : (A.ids ++ out).Perm ((A.detach now).ids ++ ((A.due now).map Alarm.id ++ out)) := by
    rw [← List.append_assoc]
    refine .append_right _ ?_
    have hsplit : A.due now ++ (A.detach now).list = A.list := upTo_append_above H.wf.sorted now
    have hids := congrArg (List.map Alarm.id) hsplit
    rw [List.map_append] at hids
    rw [ids, ← hids]
    exact List.perm_append_comm
  refine ⟨H.wf.detach now, hperm.nodup_iff.1 H.nodup, fun id => ?_, H.freed⟩
  have := hperm.mem_iff (a := id)
  rw [List.mem_append, List.mem_append (s := (A.detach now).ids)] at this
  exact (H.live id).trans this

/-- After calls and the turns of the alarms `es`. -/
theorem effect (H : A.Ledger (es.map Alarm.id ++ out)) (E : Effect A ops es A') :
    A'.Ledger (out.filter fun id => .clear id ∉ ops) := by
  have hout : ∀ id ∈ out, A.live id ∧ A.Detached id ∧ id ∉ es.map Alarm.id := fun id hid => by
    have hmem : id ∈ es.map Alarm.id ++ out := List.mem_append_right _ hid
    refine ⟨(H.live id).2 (.inr hmem), ⟨H.out_lt hmem, H.notMem_ids hmem⟩, fun h => ?_⟩
    exact (List.nodup_append.1 (List.nodup_append.1 H.nodup).2.1).2.2 id h id hid rfl
  have hlisted : ∀ v, v ∈ A'.plain → v.id ∈ A'.ids := fun v hv => mem_ids_iff_plain.2 ⟨v, hv, rfl⟩
  -- a new name is that of an alarm in the list, or it was cleared at once
  have hnew : ∀ id < A'.brk, ¬id < A.brk → id ∈ A'.ids ∨ .clear id ∈ ops := fun id hlt hge => by
    obtain ⟨v, hv, rfl⟩ := exists_created (Nat.le_of_not_lt hge) (E.brk ▸ hlt)
    by_cases hc : .clear v.id ∈ ops
    · exact .inr hc
    · exact .inl (hlisted v ((E.plain v).2 ⟨hc, .inr (.inl hv)⟩))
  have hids : ∀ id ∈ A'.ids, A'.live id := fun id h => by
    obtain ⟨e, he, rfl⟩ := List.mem_map.1 h
    exact E.wf.live e he
  refine ⟨E.wf, ?_, fun id => ⟨fun hl => ?_, ?_⟩, fun id hlt hdead => ?_⟩
  · refine List.nodup_append.2 ⟨E.wf.nodup, ?_, ?_⟩
    · exact (List.nodup_append.1 (List.nodup_append.1 H.nodup).2.1).2.1.filter _
    · rintro id hid _ hid' rfl
      obtain ⟨-, hdet, hes⟩ := hout id (List.mem_of_mem_filter hid')
      exact (E.detached hdet hes).2 hid
  · by_cases hlt : id < A.brk
    · obtain ⟨hl, hc, hturn⟩ := (E.live id hlt).1 hl
      rcases (H.live id).1 hl with h | h
      · obtain ⟨v, hv, rfl⟩ := mem_ids_iff_plain.1 h
        exact .inl (hlisted v ((E.plain v).2 ⟨hc, .inl hv⟩))
      rcases List.mem_append.1 h with h | h
      · obtain ⟨e, he, rfl⟩ := List.mem_map.1 h
        have hms : 0 < e.ms := UInt64.pos_iff_ne_zero.2 fun h => hturn e he h rfl
        exact .inl (hlisted e.next ((E.plain _).2 ⟨hc, .inr (.inr ⟨e, he, hms, rfl⟩)⟩))
      · exact .inr (List.mem_filter.2 ⟨h, by simpa using hc⟩)
    · refine .inl ((hnew id (E.wf.lt id hl) hlt).resolve_right fun hc => ?_)
      rw [(E.cleared id hc).2] at hl
      cases hl
  · rintro (h | h)
    · exact hids id h
    · obtain ⟨h, hc⟩ := List.mem_filter.1 h
      obtain ⟨hl, hdet, hes⟩ := hout id h
      exact (E.live id hdet.1).2
        ⟨hl, by simpa using hc, fun e he _ hid => hes (hid ▸ List.mem_map_of_mem he)⟩
  · rw [E.freed]
    by_cases hlt' : id < A.brk
    · by_contra hnot
      rw [not_or, not_or] at hnot
      obtain ⟨hfreed, hc, hturn⟩ := hnot
      have hl : A.live id := by
        by_contra hl
        exact hfreed (H.freed id hlt' hl)
      exact hdead ((E.live id hlt').2 ⟨hl, hc, fun e he hms hid => hturn ⟨e, he, hms, hid⟩⟩)
    · exact .inr (.inl ((hnew id hlt hlt').resolve_left fun h => hdead (hids id h)))

theorem execStep (H : A.Ledger out) (h : A.execStep s = .ok (A', log)) :
    A'.Ledger ((A.cutOff s ++ out).filter fun id => .clear id ∉ A.stepOps s) := by
  cases s with
  | call op =>
    obtain ⟨A₁, hexec, h⟩ := Res.bind_eq_ok.1 h
    cases h
    exact effect H (H.wf.effect_exec hexec)
  | execute now m script =>
    obtain ⟨A₁, hexec, h⟩ := Res.bind_eq_ok.1 h
    cases h
    have hsplit : A.batch now m ++ (A.due now).drop (limit m (A.due now).length) = A.due now :=
      List.take_append_drop ..
    have H₁ := H.detach now
    rw [← hsplit, List.map_append, List.append_assoc] at H₁
    exact H₁.effect (H.wf.effect_execute hexec)

theorem execSteps (H : A.Ledger out) (h : A.execSteps steps = .ok (A', log)) :
    A'.Ledger (A.lost steps out) := by
  induction steps generalizing A out log with
  | nil => cases h; exact H
  | cons s steps ih =>
    obtain ⟨⟨A₁, log₁⟩, h₁, h⟩ := Res.bind_eq_ok.1 h
    obtain ⟨⟨A₂, log₂⟩, h₂, h⟩ := Res.bind_eq_ok.1 h
    cases h
    have := ih (H.execStep h₁) h₂
    rwa [lost, h₁]

/-- An execution without limit cuts nothing off. -/
theorem cutOff_eq_nil {now : UInt64} {m : Int32} {script : Nat → List TimerOp} (h : A.Unlimited now m) :
    A.cutOff (.execute now m script) = [] := by
  have hsplit : A.batch now m ++ (A.due now).drop (limit m (A.due now).length) = A.due now :=
    List.take_append_drop ..
  rw [unlimited_iff.1 h, List.append_right_eq_self] at hsplit
  rw [cutOff, hsplit, List.map_nil]

/-- Steps take no name back. -/
theorem brk_le (H : A.WF) (h : A.execStep s = .ok (A', log)) : A'.WF ∧ A.brk ≤ A'.brk := by
  cases s with
  | call op =>
    obtain ⟨A₁, hexec, h⟩ := Res.bind_eq_ok.1 h
    cases h
    exact ⟨(H.effect_exec hexec).wf, (H.effect_exec hexec).brk_le⟩
  | execute now m script =>
    obtain ⟨A₁, hexec, h⟩ := Res.bind_eq_ok.1 h
    cases h
    exact ⟨(H.effect_execute hexec).wf, (H.effect_execute hexec).brk_le⟩

/-- Nothing is lost if there are never more timers than an execution has turns. -/
theorem lost_eq_nil {n : Nat} (H : A.WF) (h : A.execSteps steps = .ok (A', log))
    (hsteps : ∀ now m script, .execute now m script ∈ steps → n ≤ m.toInt.toNat) (hbrk : A'.brk ≤ n) :
    A.brk ≤ n ∧ A.lost steps [] = [] := by
  induction steps generalizing A log with
  | nil => cases h; exact ⟨hbrk, rfl⟩
  | cons s steps ih =>
    obtain ⟨⟨A₁, log₁⟩, h₁, h⟩ := Res.bind_eq_ok.1 h
    obtain ⟨⟨A₂, log₂⟩, h₂, h⟩ := Res.bind_eq_ok.1 h
    cases h
    obtain ⟨H₁, hle⟩ := brk_le H h₁
    obtain ⟨hbrk₁, hlost⟩ := ih H₁ h₂ fun now m script hmem => hsteps now m script (List.mem_cons_of_mem _ hmem)
    have hbrk' : A.brk ≤ n := Nat.le_trans hle hbrk₁
    have hcut : A.cutOff s = [] := by
      cases s with
      | call op => rfl
      | execute now m script =>
        have hdue : (A.due now).length ≤ A.list.length := List.length_filter_le ..
        have := hsteps now m script List.mem_cons_self
        have := H.length_le
        exact cutOff_eq_nil (.inr (by omega))
    refine ⟨hbrk', ?_⟩
    rw [lost, h₁, hcut]
    exact hlost

/-- All names that were given out. -/
theorem perm_range (H : A.Ledger out) : (A.freed ++ A.ids ++ out).Perm (List.range A.brk) := by
  have hdead : ∀ id ∈ A.freed, ∀ id' ∈ A.ids ++ out, id ≠ id' := fun id h id' h' e => by
    have hl := (H.live id').2 (List.mem_append.1 h')
    rw [← e, H.wf.freed_dead id h] at hl
    cases hl
  rw [List.append_assoc]
  refine (List.perm_ext_iff_of_nodup (List.nodup_append.2 ⟨H.wf.freed_nodup, H.nodup, hdead⟩)
    List.nodup_range).2 fun id => ?_
  rw [List.mem_append, List.mem_append, ← H.live, List.mem_range]
  exact ⟨fun h => h.elim (H.wf.freed_lt id) (H.wf.lt id), fun hlt =>
    or_iff_not_imp_right.2 fun hl => H.freed id hlt hl⟩

end Ledger

end Alarms

variable {t t' : Timer} {A : Alarms} {fuel : Nat} {steps : List TimerStep} {log : TimerLog}

/-- A run of the timer that has a result is one of the alarms, whatever the bound on its loops was. -/
theorem Timer.Rep.execSteps_ok (H : t.Rep A []) (h : Libep.execSteps fuel t steps = .ok (t', log)) :
    ∃ A', A.execSteps steps = .ok (A', log) ∧ t'.Rep A' [] := by
  obtain ⟨fuel', hstep, hle⟩ := ((Timer.Rep.execSteps steps A).and (eventually_ge_atTop fuel)).exists
  have hlock := hstep t H
  rw [(execSteps_cut hle).eq_ok h] at hlock
  cases hA : A.execSteps steps with
  | error e => cases hlock.eq_error hA
  | ok r =>
    obtain ⟨A', log'⟩ := r
    obtain ⟨r', hr', H', hlog⟩ := hlock.exists_ok hA
    cases hr'
    cases hlog
    exact ⟨A', rfl, H'⟩

/-- What `ep_timer_fini` leaves of a timer whose ledger has the lost names `out`. -/
theorem Timer.Rep.fini_ledger {out : List Nat} (H : t.Rep A []) (HA : A.Ledger out) (hfuel : A.brk < fuel) :
    ∃ t', epTimerFini fuel t = .ok t' ∧ (t'.freed ++ out).Perm (List.range t.brk) ∧
      ∀ id, t'.sl.live id ↔ id ∈ out := by
  obtain ⟨t', hrun, hfreed, -, hlive⟩ := H.fini hfuel
  refine ⟨t', hrun, ?_, fun id => ?_⟩
  · rw [hfreed, H.brk]
    exact HA.perm_range
  · rw [hlive, Bool.and_eq_true, HA.live, decide_eq_true_eq]
    exact ⟨fun h => h.1.resolve_left h.2, fun h => ⟨.inr h, HA.notMem_ids h⟩⟩

/-- **The blocks of the timers.** In a run from `ep_timer_init` to `ep_timer_fini` every block that was
allocated is freed once, but for those of the timers that were due when the limit of an execution was used up
and that nobody cleared afterwards: these are never freed. -/
theorem timer_blocks (hlive : t.sl.live = fun _ => false) (hbrk : t.brk = 0) (hfreed : t.freed = [])
    (hrun : execSteps fuel (epTimerInit t) steps = .ok (t', log)) :
    ∀ᶠ fuel' in atTop, ∃ t'', epTimerFini fuel' t' = .ok t'' ∧
      (t''.freed ++ (Alarms.empty t.now).lost steps []).Perm (List.range t'.brk) ∧
      ∀ id, t''.sl.live id ↔ id ∈ (Alarms.empty t.now).lost steps [] := by
  have H : (epTimerInit t).Rep (.empty t.now) [] := .init hlive hbrk hfreed
  obtain ⟨A', hA, H'⟩ := H.execSteps_ok hrun
  have HA := (Alarms.Ledger.empty t.now).execSteps hA
  filter_upwards [eventually_gt_atTop A'.brk] with fuel' hfuel
  exact H'.fini_ledger HA hfuel

/-- Three timers are due when two may have a turn; the first turn makes another timer. -/
def cutSteps : List TimerStep :=
  [.call (.runAfter false 0 7 0), .call (.runEvery false 4 8 0), .call (.runAfter false 0 9 0),
    .execute 5 2 fun _ => [.runAfter false 3 6 0]]

theorem timer_blocks_cut :
    ∃ t' log, execSteps 8 (epTimerInit blank) cutSteps = .ok (t', log) ∧ t'.brk = 5 ∧
      ∀ᶠ fuel' in atTop, ∃ t'', epTimerFini fuel' t' = .ok t'' ∧ (t''.freed ++ [1]).Perm (List.range t'.brk) ∧
        ∀ id, t''.sl.live id ↔ id ∈ [1] :=
  ⟨_, _, rfl, rfl, @timer_blocks blank _ 8 cutSteps _ rfl rfl rfl rfl⟩

end Libep

import Libep.Theory.Alarms

/-!
# What calls and turns do to the alarms

`Effect A ops es A'` is all that matters of a run from `A` to `A'` in which the calls `ops` were made
and the alarms `es` had their turns. It is proved once for a call and once for the end of a turn, and
composed; every law of `execute` is read off it.
-/

namespace Libep
open StableList

namespace Alarm

/-- The alarm without its stamp. -/
def plain (e : Alarm) : Alarm := { e with stamp := 0 }

/-- The alarm after its turn, when it is an interval. -/
def next (e : Alarm) : Alarm := ⟨e.toTimerNode, e.id, e.deadline + e.ms, 0⟩

@[simp] theorem plain_id (e : Alarm) : e.plain.id = e.id := rfl

@[simp] theorem next_id (e : Alarm) : e.next.id = e.id := rfl

end Alarm

namespace TimerOp

/-- The clock after a call. -/
def nowAfter (now : UInt64) : TimerOp → UInt64
  | .updatetime tv => tv.ms
  | _ => now

/-- The timers a call creates, at the time `now`, when `brk` is the next name. -/
def made (now : UInt64) (brk : Nat) : TimerOp → List Alarm
  | .runAfter false ms cb arg => [⟨⟨0, cb, arg⟩, brk, now + ms, 0⟩]
  | .runEvery false ms cb arg => [⟨⟨ms, cb, arg⟩, brk, now + ms, 0⟩]
  | _ => []

end TimerOp

/-- The clock after calls. -/
def nowAfter (now : UInt64) (ops : List TimerOp) : UInt64 := ops.foldl TimerOp.nowAfter now

/-- The timers calls create. -/
def created (now : UInt64) (brk : Nat) : List TimerOp → List Alarm
  | [] => []
  | op :: ops =>
    op.made now brk ++ created (op.nowAfter now) (brk + (op.made now brk).length) ops

/-- The calls of `n` callbacks, the first of them the `k`-th. -/
def calls (script : Nat → List TimerOp) : (k n : Nat) → List TimerOp
  | _, 0 => []
  | k, n + 1 => script k ++ calls script (k + 1) n

theorem mem_calls {script : Nat → List TimerOp} {op : TimerOp} {k n : Nat} :
    op ∈ calls script k n ↔ ∃ i < n, op ∈ script (k + i) := by
  induction n generalizing k with
  | zero => simp [calls]
  | succ n ih =>
    simp only [calls, List.mem_append, ih]
    constructor
    · rintro (h | ⟨i, hi, h⟩)
      · exact ⟨0, Nat.succ_pos n, h⟩
      · exact ⟨i + 1, Nat.succ_lt_succ hi, by rwa [Nat.add_right_comm] at h⟩
    · rintro ⟨i, hi, h⟩
      cases i with
      | zero => exact .inl h
      | succ i => exact .inr ⟨i, Nat.lt_of_succ_lt_succ hi, by rwa [Nat.add_right_comm]⟩

theorem le_of_mem_made {now : UInt64} {brk : Nat} {op : TimerOp} {v : Alarm}
    (h : v ∈ op.made now brk) : brk ≤ v.id := by
  unfold TimerOp.made at h
  split at h <;> simp at h <;> simp [h]

theorem le_of_mem_created {ops : List TimerOp} {now : UInt64} {brk : Nat} {v : Alarm}
    (h : v ∈ created now brk ops) : brk ≤ v.id := by
  induction ops generalizing now brk with
  | nil => cases h
  | cons op ops ih =>
    rcases List.mem_append.1 h with h | h
    · exact le_of_mem_made h
    · exact Nat.le_trans (Nat.le_add_right ..) (ih h)

theorem created_append {ops ops' : List TimerOp} {now : UInt64} {brk : Nat} :
    created now brk (ops ++ ops') = created now brk ops ++
      created (nowAfter now ops) (brk + (created now brk ops).length) ops' := by
  induction ops generalizing now brk with
  | nil => rfl
  | cons op ops ih =>
    simp only [List.cons_append, created, ih, List.append_assoc, List.length_append, Nat.add_assoc]
    rfl

namespace Alarms

def plain (A : Alarms) : List Alarm := A.list.map Alarm.plain

/-- From `A` to `A'` the calls `ops` were made and the alarms `es` had their turns. -/
structure Effect (A : Alarms) (ops : List TimerOp) (es : List Alarm) (A' : Alarms) : Prop where
  wf : A'.WF
  now : A'.now = nowAfter A.now ops
  brk : A'.brk = A.brk + (created A.now A.brk ops).length
  plain : ∀ v, v ∈ A'.plain ↔ .clear v.id ∉ ops ∧
    (v ∈ A.plain ∨ v ∈ created A.now A.brk ops ∨ ∃ e ∈ es, 0 < e.ms ∧ v = e.next)
  live : ∀ id < A.brk, A'.live id ↔
    A.live id ∧ .clear id ∉ ops ∧ ∀ e ∈ es, e.ms = 0 → e.id ≠ id
  cleared : ∀ id, .clear id ∈ ops → id < A'.brk ∧ A'.live id = false
  turn : ∀ e ∈ es, A.live e.id
  freed : ∀ id, id ∈ A'.freed ↔
    id ∈ A.freed ∨ .clear id ∈ ops ∨ ∃ e ∈ es, e.ms = 0 ∧ e.id = id

variable {A A' A'' : Alarms} {id : Nat} {op : TimerOp} {ops ops' : List TimerOp}
variable {e : Alarm} {es es' : List Alarm} {script : Nat → List TimerOp} {k : Nat}

theorem mem_ids_iff_plain : id ∈ A.ids ↔ ∃ v ∈ A.plain, v.id = id := by
  simp [ids, plain]

namespace Effect

theorem brk_le (H : Effect A ops es A') : A.brk ≤ A'.brk := H.brk ▸ Nat.le_add_right ..

/-- A name off the list stays off it but for a turn. -/
theorem detached (H : Effect A ops es A') (hid : A.Detached id) (hes : id ∉ es.map Alarm.id) :
    A'.Detached id := by
  refine ⟨Nat.lt_of_lt_of_le hid.1 H.brk_le, fun h => ?_⟩
  obtain ⟨v, hv, rfl⟩ := mem_ids_iff_plain.1 h
  obtain ⟨-, hv | hv | ⟨e, he, -, rfl⟩⟩ := (H.plain v).1 hv
  · exact hid.2 (mem_ids_iff_plain.2 ⟨v, hv, rfl⟩)
  · exact absurd hid.1 (Nat.not_lt.2 (le_of_mem_created hv))
  · exact hes (List.mem_map.2 ⟨e, he, rfl⟩)

theorem trans (H : Effect A ops es A') (H' : Effect A' ops' es' A'')
    (hes : ∀ e ∈ es', e.id < A.brk) : Effect A (ops ++ ops') (es ++ es') A'' := by
  have hcreated : created A.now A.brk (ops ++ ops') =
      created A.now A.brk ops ++ created A'.now A'.brk ops' := by
    rw [created_append, H.now, H.brk]
  have hturn : ∀ e ∈ es', .clear e.id ∉ ops ∧ A.live e.id := by
    intro e he
    have := (H.live _ (hes e he)).1 (H'.turn e he)
    exact ⟨this.2.1, this.1⟩
  refine ⟨H'.wf, ?_, ?_, fun v => ?_, fun id hid => ?_, fun id h => ?_, fun e he => ?_,
    fun id => ?_⟩
  · rw [H'.now, H.now, nowAfter, nowAfter, nowAfter, List.foldl_append]
  · rw [H'.brk, H.brk, created_append, List.length_append, Nat.add_assoc, H.now]
  · rw [H'.plain, H.plain, hcreated]
    -- what is new after `ops` was not cleared by `ops`
    have h1 : v ∈ created A'.now A'.brk ops' → .clear v.id ∉ ops := fun h hc =>
      absurd (H.cleared _ hc).1 (Nat.not_lt.2 (le_of_mem_created h))
    have h2 : (∃ e ∈ es', 0 < e.ms ∧ v = e.next) → .clear v.id ∉ ops := by
      rintro ⟨e, he, -, rfl⟩
      exact (hturn e he).1
    simp only [List.mem_append, or_and_right, exists_or]
    grind
  · rw [H'.live id (Nat.lt_of_lt_of_le hid H.brk_le), H.live id hid]
    simp only [List.mem_append, or_imp, forall_and]
    tauto
  · rcases List.mem_append.1 h with h | h
    · obtain ⟨h1, h2⟩ := H.cleared id h
      refine ⟨Nat.lt_of_lt_of_le h1 H'.brk_le, Bool.eq_false_iff.2 fun hl => ?_⟩
      rw [((H'.live id h1).1 hl).1] at h2
      cases h2
    · exact H'.cleared id h
  · rcases List.mem_append.1 he with he | he
    · exact H.turn e he
    · exact (hturn e he).2
  · rw [H'.freed, H.freed]
    simp only [List.mem_append, or_and_right, exists_or, or_assoc]
    exact or_congr_right (or_congr_right or_left_comm)

end Effect

theorem plain_put (n : TimerNode) (id : Nat) (d : UInt64) (v : Alarm) :
    v ∈ (A.put n id d).plain ↔ v = ⟨n, id, d, 0⟩ ∨ v ∈ A.plain := by
  simp [plain, put, Alarm.plain, eq_comm]

namespace WF

theorem effect_nil (H : A.WF) : Effect A [] [] A where
  wf := H
  now := rfl
  brk := rfl
  plain v := by simp [created]
  live id _ := by simp
  cleared id h := nomatch h
  turn e h := nomatch h
  freed id := by simp

/-- A call that touches the clock only. -/
theorem effect_clock (H : A.WF) (op : TimerOp) (hclear : ∀ id, op ≠ .clear id)
    (hmade : op.made A.now A.brk = []) :
    Effect A [op] [] { A with now := op.nowAfter A.now } where
  wf := { H with }
  now := rfl
  brk := by simp [created, hmade]
  plain v := by simp [created, hmade, Ne.symm (hclear _), Alarms.plain]
  live id _ := by simp [Ne.symm (hclear id)]
  cleared id h := absurd (List.mem_singleton.1 h).symm (hclear id)
  turn e h := nomatch h
  freed id := by simp [Ne.symm (hclear id)]

theorem effect_start (H : A.WF) (oom : Bool) (n : TimerNode) (ms : UInt64)
    (hnow : op.nowAfter A.now = A.now) (hclear : ∀ id, op ≠ .clear id)
    (hmade : op.made A.now A.brk = if oom then [] else [⟨n, A.brk, A.now + ms, 0⟩]) :
    Effect A [op] [] (A.start oom n ms) := by
  cases oom with
  | true =>
    have := H.effect_clock op hclear hmade
    rwa [hnow] at this
  | false =>
    have hc : ∀ id, TimerOp.clear id ∉ [op] := fun id h => hclear id (List.mem_singleton.1 h).symm
    refine ⟨H.start false n ms, hnow.symm, ?_, fun v => ?_, fun id hid => ?_,
      fun id h => absurd h (hc id), nofun, fun id => ?_⟩
    · simp [created, hmade, Alarms.start, Alarms.put, Alarms.alloc]
    · have := plain_put (A := A.alloc) n A.brk (A.now + ms) v
      simp only [Alarms.start, Bool.false_eq_true, if_false, this, created, hmade, hc]
      simp [Alarms.plain, Alarms.alloc, or_comm]
    · simp [hc, Alarms.start, Alarms.put, Alarms.alloc, Function.update_of_ne (Nat.ne_of_lt hid)]
    · simp [hc, Alarms.start, Alarms.put, Alarms.alloc]

theorem effect_clear (H : A.WF) (h : A.clear id = .ok A') : Effect A [.clear id] [] A' := by
  have hwf := H.clear h
  obtain ⟨hl, rfl⟩ := free_eq_ok.1 h
  refine ⟨hwf, rfl, rfl, fun v => ?_, fun a _ => ?_, fun a ha => ?_, nofun, fun a => ?_⟩
  · simp only [Alarms.plain, List.mem_map, List.mem_filter, decide_eq_true_eq, List.mem_singleton,
      TimerOp.clear.injEq, created, TimerOp.made, List.append_nil, List.not_mem_nil, false_and,
      exists_false, or_false]
    constructor
    · rintro ⟨e, ⟨he, hne⟩, rfl⟩
      exact ⟨hne, e, he, rfl⟩
    · rintro ⟨hne, e, he, rfl⟩
      exact ⟨e, ⟨he, hne⟩, rfl⟩
  · rcases eq_or_ne a id with rfl | ha
    · simp
    · simp [ha]
  · cases List.mem_singleton.1 ha
    exact ⟨H.lt _ hl, by simp⟩
  · simp

theorem effect_exec (H : A.WF) (h : A.exec op = .ok A') : Effect A [op] [] A' := by
  cases op with
  | updatetime tv => cases h; exact H.effect_clock (.updatetime tv) nofun rfl
  | runAfter oom ms cb arg =>
    cases h
    exact H.effect_start oom _ ms rfl nofun (by cases oom <;> rfl)
  | runEvery oom ms cb arg =>
    cases h
    exact H.effect_start oom _ ms rfl nofun (by cases oom <;> rfl)
  | clear id => exact H.effect_clear h

theorem effect_execOps (H : A.WF) (h : A.execOps ops = .ok A') : Effect A ops [] A' := by
  induction ops generalizing A with
  | nil => cases h; exact H.effect_nil
  | cons op ops ih =>
    obtain ⟨A₁, h₁, h₂⟩ := Res.bind_eq_ok.1 h
    have E := H.effect_exec h₁
    exact E.trans (ih E.wf h₂) nofun

/-- The end of a turn. -/
theorem effect_finish (H : A.WF) (he : e.id ∉ A.ids) (h : A.finish e = .ok A') :
    Effect A [] [e] A' := by
  unfold Alarms.finish at h
  split at h
  · rename_i hl
    split at h
    · rename_i hms
      cases h
      have hms' : e.ms ≠ 0 := ne_of_gt hms
      refine ⟨H.put _ _ hl he, rfl, rfl, fun v => ?_, fun id _ => ?_, nofun, fun e' h => ?_,
        fun id => ?_⟩
      · rw [plain_put]
        simp [created, or_comm, Alarm.next, show 0 < e.ms from hms]
      · simp [hms', Alarms.put]
      · rw [List.mem_singleton.1 h]; exact hl
      · simp [hms', Alarms.put]
    · rename_i hms
      have hwf := H.free he h
      obtain ⟨-, rfl⟩ := free_eq_ok.1 h
      have hms' : e.ms = 0 := by simpa using hms
      refine ⟨hwf, rfl, rfl, fun v => ?_, fun id _ => ?_, nofun, fun e' h => ?_, fun id => ?_⟩
      · simp [created, Alarms.plain, hms']
      · rcases eq_or_ne id e.id with rfl | hid
        · simp [hms']
        · simp [hid, hms', Ne.symm hid]
      · rw [List.mem_singleton.1 h]; exact hl
      · simp [hms', eq_comm]
  · cases h

theorem effect_turn (H : A.WF) (he : A.Detached e.id) (h : A.turn ops e = .ok A') :
    Effect A ops [e] A' := by
  unfold Alarms.turn at h
  split at h
  · obtain ⟨A₁, h₁, h₂⟩ := Res.bind_eq_ok.1 h
    have E := H.effect_execOps h₁
    have := E.trans (E.wf.effect_finish (E.detached he (by simp)).2 h₂) fun e' h => by
      rw [List.mem_singleton.1 h]; exact he.1
    simpa using this
  · cases h

/-- After a turn the other alarms of the batch are off the list, as they were. -/
theorem detached_turn (H : A.WF) (hdet : ∀ e' ∈ e :: es, A.Detached e'.id)
    (hnd : ((e :: es).map Alarm.id).Nodup) (h : A.turn ops e = .ok A') :
    ∀ e' ∈ es, A'.Detached e'.id := by
  intro e' he'
  have hne : e'.id ≠ e.id := fun h =>
    (List.nodup_cons.1 hnd).1 (h ▸ List.mem_map_of_mem he')
  apply (H.effect_turn (hdet e List.mem_cons_self) h).detached (hdet e' (List.mem_cons_of_mem _ he'))
  simpa using hne

theorem effect_turns (H : A.WF) (hdet : ∀ e ∈ es, A.Detached e.id) (hnd : (es.map Alarm.id).Nodup)
    (h : A.turns script k es = .ok A') : Effect A (calls script k es.length) es A' := by
  induction es generalizing A k with
  | nil => cases h; exact H.effect_nil
  | cons e es ih =>
    obtain ⟨A₁, h₁, h₂⟩ := Res.bind_eq_ok.1 h
    have E := H.effect_turn (hdet e List.mem_cons_self) h₁
    have E' := ih E.wf (H.detached_turn hdet hnd h₁) (List.nodup_cons.1 hnd).2 h₂
    exact E.trans E' fun e' he' => (hdet e' (List.mem_cons_of_mem _ he')).1

/-! ### `execute` -/

variable {now : UInt64} {m : Int32}

theorem detach (H : A.WF) (now : UInt64) : (A.detach now).WF := H.sublist List.filter_sublist

theorem nodup_due (H : A.WF) (now : UInt64) : ((A.due now).map Alarm.id).Nodup :=
  H.nodup.sublist (List.filter_sublist.map _)

theorem detached_of_mem_due (H : A.WF) (he : e ∈ A.due now) : (A.detach now).Detached e.id := by
  refine ⟨H.lt _ (H.live e (mem_upTo.1 he).1), fun h => ?_⟩
  obtain ⟨e', he', hid⟩ := List.mem_map.1 h
  obtain rfl := H.eq_of_id_eq (mem_above.1 he').1 (mem_upTo.1 he).1 hid
  exact absurd (mem_above.1 he').2 (not_lt.2 (mem_upTo.1 he).2)

theorem nodup_batch (H : A.WF) (now : UInt64) (m : Int32) :
    ((A.batch now m).map Alarm.id).Nodup :=
  (H.nodup_due now).sublist ((List.take_sublist ..).map _)

theorem effect_execute (H : A.WF) (h : A.execute script now m = .ok A') :
    Effect (A.detach now) (calls script 0 (A.batch now m).length) (A.batch now m) A' :=
  (H.detach now).effect_turns (fun _ he => H.detached_of_mem_due (List.mem_of_mem_take he))
    (H.nodup_batch now m) h

end WF

theorem mem_batch_of_firing (H : A.WF) {now : UInt64} {m : Int32} (he : e ∈ A.list)
    (h : e.firing ∈ (A.batch now m).map Alarm.firing) : e ∈ A.batch now m := by
  obtain ⟨e', he', hf⟩ := List.mem_map.1 h
  have hid : e'.id = e.id := congrArg Firing.id hf
  exact H.eq_of_id_eq (mem_upTo.1 (List.mem_of_mem_take he')).1 he hid ▸ he'

end Alarms

end Libep

import Libep.Theory.Legal
import Libep.Verify.Timer.Execute

/-!
# Executions with a limit

`ep_timer_execute` takes all due timers off the list and may stop before it has put them all back.
With callbacks that leave the timer alone, no timer is lost exactly if the limit does not stop it.
-/

namespace Libep
open Chain SkipList StableList Filter

/-- Callbacks that do not touch the timer. -/
def idle : Nat → List TimerOp := fun _ => []

namespace Alarms
variable {A : Alarms}

theorem calls_idle (k n : Nat) : calls idle k n = [] := by
  induction n generalizing k with
  | zero => rfl
  | succ n ih => exact ih (k + 1)

theorem execute_idle (H : A.WF) (now : UInt64) (m : Int32) :
    ∃ A', A.execute idle now m = .ok A' :=
  H.execute_ok_of_no_clear fun id => by simp [calls_idle]

/-- The limit does not stop the loop. -/
def Unlimited (A : Alarms) (now : UInt64) (m : Int32) : Prop :=
  m < 0 ∨ (A.due now).length ≤ max 1 m.toInt.toNat

instance (A : Alarms) (now : UInt64) (m : Int32) : Decidable (A.Unlimited now m) :=
  inferInstanceAs (Decidable (_ ∨ _))

theorem unlimited_iff {now : UInt64} {m : Int32} :
    A.Unlimited now m ↔ A.batch now m = A.due now := by
  rw [batch, List.take_eq_self_iff, Unlimited, limit]
  split <;> simp_all

end Alarms

/-- After `ep_timer_execute` with callbacks that do nothing, every timer of the list is a one-shot that
was called and destroyed, or is in the list with its old deadline if it was not called, with a
deadline that is advanced in the sense of `adv` if it is an interval that was called. -/
def NoneLost (adv : Alarm → UInt64 → Prop) (t : Timer) (A : Alarms) (now : UInt64) (m : Int32) :
    Prop :=
  ∀ᶠ fuel in atTop, ∃ t' fired,
    epTimerExecute fuel (callScript fuel idle) (t, []) now m = .ok (t', fired) ∧
      ∀ e ∈ A.list,
        (e.ms = 0 ∧ e.firing ∈ fired ∧ e.id ∈ t'.freed) ∨
        (e.firing ∉ fired ∧ t'.Listed e.id ∧ (t'.sl.node e.id).score = e.deadline) ∨
        (0 < e.ms ∧ e.firing ∈ fired ∧ t'.Listed e.id ∧ adv e (t'.sl.node e.id).score)

namespace Timer.Rep
variable {t : Timer} {A : Alarms} {adv : Alarm → UInt64 → Prop}

theorem of_plain {es : List Alarm} (H : t.Rep A es) {v : Alarm} (hv : v ∈ A.plain) :
    t.Listed v.id ∧ (t.sl.node v.id).score = v.deadline := by
  obtain ⟨e, he, rfl⟩ := List.mem_map.1 hv
  exact ⟨H.listed.2 (List.mem_map.2 ⟨e, he, rfl⟩), H.score (e := e) he⟩

theorem noneLost_iff (H : t.Rep A []) (now : UInt64) (m : Int32) :
    NoneLost adv t A now m ↔
      A.Unlimited now m ∧ ∀ e ∈ A.due now, 0 < e.ms → adv e (e.deadline + e.ms) := by
  obtain ⟨A', hA'⟩ := Alarms.execute_idle H.wf now m
  have E := H.wf.effect_execute hA'
  rw [Alarms.calls_idle] at E
  have hbatch := execute idle now m A
  -- what became of the alarms, seen in the memory after the run
  have hnext : ∀ {t' : Timer}, t'.Rep A' [] → ∀ e ∈ A.batch now m, 0 < e.ms →
      t'.Listed e.id ∧ (t'.sl.node e.id).score = e.deadline + e.ms :=
    fun H' e he hms => H'.of_plain ((E.plain e.next).2 ⟨nofun, .inr (.inr ⟨e, he, hms, rfl⟩)⟩)
  rw [Alarms.unlimited_iff]
  constructor
  · intro h
    obtain ⟨fuel, h, hb⟩ := (h.and hbatch).exists
    obtain ⟨⟨t', fired⟩, hrun, H', rfl⟩ := (hb t H).exists_ok hA'
    obtain ⟨t'', fired', hrun', hall⟩ := h
    obtain ⟨rfl, rfl⟩ : t' = t'' ∧ (A.batch now m).map Alarm.firing = fired' := by
      simpa [hrun] using hrun'
    have hmem : ∀ e ∈ A.due now, e ∈ A.batch now m := by
      intro e he
      have heA := (mem_upTo.1 he).1
      rcases hall e heA with ⟨-, hf, -⟩ | ⟨-, hlist, -⟩ | ⟨-, hf, -⟩
      · exact Alarms.mem_batch_of_firing H.wf heA hf
      · -- it was taken off the list, so it is there again for a turn
        by_contra hne
        refine (E.detached (H.wf.detached_of_mem_due he) fun hid => hne ?_).2 (H'.listed.1 hlist)
        obtain ⟨e', he', hid⟩ := List.mem_map.1 hid
        exact H.wf.eq_of_id_eq (mem_upTo.1 (List.mem_of_mem_take he')).1 heA hid ▸ he'
      · exact Alarms.mem_batch_of_firing H.wf heA hf
    refine ⟨?_, fun e he hms => ?_⟩
    · apply (List.take_sublist ..).eq_of_length_le
      exact (List.subperm_of_subset (H.wf.nodup_due now).of_map fun e he => hmem e he).length_le
    · have hf := List.mem_map_of_mem (f := Alarm.firing) (hmem e he)
      rcases hall e (mem_upTo.1 he).1 with ⟨h0, -, -⟩ | ⟨hf', -, -⟩ | ⟨-, -, -, hadv⟩
      · exact absurd h0 (ne_of_gt hms)
      · exact absurd hf hf'
      · rwa [(hnext H' e (hmem e he) hms).2] at hadv
  · rintro ⟨hdue, hadv⟩
    filter_upwards [hbatch] with fuel hb
    obtain ⟨⟨t', fired⟩, hrun, H', rfl⟩ := (hb t H).exists_ok hA'
    refine ⟨t', _, hrun, fun e he => ?_⟩
    rcases le_or_gt e.deadline now with hd | hd
    · have hmem : e ∈ A.batch now m := by
        rw [hdue]
        exact mem_upTo.2 ⟨he, hd⟩
      have hf := List.mem_map_of_mem (f := Alarm.firing) hmem
      rcases eq_or_lt_of_le (UInt64.zero_le (a := e.ms)) with h0 | hms
      · refine .inl ⟨h0.symm, hf, ?_⟩
        rw [H'.freed]
        exact (E.freed e.id).2 (.inr (.inr ⟨e, hmem, h0.symm, rfl⟩))
      · obtain ⟨hl, hs⟩ := hnext H' e hmem hms
        refine .inr (.inr ⟨hms, hf, hl, ?_⟩)
        rw [hs]
        exact hadv e (mem_upTo.2 ⟨he, hd⟩) hms
    · refine .inr (.inl ⟨fun hf => ?_, H'.of_plain (v := e.plain) ((E.plain e.plain).2 ?_)⟩)
      · have := Alarms.mem_batch_of_firing H.wf he hf
        exact absurd (mem_upTo.1 (List.mem_of_mem_take this)).2 (not_le.2 hd)
      · exact ⟨nofun, .inl (List.mem_map_of_mem (mem_above.2 ⟨he, hd⟩))⟩

end Timer.Rep

variable {t : Timer} {A : Alarms}

/-- **No timer is lost exactly if the limit does not stop the loop.** The deadline of an interval that
was called is the `uint64_t` sum with its period; it is the sum of the numbers exactly if there is no
overflow. -/
theorem execute_none_lost (H : t.Rep A []) (now : UInt64) (m : Int32) :
    (NoneLost (fun e d => d = e.deadline + e.ms) t A now m ↔ A.Unlimited now m) ∧
    (NoneLost (fun e d => d.toNat = e.deadline.toNat + e.ms.toNat) t A now m ↔
      A.Unlimited now m ∧
        ∀ e ∈ A.due now, 0 < e.ms → e.deadline.toNat + e.ms.toNat < 2 ^ 64) := by
  rw [H.noneLost_iff, H.noneLost_iff]
  refine ⟨and_iff_left fun _ _ _ => rfl, and_congr_right fun _ => ?_⟩
  refine forall_congr' fun e => imp_congr_right fun _ => imp_congr_right fun _ => ?_
  rw [UInt64.toNat_add]
  constructor
  · intro h
    rw [← h]
    exact Nat.mod_lt _ (by decide)
  · exact Nat.mod_eq_of_lt

/-- Memory before the first `malloc`. -/
def blank : Timer where
  sl := ⟨fun _ => none, fun _ => ⟨0, fun _ => none⟩, fun _ => false⟩
  now := 0
  node _ := ⟨0, 0, 0⟩
  brk := 0
  freed := []
  random _ := 0

theorem execOps_blank (ops : List TimerOp) (h : (Alarms.empty 0).execOps ops = .ok A) :
    ∃ t, execOps (ops.length + 2) (epTimerInit blank) ops = .ok t ∧ t.Rep A [] :=
  ((Timer.Rep.init (t := blank) rfl rfl rfl).execOps_of_lt (by simp [Alarms.empty])).exists_ok h

/-- Two one-shots that are due when they are made. -/
def twoTimers : List TimerOp := [.runAfter false 0 7 0, .runAfter false 0 8 0]

theorem execute_none_lost_sample :
    ∃ t A, execOps 4 (epTimerInit blank) twoTimers = .ok t ∧ t.Rep A [] ∧ A.ids = [0, 1] ∧
      NoneLost (fun e d => d = e.deadline + e.ms) t A 0 2 := by
  obtain ⟨t, ht, H⟩ := execOps_blank twoTimers rfl
  exact ⟨t, _, ht, H, rfl, (execute_none_lost H 0 2).1.2 (by decide)⟩

/-- With limit 1 the second of two due timers is neither called nor in the list afterwards. -/
theorem execute_loses_timer :
    ∃ t A, execOps 4 (epTimerInit blank) twoTimers = .ok t ∧ t.Rep A [] ∧ A.ids = [0, 1] ∧
      ¬NoneLost (fun e d => d = e.deadline + e.ms) t A 0 1 := by
  obtain ⟨t, ht, H⟩ := execOps_blank twoTimers rfl
  refine ⟨t, _, ht, H, rfl, fun h => ?_⟩
  exact absurd (H.noneLost_iff 0 1 |>.1 h).1 (by decide)

end Libep

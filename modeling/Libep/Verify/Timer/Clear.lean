import Libep.Verify.Timer.Bounded

/-!
# Clearing timers from callbacks

`ep_timer_clear` does not see the batch that `ep_timer_execute` has taken off the list: it destroys the
block of a timer of the batch, and the loop goes on to use it. Clearing is final exactly if no
callback clears a timer that still has its turn to end.
-/

namespace Libep
open Chain SkipList StableList Filter

/-- The callback in turn may not clear its own timer if that is a one-shot. -/
def MayClear (A : Alarms) (now : UInt64) (k id : Nat) : Prop :=
  ∀ e, (A.due now)[k]? = some e → e.ms = 0 → id ≠ e.id

/-- `ep_timer_execute` returns and accesses no destroyed block on the way; a timer that a callback
cleared is not called any more and not in the list; and the blocks destroyed are those cleared and
those of the one-shots called, each of them once. -/
def ClearFinal (t : Timer) (A : Alarms) (script : Nat → List TimerOp) (now : UInt64) (m : Int32) :
    Prop :=
  ∀ᶠ fuel in atTop, ∃ t' fired,
    epTimerExecute fuel (callScript fuel script) (t, []) now m = .ok (t', fired) ∧
      (∀ i id, i < fired.length → .clear id ∈ script i →
        (∀ f ∈ fired.drop (i + 1), f.id ≠ id) ∧ ¬t'.Listed id) ∧
      t'.freed.Nodup ∧
      ∀ id, id ∈ t'.freed ↔ id ∈ t.freed ∨ (∃ i < fired.length, .clear id ∈ script i) ∨
        ∃ e ∈ A.list, e.ms = 0 ∧ e.firing ∈ fired ∧ e.id = id

namespace Timer.Rep
variable {t : Timer} {A A' : Alarms} {script : Nat → List TimerOp} {now : UInt64} {m : Int32}

/-- A run without a fault does all that `ClearFinal` asks for. -/
theorem clearFinal (H : t.Rep A []) (hA' : A.execute script now m = .ok A') :
    ClearFinal t A script now m := by
  have E := H.wf.effect_execute hA'
  filter_upwards [execute script now m A] with fuel hb
  obtain ⟨⟨t', fired⟩, hrun, H', rfl⟩ := (hb t H).exists_ok hA'
  refine ⟨t', _, hrun, fun i id hi hc => ⟨fun f hf hid => ?_, fun hl => ?_⟩, ?_, fun id => ?_⟩
  · rw [List.length_map] at hi
    obtain ⟨k, hk⟩ := List.mem_iff_getElem?.1 hf
    rw [List.getElem?_drop, List.getElem?_map] at hk
    obtain ⟨e, he, rfl⟩ := Option.map_eq_some_iff.1 hk
    obtain rfl : e.id = id := hid
    exact H.wf.clear_notMem_of_execute hA' (show i ≤ i + 1 + k by omega) he hc
  · obtain ⟨v, hv, rfl⟩ := Alarms.mem_ids_iff_plain.1 (H'.listed.1 hl)
    exact ((E.plain v).1 hv).1 (mem_calls.2 ⟨i, by simpa using hi, by simpa using hc⟩)
  · rw [H'.freed]
    exact E.wf.freed_nodup
  · rw [H'.freed, E.freed, H.freed, mem_calls, List.length_map]
    simp only [Nat.zero_add]
    refine or_congr_right (or_congr_right ?_)
    constructor
    · rintro ⟨e, he, hms, hid⟩
      exact ⟨e, (mem_upTo.1 (List.mem_of_mem_take he)).1, hms, List.mem_map_of_mem he, hid⟩
    · rintro ⟨e, he, hms, hf, hid⟩
      exact ⟨e, Alarms.mem_batch_of_firing H.wf he hf, hms, hid⟩

/-- A run that ends has cleared no timer up to its turn. -/
theorem clear_notMem_of_clearFinal (H : t.Rep A []) (h : ClearFinal t A script now m) {i j : Nat}
    {e : Alarm} (hij : i ≤ j) (hj : (A.batch now m)[j]? = some e) : .clear e.id ∉ script i := by
  obtain ⟨fuel, ⟨t', fired, hrun, -⟩, hb⟩ := (h.and (execute script now m A)).exists
  obtain ⟨A', hA', -⟩ := (hb t H).exists_ok_right hrun
  exact H.wf.clear_notMem_of_execute hA' hij hj

end Timer.Rep

variable {t : Timer} {A : Alarms} {script : Nat → List TimerOp} {now : UInt64} {m : Int32}

/-- **Clearing is final exactly if no callback clears a timer of the batch that still has its turn to
end**, the one in turn included. -/
theorem clear_final (H : t.Rep A []) (hlegal : A.LegalExecute (MayClear A now) script now m) :
    ClearFinal t A script now m ↔
      ∀ i j e, i ≤ j → (A.batch now m)[j]? = some e → .clear e.id ∉ script i := by
  constructor
  · exact fun h i j e hij hj => H.clear_notMem_of_clearFinal h hij hj
  · intro h
    obtain ⟨A', hA'⟩ := H.wf.execute_ok hlegal fun i j e hij hj hc => absurd hc (h i j e hij hj)
    exact H.clearFinal hA'

/-- An interval and a one-shot, due at 5 and 9. -/
def twoDeadlines : List TimerOp := [.runEvery false 5 7 0, .runAfter false 9 8 0]

/-- The callback of the interval clears the one-shot, which is not due. -/
theorem clear_final_sample :
    ∃ t A, execOps 4 (epTimerInit blank) twoDeadlines = .ok t ∧ t.Rep A [] ∧
      ClearFinal t A (fun _ => [.clear 1]) 5 (-1) := by
  obtain ⟨t, ht, H⟩ := execOps_blank twoDeadlines rfl
  refine ⟨t, _, ht, H, (clear_final H ?_).2 ?_⟩
  · refine ⟨⟨⟨rfl, ?_⟩, trivial⟩, trivial⟩
    intro e he h0
    cases he
    cases h0
  · intro i j e hij hj
    cases j with
    | zero => cases hj; decide
    | succ j => cases hj

/-- The callback of an interval clears the interval: `ep_timer_execute` reads the period of the
destroyed block. -/
theorem clear_own_interval :
    ∃ t A, execOps 4 (epTimerInit blank) twoDeadlines = .ok t ∧ t.Rep A [] ∧
      A.LegalExecute (MayClear A 5) (fun _ => [.clear 0]) 5 (-1) ∧
      (∀ᶠ fuel in atTop, epTimerExecute fuel (callScript fuel fun _ => [.clear 0]) (t, []) 5 (-1) =
        .error .invalid) ∧
      ¬ClearFinal t A (fun _ => [.clear 0]) 5 (-1) := by
  obtain ⟨t, ht, H⟩ := execOps_blank twoDeadlines rfl
  refine ⟨t, _, ht, H, ?_, ?_, fun h => ?_⟩
  · refine ⟨⟨⟨rfl, ?_⟩, trivial⟩, trivial⟩
    intro e he h0
    cases he
    cases h0
  · filter_upwards [Timer.Rep.execute (fun _ => [.clear 0]) 5 (-1) _] with fuel hb
    exact (hb t H).eq_error rfl
  · exact H.clear_notMem_of_clearFinal h (Nat.le_refl 0) rfl List.mem_cons_self

end Libep

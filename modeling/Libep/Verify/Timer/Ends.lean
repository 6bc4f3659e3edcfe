import Libep.Theory.Legal
import Libep.Verify.Timer.Cut
import Libep.Verify.Timer.Execute

/-!
# The timers under any callbacks

`ServesExecute` says what `ep_timer_execute` needs of the callbacks it makes; they may use anything else, and
may clear every timer that is in the list. With such callbacks no call reads or frees a block that is not
allocated, whatever the bound on the loops is.
-/

namespace Libep
open Chain SkipList StableList

variable {W : Type} {E : Fault → Prop} {t t' : Timer} {A A' : Alarms} {es : List Alarm} {e : Alarm}
  {fuel : Nat}

/-- A call that clears no timer but one of the list. -/
def TimerOp.Legal (t : Timer) : TimerOp → Prop
  | .clear id => t.Listed id
  | _ => True

/-- The alarms `es` are allocated, unless the faults `E` excuse that they are not. -/
def Spared (E : Fault → Prop) (A : Alarms) (es : List Alarm) : Prop :=
  E .invalid ∨ ∀ e ∈ es, A.live e.id

namespace Timer.Rep

/-- A call that clears no timer of the batch. -/
theorem exec_ends (op : TimerOp) (hE : E .fuel) (H : t.Rep A es) (hes : Spared E A es)
    (hop : E .invalid ∨ op.Legal t) :
    Ends E (op.exec fuel t) fun t' => ∃ A', t'.Rep A' es ∧ Spared E A' es := by
  have hfuel : A.brk + 1 < max fuel (A.brk + 2) := Nat.lt_of_lt_of_le (Nat.lt_succ_self _) (Nat.le_max_right _ _)
  have hstep := H.exec op hfuel
  refine (op.exec_cut (Nat.le_max_left fuel _)).ends hE ((hstep.ends fun x hx => ?_).mono ?_)
  · -- the only fault of a call is the clear of a dead timer
    cases op with
    | clear id =>
      have hdead : ¬A.live id := by
        intro hl
        rw [Alarms.exec, Alarms.clear, Alarms.free, if_pos hl] at hx
        cases hx
      rw [Alarms.exec, Alarms.clear, Alarms.free, if_neg hdead] at hx
      cases hx
      refine hop.resolve_right fun hlisted => hdead ?_
      obtain ⟨e, he, rfl⟩ := List.mem_map.1 (H.listed.1 hlisted)
      exact H.wf.live e he
    | updatetime tv => cases hx
    | runAfter oom ms cb arg => cases hx
    | runEvery oom ms cb arg => cases hx
  · rintro t' - ⟨A', hA', H'⟩
    refine ⟨A', H', ?_⟩
    rcases hop with h | hop
    · exact .inl h
    refine hes.imp_right fun hlive e he => ?_
    have hdet := H.detached e he
    cases op with
    | clear id =>
      obtain ⟨-, rfl⟩ := Alarms.free_eq_ok.1 hA'
      have hne : e.id ≠ id := fun h => hdet.2 (h ▸ H.listed.1 hop)
      exact (Function.update_of_ne hne _ _).trans (hlive e he)
    | updatetime tv =>
      cases hA'
      exact hlive e he
    | runAfter oom ms cb arg | runEvery oom ms cb arg =>
      cases hA'
      cases oom with
      | true => exact hlive e he
      | false => exact (Function.update_of_ne (Nat.ne_of_lt hdet.1) _ _).trans (hlive e he)

/-- What follows the callback of the first alarm of the batch. -/
theorem finish_ends (hE : E .fuel) (H : t.Rep A (e :: es)) (hes : Spared E A (e :: es)) :
    Ends E (rearmOrDestroy fuel t e.id) fun t' => ∃ A', t'.Rep A' es ∧ Spared E A' es := by
  have hfuel : A.brk < max fuel (A.brk + 1) := Nat.lt_of_lt_of_le (Nat.lt_succ_self _) (Nat.le_max_right _ _)
  have hstep := H.finish hfuel
  refine (rearmOrDestroy_cut (Nat.le_max_left fuel _)).ends hE ((hstep.ends fun x hx => ?_).mono ?_)
  · have hdead : ¬A.live e.id := fun hl => by
      obtain ⟨A', h⟩ := Alarms.finish_ok hl
      cases h.symm.trans hx
    rw [Alarms.finish, if_neg hdead] at hx
    cases hx
    exact hes.resolve_right fun h => hdead (h e List.mem_cons_self)
  · rintro t' - ⟨A', hA', H'⟩
    refine ⟨A', H', hes.imp_right fun hlive e' he' => ?_⟩
    have hl := hlive e List.mem_cons_self
    have hl' := hlive e' (List.mem_cons_of_mem _ he')
    rw [Alarms.finish, if_pos hl] at hA'
    split at hA'
    · cases hA'
      exact hl'
    · obtain ⟨-, rfl⟩ := Alarms.free_eq_ok.1 hA'
      have hne : e'.id ≠ e.id := fun h =>
        (List.nodup_cons.1 H.nodup).1 (h ▸ List.mem_map_of_mem he')
      exact (Function.update_of_ne hne _ _).trans hl'

/-- `skiplist_extract_lte` makes the due alarms the batch. -/
theorem detach_ends (hE : E .fuel) (H : t.Rep A []) (now : UInt64) :
    Ends E (skiplistExtractLte timerLevel fuel t.sl now) fun r =>
      r.1 = ((A.due now).map Alarm.id).head? ∧
        { t with sl := r.2 }.Rep (A.detach now) (A.due now) := by
  have hfuel : A.brk < max fuel (A.brk + 1) := Nat.lt_of_lt_of_le (Nat.lt_succ_self _) (Nat.le_max_right _ _)
  obtain ⟨sl, hrun, H'⟩ := H.detach now hfuel
  exact (skiplistExtractLte_cut (Nat.le_max_left fuel _)).ends hE (.of_exists ⟨_, hrun, rfl, H'⟩)

end Timer.Rep

variable {call : Firing → Timer × W → Res (Timer × W)} {I : Timer × W → Prop} {w : W}

/-- What `ep_timer_execute` needs of the callbacks, if `E` are the faults it may have: they keep `I` and the
list with its batch, and do not destroy an alarm of the batch. -/
structure ServesExecute (E : Fault → Prop) (fuel : Nat) (call : Firing → Timer × W → Res (Timer × W))
    (I : Timer × W → Prop) : Prop where
  updatetime : ∀ {t w A tv}, t.Rep A [] → I (t, w) → I (epTimerUpdatetime t tv, w)
  extract : ∀ {t w A now first sl}, t.Rep A [] →
    skiplistExtractLte timerLevel fuel t.sl now = .ok (first, sl) → I (t, w) → I ({ t with sl }, w)
  call : ∀ {t w A es f}, t.Rep A es → Spared E A es → I (t, w) → Ends E (call f (t, w)) fun r =>
    I r ∧ ∃ A', r.1.Rep A' es ∧ Spared E A' es
  finish : ∀ {t w A e es t'}, t.Rep A (e :: es) → Spared E A (e :: es) →
    rearmOrDestroy fuel t e.id = .ok t' → I (t, w) → I (t', w)

theorem executeLoop_ends (hE : E .fuel) (S : ServesExecute E fuel call I) (H : t.Rep A es)
    (hes : Spared E A es) (hI : I (t, w)) {k : Nat} {max_times : Int32} :
    Ends E (executeLoop fuel call k (t, w) (es.map Alarm.id).head? (es.tail.map Alarm.id).head? max_times)
      fun r => I r ∧ ∃ A', r.1.Rep A' [] := by
  induction k generalizing t w A es max_times with
  | zero => exact .error hE
  | succ k ih =>
    cases es with
    | nil => exact .ok ⟨hI, A, H⟩
    | cons e es =>
      simp only [List.map_cons, List.head?_cons, List.tail_cons, executeLoop]
      by_cases hl : t.sl.live e.id
      · rw [Timer.firing, if_pos hl, Res.ok_bind]
        refine (S.call H hes hI).bind ?_
        rintro ⟨t₁, w₁⟩ - ⟨hI₁, A₁, H₁, hes₁⟩
        refine (H₁.finish_ends hE hes₁).bind ?_
        rintro t₂ hrun ⟨A₂, H₂, hes₂⟩
        have hI₂ := S.finish H₁ hes₁ hrun hI₁
        generalize (if max_times ≥ 0 then _ else _ : Int32 × Bool) = left
        obtain ⟨m, stop⟩ := left
        cases stop with
        | true => exact .ok ⟨hI₂, A₂, H₂.forget⟩
        | false =>
          rw [if_neg (by simp), H₂.forwardOrNull]
          split
          · exact ih H₂ hes₂ hI₂
          · next hdead =>
            refine .error (hes₂.resolve_right fun hlive => hdead fun e' he' => ?_)
            exact hlive e' (List.mem_of_mem_head? he')
      · rw [Timer.firing, if_neg hl]
        refine .error (hes.resolve_right fun hlive => hl ?_)
        rw [H.live]
        exact hlive e List.mem_cons_self

/-- `ep_timer_execute`, with the faults `E` at most. -/
theorem epTimerExecute_ends (hE : E .fuel) (S : ServesExecute E fuel call I) (H : t.Rep A [])
    (hI : I (t, w)) {now : UInt64} {max_times : Int32} :
    Ends E (epTimerExecute fuel call (t, w) now max_times) fun r => I r ∧ ∃ A', r.1.Rep A' [] := by
  rw [epTimerExecute]
  refine (H.detach_ends hE now).bind ?_
  rintro ⟨first, sl⟩ hrun ⟨hfirst, H'⟩
  replace hfirst : first = ((A.due now).map Alarm.id).head? := hfirst
  have hlive : ∀ e ∈ A.due now, (A.detach now).live e.id := fun e he => H.wf.live e (mem_upTo.1 he).1
  have hn := H'.forwardOrNull
  rw [if_pos fun e he => hlive e (List.mem_of_mem_head? he), ← hfirst] at hn
  dsimp only
  rw [hn, Res.ok_bind, hfirst]
  exact executeLoop_ends hE S H' (.inr hlive) (S.extract H hrun hI)

/-- `ep_timer_execute_now`, with the faults `E` at most. -/
theorem epTimerExecuteNow_ends (hE : E .fuel) (S : ServesExecute E fuel call I) (H : t.Rep A [])
    (hI : I (t, w)) {tv : Timeval} {limit : Int32} :
    Ends E (epTimerExecuteNow fuel call (t, w) tv limit) fun r => I r ∧ ∃ A', r.1.Rep A' [] := by
  have H' : (epTimerUpdatetime t tv).Rep { A with now := tv.ms } [] :=
    H.exec (.updatetime tv) (Nat.lt_succ_self (A.brk + 1))
  exact epTimerExecute_ends hE S H' (S.updatetime H hI)

end Libep

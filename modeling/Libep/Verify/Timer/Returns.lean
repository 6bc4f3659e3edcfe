import Libep.Verify.Timer.Ends

/-!
# The timers return

A call of the interface returns, and an execution does if its callbacks do: the batch that it works on was taken
off the list before, so what the callbacks start is not in it.
-/

namespace Libep
open Filter
open StableList (mem_upTo)

variable {W : Type} {t : Timer} {A : Alarms} {es : List Alarm} {e : Alarm}

namespace Timer.Rep

theorem exec_returns (H : t.Rep A es) (op : TimerOp) (hop : op.Legal t) :
    Settles atTop fun n => op.exec n t := by
  obtain ⟨A', hA⟩ : ∃ A', A.exec op = .ok A' := by
    cases op with
    | clear id =>
      obtain ⟨e, he, rfl⟩ := List.mem_map.1 (H.listed.1 hop)
      exact ⟨_, if_pos (H.wf.live e he)⟩
    | updatetime | runAfter | runEvery => exact ⟨_, rfl⟩
  obtain ⟨t', ht, -⟩ := (H.exec op (Nat.lt_succ_self (A.brk + 1))).exists_ok hA
  exact .of_cutShort op.exec_cut ht

theorem finish_returns (H : t.Rep A (e :: es)) (hl : A.live e.id) :
    Settles atTop fun n => rearmOrDestroy n t e.id := by
  obtain ⟨A', hA⟩ := Alarms.finish_ok hl
  obtain ⟨t', ht, -⟩ := (H.finish (Nat.lt_succ_self A.brk)).exists_ok hA
  exact .of_cutShort rearmOrDestroy_cut ht

theorem detach_returns (H : t.Rep A []) (now : UInt64) :
    Settles atTop fun n => skiplistExtractLte timerLevel n t.sl now := by
  obtain ⟨sl, hrun, -⟩ := H.detach now (Nat.lt_succ_self A.brk)
  exact .of_cutShort skiplistExtractLte_cut hrun

end Timer.Rep

section
variable {call : Nat → Firing → Timer × W → Res (Timer × W)} {I : Timer × W → Prop} {w : W}

/-- The batch gets shorter with each callback, and the callbacks do not change it. -/
theorem executeLoop_returns (S : ∀ n, ServesExecute (· = .fuel) n (call n) I)
    (hcall : ∀ {t w A es f}, t.Rep A es → (∀ e ∈ es, A.live e.id) → I (t, w) →
      Settles atTop fun n => call n f (t, w))
    (H : t.Rep A es) (hes : ∀ e ∈ es, A.live e.id) (hI : I (t, w)) {max_times : Int32} :
    Settles (atTop ×ˢ atTop) fun p : ℕ × ℕ => executeLoop p.1 (call p.1) p.2 (t, w)
      (es.map Alarm.id).head? (es.tail.map Alarm.id).head? max_times := by
  induction es generalizing t w A max_times with
  | nil => exact .of_succ (.of_eq rfl)
  | cons e es ih =>
    refine .of_succ ?_
    have hl : t.sl.live e.id := by
      rw [H.live]
      exact hes e List.mem_cons_self
    simp only [List.map_cons, List.head?_cons, List.tail_cons, executeLoop, Timer.firing, if_pos hl, Res.ok_bind]
    refine ((hcall H hes hI).comp tendsto_fst).bind ?_
    rintro ⟨t₁, w₁⟩ hrun
    obtain ⟨p, hrun⟩ := hrun.exists
    obtain ⟨hI₁, A₁, H₁, hes₁⟩ := ((S p.1).call H (.inr hes) hI).result hrun
    replace hes₁ := hes₁.resolve_left (by simp)
    refine ((H₁.finish_returns (hes₁ e List.mem_cons_self)).comp tendsto_fst).bind fun t₂ hrun => ?_
    obtain ⟨p, hrun⟩ := hrun.exists
    obtain ⟨A₂, H₂, hes₂⟩ := (H₁.finish_ends rfl (.inr hes₁)).result hrun
    have hI₂ := (S p.1).finish H₁ (.inr hes₁) hrun hI₁
    replace hes₂ := hes₂.resolve_left (by simp)
    generalize (if max_times ≥ 0 then _ else _ : Int32 × Bool) = left
    obtain ⟨m, stop⟩ := left
    cases stop with
    | true => exact .of_eq rfl
    | false =>
      have hn : forwardOrNull t₂ (es.map Alarm.id).head? = .ok (es.tail.map Alarm.id).head? := by
        rw [H₂.forwardOrNull, if_pos fun e' he' => hes₂ e' (List.mem_of_mem_head? he')]
      simp only [Bool.false_eq_true, if_false, hn, Res.ok_bind]
      exact ih H₂ hes₂ hI₂

/-- `ep_timer_execute` returns, if its callbacks do. -/
theorem epTimerExecute_returns (S : ∀ n, ServesExecute (· = .fuel) n (call n) I)
    (hcall : ∀ {t w A es f}, t.Rep A es → (∀ e ∈ es, A.live e.id) → I (t, w) →
      Settles atTop fun n => call n f (t, w))
    (H : t.Rep A []) (hI : I (t, w)) {now : UInt64} {max_times : Int32} :
    Settles atTop fun n => epTimerExecute n (call n) (t, w) now max_times := by
  refine (H.detach_returns now).bind ?_
  rintro ⟨first, sl⟩ hrun
  obtain ⟨n, hrun⟩ := hrun.exists
  obtain ⟨hfirst, H'⟩ := (H.detach_ends rfl now).result hrun
  obtain rfl : first = ((A.due now).map Alarm.id).head? := hfirst
  have hlive : ∀ e ∈ A.due now, (A.detach now).live e.id := fun e he => H.wf.live e (mem_upTo.1 he).1
  have hn := H'.forwardOrNull
  rw [if_pos fun e he => hlive e (List.mem_of_mem_head? he)] at hn
  simp only [hn, Res.ok_bind]
  exact (executeLoop_returns S hcall H' hlive ((S n).extract H hrun hI)).diag

/-- `ep_timer_execute_now` returns, if its callbacks do. -/
theorem epTimerExecuteNow_returns (S : ∀ n, ServesExecute (· = .fuel) n (call n) I)
    (hcall : ∀ {t w A es f}, t.Rep A es → (∀ e ∈ es, A.live e.id) → I (t, w) →
      Settles atTop fun n => call n f (t, w))
    (H : t.Rep A []) (hI : I (t, w)) {tv : Timeval} {limit : Int32} :
    Settles atTop fun n => epTimerExecuteNow n (call n) (t, w) tv limit := by
  have H' : (epTimerUpdatetime t tv).Rep { A with now := tv.ms } [] :=
    H.exec (.updatetime tv) (Nat.lt_succ_self (A.brk + 1))
  exact epTimerExecute_returns S hcall H' ((S 0).updatetime H hI)

end

end Libep

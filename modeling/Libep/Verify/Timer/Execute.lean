import Libep.Theory.Turns
import Libep.Verify.Timer.Rep

/-!
# `ep_timer_execute` gives the alarms of a batch their turns

The loop under `skiplist_shift_lte` runs in lockstep with `Alarms.turns`: both fault at the same
callback, or both end, with the same callbacks made. The invariant of the loop is `Timer.Rep` with
the rest of the batch; the link cached in `n` is the head of the rest after the current one.
-/

namespace Libep
open Chain SkipList StableList Filter

namespace Alarms
variable {m : Int32} {n : Nat}

@[simp] theorem limit_zero : limit m 0 = 0 := by simp [limit]

theorem limit_of_neg (h : m < 0) : limit m n = n := if_pos h

theorem limit_pos : 0 < limit m (n + 1) := by
  unfold limit
  split <;> omega

/-- The limit after one more turn that does not stop. -/
theorem limit_succ_of_neg (h : ¬m ≥ 0) : limit m (n + 1) = limit m n + 1 := by
  rw [limit_of_neg (Int32.not_le.1 h), limit_of_neg (Int32.not_le.1 h)]

private theorem toInt_pred (h : m ≥ 0) : (m - 1).toInt = m.toInt - 1 := by
  have h0 : (0 : Int) ≤ m.toInt := by simpa using Int32.le_iff_toInt_le.1 h
  have h1 := Int32.toInt_lt m
  rw [Int32.toInt_sub, Int.bmod_eq_of_le] <;> simp <;> omega

theorem limit_succ_of_stop (h : m ≥ 0) (h' : m - 1 ≤ 0) : limit m (n + 1) = 1 := by
  have h1 : (m - 1).toInt ≤ 0 := by simpa using Int32.le_iff_toInt_le.1 h'
  rw [toInt_pred h] at h1
  rw [limit, if_neg (Int32.not_lt.2 h)]
  omega

theorem limit_succ_of_go (h : m ≥ 0) (h' : ¬m - 1 ≤ 0) :
    limit m (n + 1) = limit (m - 1) n + 1 := by
  have h1 : 0 < (m - 1).toInt := by simpa using Int32.lt_iff_toInt_lt.1 (Int32.not_le.1 h')
  have h2 : 0 ≤ m - 1 := Int32.le_of_lt (Int32.not_le.1 h')
  rw [limit, if_neg (Int32.not_lt.2 h), limit, if_neg (Int32.not_lt.2 h2)]
  rw [toInt_pred h] at h1 ⊢
  omega

end Alarms

namespace Timer
variable {t t' : Timer} {A A' : Alarms} {es : List Alarm} {e : Alarm} {id : Nat} {fuel : Nat}

namespace Rep

/-- The first alarm of the batch is no longer of interest. -/
theorem tail (H : t.Rep A (e :: es)) : t.Rep A es :=
  { H with
    detached := fun e' h => H.detached e' (List.mem_cons_of_mem _ h)
    batch := H.batch.tail }

theorem forget (H : t.Rep A es) : t.Rep A [] :=
  { H with detached := nofun, batch := ⟨rfl, nofun, nofun⟩ }

/-- What follows the callback of the first alarm of the batch. -/
theorem finish (H : t.Rep A (e :: es)) (hf : A.brk < fuel) :
    Lockstep (fun t' A' => t'.Rep A' es) (rearmOrDestroy fuel t e.id) (A.finish e) := by
  have hnode := H.batch.node e List.mem_cons_self
  have hscore := H.batch.score e List.mem_cons_self
  obtain ⟨-, hid⟩ := H.detached e List.mem_cons_self
  have hes := (List.nodup_cons.1 H.nodup).1
  unfold rearmOrDestroy Alarms.finish
  by_cases hl : A.live e.id
  · rw [if_pos hl, Timer.ms, H.live, if_pos hl, hnode, Res.ok_bind]
    split
    · -- an interval goes back to the list
      set t₁ : Timer := { t with sl := t.sl.setScore e.id (e.deadline + e.ms) } with ht₁
      have H₁ : t₁.Rep A es := by
        refine H.tail.move H.wf rfl (Nat.le_refl _) rfl H.now H.brk H.live H.freed fun id h => ?_
        refine ⟨rfl, Function.update_of_ne ?_ _ _⟩
        rintro rfl
        exact (List.mem_append.1 h).elim hid hes
      obtain ⟨t', hrun, H'⟩ := H₁.insert hl hid hes hf
      have hs : (t₁.sl.node e.id).score = e.deadline + e.ms := by simp [ht₁, setScore]
      have hn : t₁.node e.id = e.toTimerNode := hnode
      rw [hs, hn] at H'
      rw [SkipList.score, H.live, if_pos hl, hscore, Res.ok_bind, ← ht₁, hrun]
      exact H'
    · exact H.tail.destroy hid
  · rw [if_neg hl, Timer.ms, H.live, if_neg hl]
    exact rfl

/-- The turn of the first alarm of the batch. -/
theorem turn (script : Nat → List TimerOp) (w : List Firing) (A : Alarms) :
    ∀ᶠ fuel in atTop, ∀ t : Timer, t.Rep A (e :: es) →
      Lockstep (fun s A' => s.1.Rep A' es ∧ s.2 = w ++ [e.firing])
        (do
          let f ← t.firing e.id
          let (t, w) ← callScript fuel script f (t, w)
          return (← rearmOrDestroy fuel t e.id, w))
        (A.turn (script w.length) e) := by
  have hops : ∀ᶠ fuel in atTop, ∀ t : Timer, t.Rep A (e :: es) →
      Lockstep (fun t' A' => t'.Rep A' es)
        (Libep.execOps fuel t (script w.length) >>= fun t => rearmOrDestroy fuel t e.id)
        (A.execOps (script w.length) >>= fun A => A.finish e) := by
    refine Lockstep.eventually_bind (Q := fun t => Timer.Rep t A (e :: es))
      (F := fun fuel t => Libep.execOps fuel t (script w.length))
      (G := fun fuel t => rearmOrDestroy fuel t e.id) (execOps _ A) fun A' _ => ?_
    filter_upwards [eventually_gt_atTop A'.brk] with fuel hf t H
    exact H.finish hf
  filter_upwards [hops] with fuel h t H
  unfold Timer.firing Alarms.turn
  rw [H.live]
  split
  · rw [H.batch.node e List.mem_cons_self]
    have : Lockstep (fun (s : Timer × List Firing) A' => s.1.Rep A' es ∧ s.2 = w ++ [e.firing]) _ _ :=
      (h t H).bind (f := fun t => .ok (t, w ++ [e.firing])) (g := fun A => .ok A)
        fun _ _ _ H => ⟨H, rfl⟩
    simpa [callScript, Alarm.firing] using this
  · exact rfl

/-- Advancing `n` past the first alarm of the batch. -/
theorem forwardOrNull (H : t.Rep A es) :
    Libep.forwardOrNull t (es.map Alarm.id).head? =
      if ∀ e ∈ es.head?, A.live e.id then .ok (es.tail.map Alarm.id).head? else .error .invalid := by
  cases es with
  | nil => simp [Libep.forwardOrNull]
  | cons e es =>
    by_cases hl : A.live e.id
    · simp [Libep.forwardOrNull, SkipList.forward, H.live, hl, H.batch.next]
    · simp [Libep.forwardOrNull, SkipList.forward, H.live, hl]

theorem executeLoop_succ {script : Nat → List TimerOp} {k : Nat} {w : List Firing} {a : Nat}
    {n : Option Nat} {m : Int32} :
    Libep.executeLoop fuel (callScript fuel script) (k + 1) (t, w) (some a) n m =
      ((do
        let f ← t.firing a
        let (t, w) ← callScript fuel script f (t, w)
        return (← rearmOrDestroy fuel t a, w)) >>= fun s : Timer × List Firing =>
      let (m, stop) := if m ≥ 0 then (m - 1, decide (m - 1 ≤ 0)) else (m, false)
      if stop then .ok s
      else Libep.forwardOrNull s.1 n >>= fun n' =>
        Libep.executeLoop fuel (callScript fuel script) k s n n' m) := by
  simp only [Libep.executeLoop, bind_assoc]
  rfl

/-- The rest of the loop, after a turn that does not stop it. -/
private theorem go {script : Nat → List TimerOp} {k : Nat} {w : List Firing} {m : Int32}
    (H : t.Rep A es)
    (ih : Lockstep (fun s A' => s.1.Rep A' [] ∧
        s.2 = w ++ (es.take (Alarms.limit m es.length)).map Alarm.firing)
      (Libep.executeLoop fuel (callScript fuel script) k (t, w) (es.map Alarm.id).head?
        (es.tail.map Alarm.id).head? m)
      (A.turns script w.length (es.take (Alarms.limit m es.length)))) :
    Lockstep (fun s A' => s.1.Rep A' [] ∧
        s.2 = w ++ (es.take (Alarms.limit m es.length)).map Alarm.firing)
      (Libep.forwardOrNull t (es.map Alarm.id).head? >>= fun n' =>
        Libep.executeLoop fuel (callScript fuel script) k (t, w) (es.map Alarm.id).head? n' m)
      (A.turns script w.length (es.take (Alarms.limit m es.length))) := by
  rw [H.forwardOrNull]
  split
  · exact ih
  · -- the next alarm was cleared: the loop reads its link, `turns` gives it its turn
    rename_i h
    cases es with
    | nil => exact absurd nofun h
    | cons e es =>
      have hl : A.live e.id = false := by simpa using h
      obtain ⟨n, hn⟩ := Nat.exists_eq_succ_of_ne_zero (Nat.ne_of_gt (Alarms.limit_pos
        (m := m) (n := es.length)))
      simp [hn, Alarms.turns, Alarms.turn, hl]

/-- The loop, from any point of the batch on. -/
theorem executeLoop (script : Nat → List TimerOp) (m : Int32) (w : List Firing) (A : Alarms) :
    ∀ᶠ fuel in atTop, ∀ t : Timer, t.Rep A es → ∀ k, es.length < k →
      Lockstep (fun s A' => s.1.Rep A' [] ∧
          s.2 = w ++ (es.take (Alarms.limit m es.length)).map Alarm.firing)
        (Libep.executeLoop fuel (callScript fuel script) k (t, w) (es.map Alarm.id).head?
          (es.tail.map Alarm.id).head? m)
        (A.turns script w.length (es.take (Alarms.limit m es.length))) := by
  induction es generalizing m w A with
  | nil =>
    refine .of_forall fun fuel t H k hk => ?_
    obtain ⟨k, rfl⟩ := Nat.exists_eq_succ_of_ne_zero (Nat.ne_of_gt hk)
    simpa [Libep.executeLoop, Alarms.turns] using H
  | cons e es ih =>
    have hturn := @turn es e script w A
    obtain ⟨n, hn⟩ := Nat.exists_eq_succ_of_ne_zero (Nat.ne_of_gt (Alarms.limit_pos
      (m := m) (n := es.length)))
    cases hA : A.turn (script w.length) e with
    | error x =>
      filter_upwards [hturn] with fuel h t H k hk
      obtain ⟨k, rfl⟩ := Nat.exists_eq_succ_of_ne_zero (Nat.ne_of_gt (Nat.zero_lt_of_lt hk))
      rw [List.length_cons, hn, List.take_succ_cons, Alarms.turns, hA]
      simp only [List.map_cons, List.head?_cons, executeLoop_succ, (h t H).eq_error hA]
      exact rfl
    | ok A' =>
      filter_upwards [hturn, ih m (w ++ [e.firing]) A', ih (m - 1) (w ++ [e.firing]) A']
        with fuel h h₁ h₂ t H k hk
      obtain ⟨k, rfl⟩ := Nat.exists_eq_succ_of_ne_zero (Nat.ne_of_gt (Nat.zero_lt_of_lt hk))
      obtain ⟨⟨t', w'⟩, hrun, H', hw⟩ := (h t H).exists_ok hA
      cases hw
      have hk' : es.length < k := Nat.lt_of_succ_lt_succ hk
      simp only [List.map_cons, List.head?_cons, List.tail_cons, executeLoop_succ, hrun, Res.ok_bind]
      rw [List.length_cons]
      by_cases hm : m ≥ 0
      · by_cases hstop : m - 1 ≤ 0
        · rw [Alarms.limit_succ_of_stop hm hstop]
          simpa [hm, hstop, Alarms.turns, hA] using H'.forget
        · rw [Alarms.limit_succ_of_go hm hstop]
          have := go H' (h₂ t' H' k hk')
          simpa [hm, hstop, Alarms.turns, hA] using this
      · rw [Alarms.limit_succ_of_neg hm]
        have := go H' (h₁ t' H' k hk')
        simpa [hm, Alarms.turns, hA] using this

/-- `skiplist_extract_lte` takes the due alarms off the list and makes them the batch. -/
theorem detach (H : t.Rep A []) (now : UInt64) (hf : A.brk < fuel) :
    ∃ sl, skiplistExtractLte timerLevel fuel t.sl now =
        .ok (((A.due now).map Alarm.id).head?, sl) ∧
      { t with sl }.Rep (A.detach now) (A.due now) := by
  obtain ⟨L, HL, hmap⟩ := H.list
  have hlen : L.length < fuel := by
    rw [length_eq hmap]
    exact Nat.lt_of_le_of_lt H.wf.length_le hf
  obtain ⟨sl, hrun, HL', hfrom, F⟩ := HL.extractLte (by decide) hlen now
  have hdue := map_filter hmap fun p => decide (p.2 ≤ now)
  have hids : (upTo Entry.score now L).map Entry.node = (A.due now).map Alarm.id :=
    map_node (A := { A with list := A.due now }) hdue
  rw [hids] at hrun hfrom F
  refine ⟨sl, hrun, H.wf.sublist List.filter_sublist, ⟨_, HL', ?_⟩, fun e he => ?_,
    fun e he => H.wf.detached_of_mem_due he, ⟨hfrom, fun e he => ?_, fun e he => ?_⟩, H.now, H.brk,
    F.live.trans H.live, H.freed⟩
  · exact map_filter hmap fun p => decide (now < p.2)
  · exact H.node e (mem_above.1 he).1
  · exact H.node e (mem_upTo.1 he).1
  · rw [F.score]
    exact H.score (mem_upTo.1 he).1

/-- `ep_timer_execute`, with any bound on the loops that is large enough. -/
theorem execute (script : Nat → List TimerOp) (now : UInt64) (m : Int32) (A : Alarms) :
    ∀ᶠ fuel in atTop, ∀ t : Timer, t.Rep A [] →
      Lockstep (fun s A' => s.1.Rep A' [] ∧ s.2 = (A.batch now m).map Alarm.firing)
        (epTimerExecute fuel (callScript fuel script) (t, []) now m) (A.execute script now m) := by
  filter_upwards [@executeLoop (A.due now) script m [] (A.detach now),
    eventually_gt_atTop A.brk] with fuel h hf t H
  obtain ⟨sl, hrun, H'⟩ := H.detach now hf
  have hlive : ∀ e ∈ (A.due now).head?, (A.detach now).live e.id :=
    fun e he => H.wf.live e (mem_upTo.1 (List.mem_of_mem_head? he)).1
  have hlen : (A.due now).length < fuel :=
    Nat.lt_of_le_of_lt (Nat.le_trans (List.length_filter_le ..) H.wf.length_le) hf
  have hn := H'.forwardOrNull
  rw [if_pos hlive] at hn
  simp only [epTimerExecute, hrun, Res.ok_bind, hn]
  exact h _ H' fuel hlen

end Rep

end Timer

end Libep

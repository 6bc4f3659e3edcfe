import Libep.Ep
import Libep.Verify.Timer.Bounded

/-!
# How long the event loop sleeps

`ep__waittime` narrows the 64-bit distance to the nearest deadline to an `int`, where a negative value
means that there is no timer. It keeps its promise exactly if the distance does not become negative,
or the hint bounds the sleep anyway.
-/

namespace Libep
open Chain SkipList

/-- What `ep__waittime` is for: the hint if there is no timer, and never past the nearest one. -/
def NeverPast (t : Timer) (A : Alarms) (tv : Timeval) (hint : Int32) : Prop :=
  ∃ w t', epWaittime t tv hint = .ok (w, t') ∧ (A.list = [] → w = hint) ∧
    ∀ e ∈ A.list, (∀ e' ∈ A.list, e.deadline ≤ e'.deadline) →
      0 ≤ w ∧ w.toInt ≤ (e.deadline.toNat - tv.ms.toNat : Nat) ∧ (0 ≤ hint → w ≤ hint)

/-- The distance from `now` to the deadline stays non-negative as an `int`. -/
def Alarm.Near (e : Alarm) (now : UInt64) : Prop :=
  (e.deadline.toNat - now.toNat) % 2 ^ 32 < 2 ^ 31

instance (e : Alarm) (now : UInt64) : Decidable (e.Near now) :=
  inferInstanceAs (Decidable (_ < _))

/-- The narrowing of a `uint64_t` to an `int`. -/
private theorem toInt_narrow (d : UInt64) :
    d.toUInt32.toInt32.toInt = Int.bmod d.toNat (2 ^ 32) := by
  have h : d.toUInt32.toInt32.toInt = d.toUInt32.toBitVec.toInt := rfl
  have hn : d.toUInt32.toBitVec.toNat = d.toNat % 2 ^ 32 := rfl
  rw [h, BitVec.toInt_eq_toNat_bmod, hn, Int.natCast_emod]
  exact Int.emod_bmod ..

/-- The distance `ep_timer_nearest_diff` computes. -/
private theorem toNat_diff (nearest now : UInt64) :
    (if nearest > now then nearest - now else 0).toNat = nearest.toNat - now.toNat := by
  split
  · rename_i h
    exact UInt64.toNat_sub_of_le _ _ (UInt64.le_of_lt h)
  · rename_i h
    have := UInt64.le_iff_toNat_le.1 (UInt64.not_lt.1 h)
    simp
    omega

namespace Timer.Rep
variable {t : Timer} {A : Alarms}

theorem forward_header (H : t.Rep A []) : t.sl.forward .header 0 = .ok A.ids.head? := by
  have := H.chain
  rw [forward_eq rfl]
  cases hids : A.ids with
  | nil => rw [hids] at this; exact congrArg _ this
  | cons a l => rw [hids] at this; exact congrArg _ this.1

/-- The first alarm is one of the nearest. -/
theorem head_le (H : t.Rep A []) {e e' : Alarm} {l : List Alarm} (h : A.list = e :: l)
    (he' : e' ∈ A.list) : e.deadline ≤ e'.deadline := by
  have hs := H.wf.sorted
  rw [h] at hs he'
  rcases List.mem_cons.1 he' with rfl | he'
  · exact UInt64.le_refl _
  · exact (List.pairwise_cons.1 hs).1 e' he'

theorem epTimerNearestDiff (H : t.Rep A []) : Libep.epTimerNearestDiff t = .ok
    (match A.list with
    | [] => -1
    | e :: _ => (if e.deadline > t.now then e.deadline - t.now else 0).toUInt32.toInt32) := by
  unfold Libep.epTimerNearestDiff
  rw [H.forward_header]
  cases hl : A.list with
  | nil =>
    simp only [Alarms.ids, hl]
    rfl
  | cons e l =>
    have he : e ∈ A.list := hl ▸ List.mem_cons_self
    have hlive : t.sl.live e.id := by rw [H.live]; exact H.wf.live e he
    simp [Alarms.ids, hl, score_eq hlive, H.score he, epTimerGettime]

/-- `ep_timer_updatetime` moves the clock only. -/
theorem updatetime (H : t.Rep A []) (tv : Timeval) :
    (epTimerUpdatetime t tv).Rep { A with now := tv.ms } [] :=
  H.exec (.updatetime tv) (Nat.lt_succ_self (A.brk + 1))

/-- What `ep__waittime` returns. -/
theorem epWaittime (H : t.Rep A []) (tv : Timeval) (hint : Int32) :
    ∃ w t', Libep.epWaittime t tv hint = .ok (w, t') ∧ (A.list = [] → w = hint) ∧
      ∀ e ∈ A.list, (∀ e' ∈ A.list, e.deadline ≤ e'.deadline) →
        ∀ n : Nat, n = (e.deadline.toNat - tv.ms.toNat) % 2 ^ 32 →
          w.toInt = if n < 2 ^ 31 ∧ (hint.toInt < 0 ∨ n < hint.toInt) then (n : Int)
            else hint.toInt := by
  have h := (H.updatetime tv).epTimerNearestDiff
  simp only [Libep.epWaittime, h, Res.ok_bind, Res.pure_eq]
  refine ⟨_, _, rfl, fun hl => ?_, fun e he hleast n hn => ?_⟩
  · simp only [hl]
    exact if_pos (by decide)
  · cases hl : A.list with
    | nil => rw [hl] at he; cases he
    | cons e₀ l =>
      have hd₀ : e₀.deadline = e.deadline :=
        le_antisymm (H.head_le hl he) (hleast e₀ (hl ▸ List.mem_cons_self))
      have hd := toInt_narrow (if e.deadline > tv.ms then e.deadline - tv.ms else 0)
      rw [toNat_diff, Int.bmod_def] at hd
      simp only [hd₀]
      set w := (if e.deadline > tv.ms then e.deadline - tv.ms else 0).toUInt32.toInt32 with hw
      have h0 : w < 0 ↔ w.toInt < 0 := by rw [Int32.lt_iff_toInt_lt]; rfl
      have h1 : hint < 0 ↔ hint.toInt < 0 := by rw [Int32.lt_iff_toInt_lt]; rfl
      have h2 : w < hint ↔ w.toInt < hint.toInt := Int32.lt_iff_toInt_lt
      show (if w < 0 then hint else if hint < 0 ∨ w < hint then w else hint).toInt = _
      simp only [h0, h1, h2]
      split_ifs <;> omega

end Timer.Rep

variable {t : Timer} {A : Alarms}

/-- **The event loop never sleeps past the nearest timer** exactly if there is none, the hint bounds
the sleep, or the distance to the nearest deadline is non-negative as an `int`. -/
theorem waittime_never_past (H : t.Rep A []) (tv : Timeval) (hint : Int32) :
    NeverPast t A tv hint ↔ A.list = [] ∨ 0 ≤ hint ∨
      ∀ e ∈ A.list, (∀ e' ∈ A.list, e.deadline ≤ e'.deadline) → e.Near tv.ms := by
  obtain ⟨w, t', hrun, hnil, hcons⟩ := H.epWaittime tv hint
  have h0 : ∀ {x : Int32}, 0 ≤ x ↔ 0 ≤ x.toInt := by
    intro x
    rw [Int32.le_iff_toInt_le]
    rfl
  have hmax := Int32.toInt_lt hint
  -- the promise for one nearest alarm
  have key : ∀ e ∈ A.list, (∀ e' ∈ A.list, e.deadline ≤ e'.deadline) →
      ((0 ≤ w ∧ w.toInt ≤ (e.deadline.toNat - tv.ms.toNat : Nat) ∧ (0 ≤ hint → w ≤ hint)) ↔
        0 ≤ hint ∨ e.Near tv.ms) := by
    intro e he hleast
    have hw := hcons e he hleast _ rfl
    have hmod := Nat.mod_le (e.deadline.toNat - tv.ms.toNat) (2 ^ 32)
    rw [h0, h0, Int32.le_iff_toInt_le, Alarm.Near]
    split_ifs at hw <;> omega
  constructor
  · rintro ⟨w', t'', hrun', -, hall⟩
    obtain ⟨rfl, rfl⟩ : w = w' ∧ t' = t'' := by simpa [hrun] using hrun'
    by_cases hhint : 0 ≤ hint
    · exact .inr (.inl hhint)
    · refine .inr (.inr fun e he hleast => ?_)
      exact ((key e he hleast).1 (hall e he hleast)).resolve_left hhint
  · intro h
    refine ⟨w, t', hrun, hnil, fun e he hleast => (key e he hleast).2 ?_⟩
    rcases h with h | h | h
    · rw [h] at he
      cases he
    · exact .inl h
    · exact .inr (h e he hleast)

theorem waittime_never_past_sample :
    ∃ t A, execOps 4 (epTimerInit blank) twoTimers = .ok t ∧ t.Rep A [] ∧
      NeverPast t A ⟨0, 0⟩ (-1) := by
  obtain ⟨t, ht, H⟩ := execOps_blank twoTimers rfl
  refine ⟨t, _, ht, H, (waittime_never_past H ⟨0, 0⟩ (-1)).2 (.inr (.inr fun e he _ => ?_))⟩
  have h : ∀ e ∈ [(⟨⟨0, 7, 0⟩, 0, 0, 0⟩ : Alarm), ⟨⟨0, 8, 0⟩, 1, 0, 1⟩], e.Near 0 := by decide
  exact h e he

/-- One timer that is `2 ^ 31` milliseconds away: the loop is told to sleep forever. -/
theorem waittime_past :
    ∃ t A, execOps 3 (epTimerInit blank) [.runAfter false (2 ^ 31) 7 0] = .ok t ∧ t.Rep A [] ∧
      A.ids = [0] ∧ (∃ t', epWaittime t ⟨0, 0⟩ (-1) = .ok (-1, t')) ∧
      ¬NeverPast t A ⟨0, 0⟩ (-1) := by
  obtain ⟨t, ht, H⟩ := execOps_blank [.runAfter false (2 ^ 31) 7 0] rfl
  obtain ⟨w, t', hrun, -, hcons⟩ := H.epWaittime ⟨0, 0⟩ (-1)
  have he : (⟨⟨0, 7, 0⟩, 0, 2 ^ 31, 0⟩ : Alarm) ∈ [(⟨⟨0, 7, 0⟩, 0, 2 ^ 31, 0⟩ : Alarm)] :=
    List.mem_cons_self
  have hleast : ∀ e' ∈ [(⟨⟨0, 7, 0⟩, 0, 2 ^ 31, 0⟩ : Alarm)], (2 ^ 31 : UInt64) ≤ e'.deadline := by
    decide
  obtain rfl : w = -1 := Int32.toInt_inj.1 (hcons _ he hleast _ rfl)
  refine ⟨t, _, ht, H, rfl, ⟨t', hrun⟩, ?_⟩
  rintro ⟨w, t'', hrun', -, hall⟩
  obtain rfl : -1 = w := by
    rw [hrun] at hrun'
    exact congrArg Prod.fst (Except.ok.inj hrun')
  exact absurd (hall _ he hleast).1 (by decide)

end Libep

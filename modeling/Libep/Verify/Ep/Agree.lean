import Libep.Kqueue
import Libep.Loop
import Libep.Verify.Ep.Deliver
import Libep.Verify.Select.Wait

/-!
# The two loop interfaces agree

From a state without undelivered events, a program over `ep_iterate` fetches once in vain, and from
then on it runs the same statements as the program over `ep_for_each`. The two stand at different points
only after a wait with a result: one of them is about to test the result of its fetch, the other one
is not, and it does not matter because the fetch finds an event.
-/

namespace Libep

variable {P O K : Type} {fuel : Nat} {api : PollApi P O K} {env : Env P K} {waittime : Int32}
variable {handler : Handler P K} {st st' : EpLoop P O K} {out out' : Out} {ret n : Int}

/-- After a wait with a result the next fetch finds an event. -/
structure PollApi.Announces (api : PollApi P O K) : Prop where
  fetch : ∀ {ps k timeout o ret ps' k'}, api.wait ps k timeout = .ok (o, ret, ps', k') → 0 < ret →
    ∀ {out n ps'' out'}, api.fetch ps' out = .ok (n, ps'', out') → 0 < n

/-- No event is left undelivered: a fetch finds nothing and changes nothing. -/
def PollApi.Drained (api : PollApi P O K) (ps : P) : Prop :=
  ∀ out, ∃ ret ≤ 0, api.fetch ps out = .ok (ret, ps, out)

/-! ### The programs and the functions they are made of -/

theorem epWait_eq :
    epWait api env st waittime =
      epWaitArgument env waittime st >>= fun r => epPollWait api r.2 r.1 := by
  simp only [epWait, epWaitArgument, bind_assoc]
  rfl

section
variable (fuel api env waittime handler)

/-- What the program over `ep_for_each` shows in its first `n` statements. -/
def forEachTrace (n : Nat) (st : EpLoop P O K) (out : Out) : List (LoopObs P O K) :=
  forEachProgram.trace (LoopStmt.exec fuel api env waittime handler) n (.nexttick, st, out)

/-- What the program over `ep_iterate` shows in its first `n` statements. -/
def iterateTrace (n : Nat) (st : EpLoop P O K) (out : Out) : List (LoopObs P O K) :=
  iterateProgram.trace (LoopStmt.exec fuel api env waittime handler) n (.fetch, st, out)

/-- Where `n` statements of a program lead. -/
def Program.after {Pc : Type} (p : Program Pc LoopStmt Int) (n : Nat) (c : Pc × EpLoop P O K × Out) :
    Res (Pc × EpLoop P O K × Out) :=
  (p.run (LoopStmt.exec fuel api env waittime handler) n c).2

end

theorem Program.after_succ {Pc : Type} (p : Program Pc LoopStmt Int) (a : Pc)
    (c : EpLoop P O K × Out) (n : Nat) :
    p.after fuel api env waittime handler (n + 1) (a, c) =
      ((p.stmt a).exec fuel api env waittime handler c).2 >>= fun r =>
        p.after fuel api env waittime handler n (p.next a r.1, r.2) := by
  unfold Program.after
  cases hx : (p.stmt a).exec fuel api env waittime handler c with
  | mk obs res =>
    cases res with
    | error e =>
      rw [Program.run_of_error hx]
      rfl
    | ok r =>
      rw [Program.run_of_ok hx]
      rfl

theorem LoopStmt.exec_wait :
    (LoopStmt.wait.exec fuel api env waittime handler (st, out)).2 =
      epWait api env st waittime >>= fun r => .ok (r.1, r.2, out) := by
  rw [epWait_eq, LoopStmt.exec, bind_assoc]
  cases epWaitArgument env waittime st with
  | error e => rfl
  | ok r => rfl

/-- Four points of a program that follow each other, with the statements of `ep__for_each_start`. -/
structure Program.Turn {Pc : Type} (p : Program Pc LoopStmt Int) (a₁ a₂ a₃ a₄ : Pc) : Prop where
  nexttick : p.stmt a₁ = .nexttick
  everytick : p.stmt a₂ = .everytick
  timers : p.stmt a₃ = .timers
  wait : p.stmt a₄ = .wait
  next₁ : ∀ ret, p.next a₁ ret = a₂
  next₂ : ∀ ret, p.next a₂ ret = a₃
  next₃ : ∀ ret, p.next a₃ ret = a₄

theorem forEachProgram_turn : forEachProgram.Turn .nexttick .everytick .timers .wait := by
  constructor <;> intros <;> rfl

theorem iterateProgram_turn : iterateProgram.Turn .nexttick .everytick .timers .wait := by
  constructor <;> intros <;> rfl

theorem Program.Turn.after {Pc : Type} {p : Program Pc LoopStmt Int} {a₁ a₂ a₃ a₄ : Pc}
    (H : p.Turn a₁ a₂ a₃ a₄) (n : Nat) :
    p.after fuel api env waittime handler (n + 4) (a₁, st, out) =
      epTurn fuel api env st waittime >>= fun r =>
        p.after fuel api env waittime handler n (p.next a₄ r.1, r.2, out) := by
  have h₁ := @Program.after_succ P O K fuel api env waittime handler Pc p a₁ (st, out) (n + 3)
  have h₂ := fun st => @Program.after_succ P O K fuel api env waittime handler Pc p a₂ (st, out) (n + 2)
  have h₃ := fun st => @Program.after_succ P O K fuel api env waittime handler Pc p a₃ (st, out) (n + 1)
  have h₄ := fun st => @Program.after_succ P O K fuel api env waittime handler Pc p a₄ (st, out) n
  simp only [H.nexttick, LoopStmt.exec, H.next₁, bind_assoc, Res.pure_eq, Res.ok_bind] at h₁
  simp only [H.everytick, LoopStmt.exec, H.next₂, bind_assoc, Res.pure_eq, Res.ok_bind] at h₂
  simp only [H.timers, LoopStmt.exec, H.next₃, bind_assoc, Res.pure_eq, Res.ok_bind] at h₃
  simp only [H.wait, LoopStmt.exec_wait, bind_assoc, Res.ok_bind] at h₄
  rw [h₁, epTurn, epBeforeWait]
  simp only [h₂, h₃, h₄, bind_assoc]

/-- The first statements of the program over `ep_for_each` are `ep__for_each_start`. -/
theorem epForEachStart_eq :
    forEachProgram.after fuel api env waittime handler 4 (.nexttick, st, out) =
      epForEachStart fuel api env st waittime >>= fun st => .ok (.fetch, st, out) := by
  rw [forEachProgram_turn.after 0, epForEachStart, bind_assoc]
  rfl

theorem iterateProgram_fetch {a : IteratePc} (ha : iterateProgram.stmt a = .fetch) (n : Nat) :
    iterateProgram.after fuel api env waittime handler (n + 1) (a, st, out) =
      epFetch api st out >>= fun r =>
        iterateProgram.after fuel api env waittime handler n (iterateProgram.next a r.1, r.2.2, r.2.1) := by
  rw [Program.after_succ, ha, LoopStmt.exec, bind_assoc]
  rfl

/-- The statements of the other program up to the body, or up to the next call, are `ep_iterate`. -/
theorem epIterate_eq :
    ∃ n, iterateProgram.after fuel api env waittime handler n (.fetch, st, out) =
      epIterate fuel api env st waittime out >>= fun r =>
        .ok (if r.1 > 0 then .body else .fetch, r.2.2, r.2.1) := by
  have hstart := fun n => @iterateProgram_fetch P O K fuel api env waittime handler st out .fetch rfl n
  cases hf : epFetch api st out with
  | error e =>
    refine ⟨1, ?_⟩
    rw [hstart, epIterate, hf]
    rfl
  | ok r =>
    obtain ⟨ret, out₁, st₁⟩ := r
    simp only [hf, Res.ok_bind] at hstart
    rcases lt_or_ge 0 ret with hpos | hle
    · refine ⟨1, ?_⟩
      rw [hstart, epIterate_of_fetch hf hpos, Res.ok_bind, if_pos hpos]
      show Except.ok (if ret ≤ 0 then IteratePc.nexttick else .body, st₁, out₁) = _
      rw [if_neg (Int.not_le.2 hpos)]
    · -- the call makes a turn
      have hturn : ∀ n, iterateProgram.after fuel api env waittime handler (n + 5) (.fetch, st, out) =
          epTurn fuel api env st₁ waittime >>= fun r => iterateProgram.after fuel api env waittime
            handler n (iterateProgram.next .wait r.1, r.2, out₁) := by
        intro n
        rw [hstart (n + 4), show iterateProgram.next .fetch ret = .nexttick from if_pos hle,
          iterateProgram_turn.after]
      cases ht : epTurn fuel api env st₁ waittime with
      | error e =>
        refine ⟨5, (hturn 0).trans ?_⟩
        simp only [epIterate, hf, Res.ok_bind, if_pos hle, ht]
        rfl
      | ok r =>
        obtain ⟨m, st₂⟩ := r
        simp only [ht, Res.ok_bind] at hturn
        rcases lt_or_ge 0 m with hm | hm
        · refine ⟨6, (hturn 1).trans ?_⟩
          rw [show iterateProgram.next .wait m = .fetchNew from if_pos hm, iterateProgram_fetch rfl]
          simp only [epIterate, hf, Res.ok_bind, if_pos hle, ht, if_pos hm, bind_assoc]
          refine congrArg _ (funext fun r => ?_)
          show Except.ok (IteratePc.body, r.2.2, r.2.1) = .ok (if m > 0 then _ else _, _, _)
          rw [if_pos hm]
        · refine ⟨5, (hturn 0).trans ?_⟩
          rw [epIterate_of_idle hf hle ht hm, show iterateProgram.next .wait m = .fetch from
            if_neg (Int.not_lt.2 hm), Res.ok_bind, if_neg (Int.not_lt.2 hm)]
          rfl

/-- The two programs are made of `ep__for_each_start` and of `ep_iterate`: with the fetch of `ep_for_each` and
the bodies, these are all of their statements. -/
structure MadeOf (fuel : Nat) (api : PollApi P O K) (env : Env P K) (waittime : Int32) (handler : Handler P K) :
    Prop where
  forEachStart : ∀ st out, forEachProgram.after fuel api env waittime handler 4 (.nexttick, st, out) =
    epForEachStart fuel api env st waittime >>= fun st => .ok (.fetch, st, out)
  iterate : ∀ st out, ∃ n, iterateProgram.after fuel api env waittime handler n (.fetch, st, out) =
    epIterate fuel api env st waittime out >>= fun r => .ok (if r.1 > 0 then .body else .fetch, r.2.2, r.2.1)

theorem madeOf : MadeOf fuel api env waittime handler :=
  ⟨fun _ _ => epForEachStart_eq, fun _ _ => epIterate_eq⟩

/-! ### The simulation -/

/-- Where the two programs stand together: at the same statement, and if one of them does not test the
result of its fetch, at a state where the fetch finds an event. -/
def Together (api : PollApi P O K) : LoopStmt → IteratePc → EpLoop P O K × Out → Prop
  | .nexttick, .nexttick, _ | .everytick, .everytick, _ | .timers, .timers, _ | .wait, .wait, _
  | .fetch, .fetch, _ | .body, .body, _ => True
  | .fetch, .fetchNew, (st, _) =>
    ∀ {out n ps'' out'}, api.fetch st.ps out = .ok (n, ps'', out') → 0 < n
  | _, _, _ => False

theorem Together.stmt_eq {a : LoopStmt} {b : IteratePc} {c : EpLoop P O K × Out}
    (h : Together api a b c) : forEachProgram.stmt a = iterateProgram.stmt b := by
  cases a <;> cases b <;> first | rfl | exact h.elim

/-- A wait with a result leaves the engine in a state where the next fetch finds an event. -/
theorem epWait_announces (H : api.Announces) (h : epWait api env st waittime = .ok (ret, st'))
    (hret : 0 < ret) {ps : P} (hfetch : api.fetch st'.ps out = .ok (n, ps, out')) : 0 < n := by
  obtain ⟨⟨timeout, timer⟩, -, h⟩ := Res.bind_eq_ok.1 h
  obtain ⟨⟨o, m, ps', k⟩, hwait, h⟩ := Res.bind_eq_ok.1 h
  cases h
  exact H.fetch hwait hret hfetch

theorem Together.next (H : api.Announces) {a : LoopStmt} {b : IteratePc}
    {c c' : EpLoop P O K × Out} {obs : List (LoopObs P O K)} (h : Together api a b c)
    (hx : (forEachProgram.stmt a).exec fuel api env waittime handler c = (obs, .ok (ret, c'))) :
    Together api (forEachProgram.next a ret) (iterateProgram.next b ret) c' := by
  obtain ⟨st, out⟩ := c
  replace hx := congrArg Prod.snd hx
  cases a with
  | nexttick | everytick | timers | body =>
    cases b with
    | nexttick | everytick | timers | body => trivial
    | wait | fetch | fetchNew => exact h.elim
  | wait =>
    cases b with
    | wait =>
      rw [show forEachProgram.stmt .wait = .wait from rfl, LoopStmt.exec_wait] at hx
      obtain ⟨⟨m, st'⟩, hwait, hx⟩ := Res.bind_eq_ok.1 hx
      cases hx
      show Together api .fetch (if m > 0 then .fetchNew else .fetch) _
      split
      · rename_i hret
        exact fun hfetch => epWait_announces H hwait hret hfetch
      · trivial
    | nexttick | everytick | timers | fetch | fetchNew | body => exact h.elim
  | fetch =>
    obtain ⟨⟨m, out', st'⟩, hfetch, hx⟩ := Res.bind_eq_ok.1 hx
    cases hx
    cases b with
    | fetch =>
      show Together api (if ret > 0 then .body else .nexttick) (if ret ≤ 0 then .nexttick else .body) _
      rcases lt_or_ge 0 ret with hpos | hle
      · rw [if_pos hpos, if_neg (Int.not_le.2 hpos)]
        trivial
      · rw [if_neg (Int.not_lt.2 hle), if_pos hle]
        trivial
    | fetchNew =>
      obtain ⟨⟨m, ps, out₁⟩, hf, hst⟩ := Res.bind_eq_ok.1 hfetch
      cases hst
      show Together api (if ret > 0 then .body else .nexttick) .body _
      rw [if_pos (h hf)]
      trivial
    | nexttick | everytick | timers | wait | body => exact h.elim

/-- After its first fetch the program over `ep_iterate` shows what the other one shows. -/
theorem iterateTrace_succ (H : api.Announces) (hd : api.Drained st.ps) (n : Nat) :
    iterateTrace fuel api env waittime handler (n + 1) st out =
      forEachTrace fuel api env waittime handler n st out := by
  obtain ⟨ret, hle, hfetch⟩ := hd out
  have hx : (iterateProgram.stmt .fetch).exec fuel api env waittime handler (st, out) =
      ([], .ok (ret, st, out)) := by
    show ([], epFetch api st out >>= _) = _
    rw [epFetch_eq hfetch]
    rfl
  unfold iterateTrace Program.trace
  rw [Program.run_of_ok hx, show iterateProgram.next .fetch ret = .nexttick from if_pos hle]
  have h : Together api .nexttick .nexttick (st, out) := trivial
  exact (Program.trace_eq (Together api) (fun h => h.stmt_eq) (fun h hx => h.next H hx) n h).symm

/-- `l` is seen at the start of an infinite run, of which `t` shows longer and longer parts. -/
def Shows {ω : Type*} (t : Nat → List ω) (l : List ω) : Prop := ∃ n, l <+: t n

/-- The programs over the two interfaces show the same, each from its start: at all times, but for the
first fetch of the one, and so on every finite prefix. -/
def Agree (fuel : Nat) (api : PollApi P O K) (env : Env P K) (waittime : Int32)
    (handler : Handler P K) (st : EpLoop P O K) (out : Out) : Prop :=
  (∀ n, iterateTrace fuel api env waittime handler (n + 1) st out =
    forEachTrace fuel api env waittime handler n st out) ∧
  ∀ l, Shows (iterateTrace fuel api env waittime handler · st out) l ↔
    Shows (forEachTrace fuel api env waittime handler · st out) l

theorem agree (H : api.Announces) (hd : api.Drained st.ps) :
    Agree fuel api env waittime handler st out := by
  refine ⟨iterateTrace_succ H hd, fun l => ⟨?_, ?_⟩⟩
  · rintro ⟨n, hn⟩
    refine ⟨n, ?_⟩
    simp only [← iterateTrace_succ H hd]
    exact hn.trans (Program.trace_prefix _ (Nat.le_succ n))
  · rintro ⟨n, hn⟩
    refine ⟨n + 1, ?_⟩
    simp only [iterateTrace_succ H hd]
    exact hn

/-! ### The engines -/

theorem epollApi_announces (kernel : EpollKernel K) : (epollApi kernel).Announces where
  fetch h hret := by
    intro out n ps'' out' hfetch
    cases h
    simp only [epollApi, epEpollFetch] at hfetch
    rw [if_pos hret] at hfetch
    split at hfetch
    · cases hfetch
      exact hret
    · cases hfetch

theorem epollApi_drained (kernel : EpollKernel K) {s : EpollState} (h : s.ready ≤ 0) :
    (epollApi kernel).Drained s := fun _ => ⟨0, Int.le_refl 0, epEpollFetch_empty h⟩

theorem kqueueApi_announces (kernel : KqueueKernel K) : (kqueueApi kernel).Announces where
  fetch h hret := by
    intro out n ps'' out' hfetch
    cases h
    simp only [kqueueApi, epKqueueFetch] at hfetch
    rw [if_pos hret] at hfetch
    split at hfetch
    · cases hfetch
      exact hret
    · cases hfetch

theorem kqueueApi_drained (kernel : KqueueKernel K) {s : KqueueState} (h : s.ready ≤ 0) :
    (kqueueApi kernel).Drained s := fun _ => ⟨0, Int.le_refl 0, if_neg (Int.not_lt.2 h)⟩

theorem selectApi_announces (size : Nat) (kernel : SelectKernel K) :
    (selectApi size kernel).Announces where
  fetch h hret := by
    intro out n ps'' out' hfetch
    obtain ⟨⟨m, s⟩, hwait, h⟩ := Res.bind_eq_ok.1 h
    cases h
    obtain ⟨s', hfill, hwait⟩ := Res.bind_eq_ok.1 hwait
    cases hwait
    have hready := congrArg SelectState.ready (selectFill_eq hfill)
    obtain ⟨⟨⟨m, e⟩, s''⟩, hf, h⟩ := Res.bind_eq_ok.1 hfetch
    cases h
    unfold epSelectFetch at hf
    rw [if_pos (hready ▸ hret)] at hf
    split at hf
    · cases hf
      exact hready ▸ hret
    · cases hf

theorem selectApi_drained (size : Nat) (kernel : SelectKernel K) {s : SelectState}
    (h : s.ready ≤ 0) : (selectApi size kernel).Drained s := by
  refine fun out => ⟨0, Int.le_refl 0, ?_⟩
  simp only [selectApi, epSelectFetch, if_neg (Int.not_lt.2 h)]
  rfl

/-- **The two loop interfaces agree** on every engine, from every state without undelivered events; and the
programs they are compared by are made of the two functions. -/
theorem loop_interfaces_agree (fuel : Nat) (waittime : Int32) (out : Out) :
    (∀ (kernel : EpollKernel K) env handler (st : EpLoop EpollState WaitOutcome K),
      st.ps.ready ≤ 0 → Agree fuel (epollApi kernel) env waittime handler st out) ∧
    (∀ size (kernel : SelectKernel K) env handler (st : EpLoop SelectState SelectResult K),
      st.ps.ready ≤ 0 → Agree fuel (selectApi size kernel) env waittime handler st out) ∧
    (∀ (kernel : KqueueKernel K) env handler (st : EpLoop KqueueState KeventAnswer K),
      st.ps.ready ≤ 0 → Agree fuel (kqueueApi kernel) env waittime handler st out) ∧
    ∀ {P O : Type} (api : PollApi P O K) env handler, MadeOf fuel api env waittime handler := by
  refine ⟨fun kernel env handler st h => ?_, fun size kernel env handler st h => ?_,
    fun kernel env handler st h => ?_, fun api env handler => madeOf⟩
  · exact agree (epollApi_announces kernel) (epollApi_drained kernel h)
  · exact agree (selectApi_announces size kernel) (selectApi_drained size kernel h)
  · exact agree (kqueueApi_announces kernel) (kqueueApi_drained kernel h)

/-- A body that schedules a task and removes the descriptor its event names. -/
def removing : Handler EpollState (List WaitOutcome) := fun out st =>
  ([.nexttick false 2 0, .del (out.data.getD 0).toNat], st.world)

/-- What is delivered, if the observation is of a body. -/
def LoopObs.delivered : LoopObs P O K → Option Out
  | .deliver out _ => some out
  | _ => none

theorem loop_interfaces_agree_sample :
    Agree 4 (epollApi scriptedKernel) quietEnv (-1) removing (freshLoop fourAnswers)
        ⟨some 0, some 0⟩ ∧
      (forEachTrace 4 (epollApi scriptedKernel) quietEnv (-1) removing 26 (freshLoop fourAnswers)
        ⟨some 0, some 0⟩).filterMap LoopObs.delivered =
          [⟨some epWritable, some 11⟩, ⟨some epReadable, some 10⟩, ⟨some epReadable, some 12⟩] :=
  ⟨(loop_interfaces_agree 4 (-1) ⟨some 0, some 0⟩).1 scriptedKernel quietEnv removing
    (freshLoop fourAnswers) (by decide), rfl⟩

end Libep

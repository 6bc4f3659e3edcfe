import Libep.Loop
import Libep.Verify.Ep.Turn

/-!
# Invariants of the engine and the world

A property of the engine and the world holds after a run if every call of the engine keeps it, and the
clock, the callbacks and the program keep it in what else they do.
-/

namespace Libep
open Relation (ReflTransGen)

variable {P O K : Type} {fuel : Nat} {api : PollApi P O K} {env : Env P K} {I : P → K → Prop}
variable {st st' : EpLoop P O K}

/-- Calls of the engine and of the environment keep `I`. -/
structure Keeps (api : PollApi P O K) (env : Env P K) (I : P → K → Prop) : Prop where
  call : ∀ {c : PollCall} {ps k ret ps' k'}, I ps k → c.exec api ps k = .ok (ret, ps', k') → I ps' k'
  wait : ∀ {ps k timeout o ret ps' k'}, I ps k → api.wait ps k timeout = .ok (o, ret, ps', k') → I ps' k'
  fetch : ∀ {ps k out ret ps' out'}, I ps k → api.fetch ps out = .ok (ret, ps', out') → I ps' k
  clock : ∀ {ps k}, I ps k → I ps (env.gettimeofday k).2
  callback : ∀ {c} {st : EpState P K}, I st.ps st.world → I st.ps (env.callback c st).2

namespace Keeps

theorem action (H : Keeps api env I) {a : EpAction} (hI : I st.ps st.world)
    (h : a.exec fuel api env st = .ok st') : I st'.ps st'.world := by
  cases a with
  | add fd events data =>
    obtain ⟨_, h, hst⟩ := Res.bind_eq_ok.1 h
    obtain ⟨_, hadd, h⟩ := Res.bind_eq_ok.1 h
    cases h
    cases hst
    exact H.call hI (show (PollCall.add fd events data).exec api _ _ = _ from hadd)
  | mod fd events data =>
    obtain ⟨_, h, hst⟩ := Res.bind_eq_ok.1 h
    obtain ⟨_, hmod, h⟩ := Res.bind_eq_ok.1 h
    cases h
    cases hst
    exact H.call hI (show (PollCall.mod fd events data).exec api _ _ = _ from hmod)
  | del fd =>
    obtain ⟨_, h, hst⟩ := Res.bind_eq_ok.1 h
    obtain ⟨_, hdel, h⟩ := Res.bind_eq_ok.1 h
    cases h
    cases hst
    exact H.call hI (show (PollCall.del fd).exec api _ _ = _ from hdel)
  | settimeout | setinterval =>
    obtain ⟨_, h, hst⟩ := Res.bind_eq_ok.1 h
    obtain ⟨_, -, h⟩ := Res.bind_eq_ok.1 h
    cases h
    cases hst
    exact H.clock hI
  | nexttick | everytick =>
    obtain ⟨_, h, hst⟩ := Res.bind_eq_ok.1 h
    obtain ⟨_, -, h⟩ := Res.bind_eq_ok.1 h
    cases h
    cases hst
    exact hI
  | cleartimeout | clearinterval | cleartask =>
    obtain ⟨_, -, h⟩ := Res.bind_eq_ok.1 h
    cases h
    exact hI

theorem actions (H : Keeps api env I) {as : List EpAction} (hI : I st.ps st.world)
    (h : execActions fuel api env st as = .ok st') : I st'.ps st'.world := by
  induction as generalizing st with
  | nil =>
    cases h
    exact hI
  | cons a as ih =>
    obtain ⟨st₁, ha, h⟩ := Res.bind_eq_ok.1 h
    exact ih (H.action hI ha) h

theorem runCallback (H : Keeps api env I) {c : EpCall} (hI : I st.ps st.world)
    (h : Libep.runCallback fuel api env st c = .ok st') : I st'.ps st'.world := by
  refine H.actions ?_ h
  exact H.callback hI

theorem taskCall (H : Keeps api env I) {q : Tick} (hI : I st.ps st.world)
    (h : CallStep (Libep.taskCall fuel api env q) st st') : I st'.ps st'.world := by
  obtain ⟨c, s, s', h⟩ := h
  obtain ⟨st₁, hrun, hst⟩ := Res.bind_eq_ok.1 h
  cases hst
  refine H.runCallback ?_ hrun
  exact hI

theorem timerCall (H : Keeps api env I) (hI : I st.ps st.world)
    (h : CallStep (Libep.timerCall fuel api env) st st') : I st'.ps st'.world := by
  obtain ⟨c, s, s', h⟩ := h
  obtain ⟨st₁, hrun, hst⟩ := Res.bind_eq_ok.1 h
  cases hst
  refine H.runCallback ?_ hrun
  exact hI

/-- A loop that touches the world only through its calls. -/
theorem of_called {S C : Type} {call : C → S × EpLoop P O K → Res (S × EpLoop P O K)}
    (hstep : ∀ {st st' : EpLoop P O K}, I st.ps st.world → CallStep call st st' → I st'.ps st'.world)
    (hI : I st.ps st.world) (h : ReflTransGen (CallStep call) st st') : I st'.ps st'.world := by
  induction h with
  | refl => exact hI
  | tail _ h ih => exact hstep ih h

theorem epWait (H : Keeps api env I) {waittime : Int32} {ret : Int} (hI : I st.ps st.world)
    (h : Libep.epWait api env st waittime = .ok (ret, st')) : I st'.ps st'.world := by
  obtain ⟨_, -, h⟩ := Res.bind_eq_ok.1 h
  obtain ⟨_, hwait, h⟩ := Res.bind_eq_ok.1 h
  cases h
  exact H.wait (H.clock hI) hwait

theorem epTurn (H : Keeps api env I) {waittime : Int32} {ret : Int} (hI : I st.ps st.world)
    (h : Libep.epTurn fuel api env st waittime = .ok (ret, st')) : I st'.ps st'.world := by
  obtain ⟨st₁, st₂, st₃, h₁, h₂, h₃, hwait⟩ := epTurn_ok h
  have hI₁ : I st₁.ps st₁.world := by
    obtain ⟨⟨tasks, w⟩, hrun, h⟩ := Res.bind_eq_ok.1 h₁
    have := of_called H.taskCall hI (epTaskQueueRun_called hrun)
    cases h
    exact this
  have hI₂ : I st₂.ps st₂.world := by
    obtain ⟨⟨tasks, w⟩, hrun, h⟩ := Res.bind_eq_ok.1 h₂
    have := of_called H.taskCall hI₁ (epTaskQueueRunKeep_called hrun)
    cases h
    exact this
  have hI₃ : I st₃.ps st₃.world := by
    obtain ⟨⟨timer, w⟩, hrun, h⟩ := Res.bind_eq_ok.1 h₃
    have : I w.ps w.world := by
      refine of_called H.timerCall ?_ (epTimerExecuteNow_called hrun)
      exact H.clock hI₂
    cases h
    exact this
  exact H.epWait hI₃ hwait

theorem epFetch (H : Keeps api env I) {out out' : Out} {ret : Int} (hI : I st.ps st.world)
    (h : Libep.epFetch api st out = .ok (ret, out', st')) : I st'.ps st'.world := by
  obtain ⟨_, hfetch, h⟩ := Res.bind_eq_ok.1 h
  cases h
  exact H.fetch hI hfetch

theorem epIterate (H : Keeps api env I) {waittime : Int32} {out out' : Out} {ret : Int}
    (hI : I st.ps st.world)
    (h : Libep.epIterate fuel api env st waittime out = .ok (ret, out', st')) :
    I st'.ps st'.world := by
  obtain ⟨⟨n, out₁, st₁⟩, hfetch, h⟩ := Res.bind_eq_ok.1 h
  have hI₁ := H.epFetch hI hfetch
  dsimp only at h
  split at h
  · obtain ⟨⟨m, st₂⟩, hturn, h⟩ := Res.bind_eq_ok.1 h
    have hI₂ := H.epTurn hI₁ hturn
    dsimp only at h
    split at h
    · obtain ⟨⟨n', out₂, st₃⟩, hfetch', h⟩ := Res.bind_eq_ok.1 h
      cases h
      exact H.epFetch hI₂ hfetch'
    · cases h
      exact hI₂
  · cases h
    exact hI₁

theorem loopCall (H : Keeps api env I) {c : LoopCall K} (hI : I st.ps st.world)
    (hother : ∀ f, c = .other f → ∀ {ps k}, I ps k → I ps (f k))
    (h : c.exec fuel api env st = .ok st') : I st'.ps st'.world := by
  cases c with
  | iterate waittime out =>
    obtain ⟨⟨ret, out', st₁⟩, hiter, h⟩ := Res.bind_eq_ok.1 h
    cases h
    exact H.epIterate hI hiter
  | forEachStart waittime =>
    obtain ⟨⟨ret, st₁⟩, hturn, h⟩ := Res.bind_eq_ok.1 h
    cases h
    exact H.epTurn hI hturn
  | fetch out =>
    obtain ⟨⟨ret, out', st₁⟩, hfetch, h⟩ := Res.bind_eq_ok.1 h
    cases h
    exact H.epFetch hI hfetch
  | action a => exact H.action hI h
  | other f =>
    cases h
    exact hother f rfl hI

theorem loopRun (H : Keeps api env I) {cs : List (LoopCall K)} (hI : I st.ps st.world)
    (hother : ∀ f, .other f ∈ cs → ∀ {ps k}, I ps k → I ps (f k))
    (h : Libep.loopRun fuel api env st cs = .ok st') : I st'.ps st'.world := by
  induction cs generalizing st with
  | nil =>
    cases h
    exact hI
  | cons c cs ih =>
    obtain ⟨st₁, hc, h⟩ := Res.bind_eq_ok.1 h
    have hI₁ := H.loopCall hI (fun f hf => hother f (hf ▸ List.mem_cons_self)) hc
    exact ih hI₁ (fun f hf => hother f (List.mem_cons_of_mem _ hf)) h

end Keeps

end Libep

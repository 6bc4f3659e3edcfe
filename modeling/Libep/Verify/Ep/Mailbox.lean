import Libep.Verify.Ep.Engines
import Libep.Verify.Kqueue.Filters
import Libep.Verify.Kqueue.Reports

/-!
# Engines as mailboxes

To the loop an engine is a mailbox: a wait puts a batch of events in the place of what is left in it, and a
fetch takes the next one out. What is left after the calls of a record is a function of the record, and the
record says whether every fetch took out what it should. The three engines are mailboxes over their buffers,
the select engine as long as no wait finds a descriptor ready twice. `ep_iterate` waits only when nothing is
left; `ep__for_each_start` throws away what is left.
-/

namespace Libep

variable {P O K : Type}

/-- The event bits and the data that a fetch stores. -/
abbrev Delivery := UInt32 × UInt64

/-- The variables that a call of the program gives pointers to. -/
def LoopCall.out : LoopCall K → Option Out
  | .iterate _ out | .fetch out => some out
  | .forEachStart _ | .action _ | .other _ => none

/-- Every fetch of a record stores through the pointers of a call of the program. -/
def ThroughCalls (cs : List (LoopCall K)) (tr : List (PollEvent O)) : Prop :=
  ∀ ret out out', .fetch ret out out' ∈ tr → ∃ c ∈ cs, c.out = some out

/-- What is asked of the states of an engine, given the registrations; what a state has still to deliver, in
this order; the events of an answer of the kernel; and the answers that count their events right. -/
structure Mailbox (P O : Type) where
  Sound : P → Registry → Prop
  pending : P → List Delivery
  batch : Registry → O → List Delivery
  Exact : O → Prop

namespace Mailbox
variable (B : Mailbox P O)

/-- What is left after a call. -/
def after (r : Registry) (l : List Delivery) : PollEvent O → List Delivery
  | .call _ _ => l
  | .wait o _ => B.batch r o
  | .fetch _ _ _ => l.tail

/-- What is left after the calls of a record. -/
def left (tr : List (PollEvent O)) : List Delivery :=
  (tr.foldl (fun s e => (PollEvent.register s.1 e, B.after s.1 s.2 e)) (⟨fun _ => none⟩, [])).2

/-- The result of a call fits what was left before it. -/
def Agrees (r : Registry) (l : List Delivery) : PollEvent O → Prop
  | .call _ _ => True
  | .wait o ret => ret.toNat = (B.batch r o).length
  | .fetch ret out out' =>
    match l with
    | [] => ret = 0 ∧ out' = out
    | e :: l => ret = l.length + 1 ∧ out' = out.store e.1 e.2

/-- Every wait of a record counts its batch, and every fetch takes out what is next. -/
def Delivers (tr : List (PollEvent O)) : Prop :=
  ∀ pre e post, tr = pre ++ e :: post → B.Agrees (registry pre) (B.left pre) e

/-- No wait of a record throws anything away. -/
def Lossless (tr : List (PollEvent O)) : Prop :=
  ∀ pre o ret post, tr = pre ++ .wait o ret :: post → B.left pre = []

def AllExact (tr : List (PollEvent O)) : Prop := ∀ o ret, .wait o ret ∈ tr → B.Exact o

/-- The number of fetches in a record. -/
def fetches (tr : List (PollEvent O)) : Nat := tr.countP fun | .fetch _ _ _ => true | _ => false

/-- A wait returns the number of its events, and the `i`-th fetch after it stores the `i`-th of them through the
pointers of its caller; before the first wait, and after the last event, a fetch returns zero and stores nothing. -/
structure HandsOut (tr : List (PollEvent O)) : Prop where
  first : ∀ {pre} {ret : Int} {out out' post}, tr = pre ++ .fetch ret out out' :: post → (∀ e ∈ pre, ¬e.IsWait) →
    ret = 0 ∧ out' = out
  wait : ∀ {pre o ret post}, tr = pre ++ .wait o ret :: post → ret.toNat = (B.batch (registry pre) o).length
  fetch : ∀ {pre o n mid} {ret : Int} {out out' post},
    tr = pre ++ .wait o n :: (mid ++ .fetch ret out out' :: post) → (∀ e ∈ mid, ¬e.IsWait) →
      ret = ((B.batch (registry pre) o).length - fetches mid : Nat) ∧
        match (B.batch (registry pre) o)[fetches mid]? with
        | some e => out' = out.store e.1 e.2
        | none => out' = out

/-- All events of a wait are handed out before the next wait. -/
def HandsOutAll (tr : List (PollEvent O)) : Prop :=
  ∀ {pre o n mid o' n' post}, tr = pre ++ .wait o n :: (mid ++ .wait o' n' :: post) → (∀ e ∈ mid, ¬e.IsWait) →
    (B.batch (registry pre) o).length ≤ fetches mid

/-- The events of every wait have data that is registered when it is made. -/
def AllRegistered (tr : List (PollEvent O)) : Prop :=
  ∀ pre o ret post, tr = pre ++ .wait o ret :: post → ∀ e ∈ B.batch (registry pre) o,
    ∃ fd, (registry pre).data fd = some e.2

/-- The engine does what a mailbox does. -/
structure Models (api : PollApi P O K) : Prop where
  call : ∀ {c : PollCall} {ps k ret ps' k' r}, B.Sound ps r → c.exec api ps k = .ok (ret, ps', k') →
    B.Sound ps' (PollEvent.register (O := O) r (.call c ret)) ∧ B.pending ps' = B.pending ps
  wait : ∀ {ps k timeout o ret ps' k' r}, B.Sound ps r → api.wait ps k timeout = .ok (o, ret, ps', k') →
    B.Sound ps' (PollEvent.register r (.wait o ret)) ∧
      (B.Exact o → B.pending ps' = B.batch r o ∧ ret.toNat = (B.batch r o).length)
  fetch : ∀ {ps out ret ps' out' r}, B.Sound ps r → api.fetch ps out = .ok (ret, ps', out') →
    B.Sound ps' r ∧ B.Agrees r (B.pending ps) (.fetch ret out out') ∧ B.pending ps' = (B.pending ps).tail

section
variable {B} {tr : List (PollEvent O)} {e : PollEvent O}

theorem left_append_singleton : B.left (tr ++ [e]) = B.after (registry tr) (B.left tr) e := by
  have hfst : ∀ (tr : List (PollEvent O)) r l,
      (tr.foldl (fun s e => (PollEvent.register s.1 e, B.after s.1 s.2 e)) (r, l)).1 =
        tr.foldl PollEvent.register r := by
    intro tr
    induction tr with
    | nil => exact fun _ _ => rfl
    | cons e tr ih => exact fun r l => ih _ _
  rw [left, List.foldl_append, List.foldl_cons, List.foldl_nil, hfst]
  rfl

theorem Delivers.append_singleton (H : B.Delivers tr) (h : B.Agrees (registry tr) (B.left tr) e) :
    B.Delivers (tr ++ [e]) := split_append_singleton H h

theorem Lossless.append_singleton (H : B.Lossless tr) (h : ∀ o ret, e = .wait o ret → B.left tr = []) :
    B.Lossless (tr ++ [e]) := fun pre o ret post htr =>
  split_append_singleton (Q := fun pre e => ∀ o ret, e = .wait o ret → B.left pre = [])
    (fun pre _ post htr o ret he => H pre o ret post (he ▸ htr)) h pre _ post htr o ret rfl

theorem AllRegistered.append_singleton (H : B.AllRegistered tr)
    (h : ∀ {o ret}, e = .wait o ret → ∀ e ∈ B.batch (registry tr) o, ∃ fd, (registry tr).data fd = some e.2) :
    B.AllRegistered (tr ++ [e]) := fun pre o ret post htr =>
  split_append_singleton (Q := fun pre e => ∀ o ret, e = .wait o ret →
    ∀ e ∈ B.batch (registry pre) o, ∃ fd, (registry pre).data fd = some e.2)
    (fun pre _ post htr o ret he => H pre o ret post (he ▸ htr)) (fun _ _ => h) pre _ post htr o ret rfl

theorem AllExact.left (h : B.AllExact (tr ++ [e])) : B.AllExact tr :=
  fun o ret hmem => h o ret (List.mem_append_left _ hmem)

/-- Before the first wait nothing is left. -/
theorem left_eq_nil (h : ∀ e ∈ tr, ¬e.IsWait) : B.left tr = [] := by
  induction tr using List.reverseRecOn with
  | nil => rfl
  | append_singleton tr e ih =>
    rw [left_append_singleton, ih fun e he => h e (List.mem_append_left _ he)]
    cases e with
    | call c n => rfl
    | wait o n => exact absurd trivial (h _ (List.mem_append_right _ List.mem_cons_self))
    | fetch n out out' => rfl

/-- Between two waits the fetches take out the batch of the first one, one after the other. -/
theorem left_eq_drop {pre mid : List (PollEvent O)} {o : O} {ret : Int} (hmid : ∀ e ∈ mid, ¬e.IsWait) :
    B.left (pre ++ .wait o ret :: mid) = (B.batch (registry pre) o).drop (fetches mid) := by
  induction mid using List.reverseRecOn with
  | nil => rw [left_append_singleton]; rfl
  | append_singleton mid e ih =>
    rw [← List.cons_append, ← List.append_assoc, left_append_singleton,
      ih fun e he => hmid e (List.mem_append_left _ he), fetches, fetches, List.countP_append]
    cases e with
    | call c n => rfl
    | wait o n => exact absurd trivial (hmid _ (List.mem_append_right _ List.mem_cons_self))
    | fetch n out out' => exact List.tail_drop

theorem Delivers.handsOut (H : B.Delivers tr) : B.HandsOut tr where
  first {pre ret out out' post} htr hpre := by
    have hagrees := H _ _ _ htr
    rwa [left_eq_nil hpre] at hagrees
  wait htr := H _ _ _ htr
  fetch {pre o n mid ret out out' post} htr hmid := by
    have hagrees := H (pre ++ .wait o n :: mid) (.fetch ret out out') post (by simp [htr])
    rw [left_eq_drop hmid, Agrees.eq_def] at hagrees
    dsimp only at hagrees
    have hlen := List.length_drop (i := fetches mid) (l := B.batch (registry pre) o)
    split at hagrees
    · next hnil =>
      obtain ⟨hret, hout⟩ := hagrees
      rw [hnil, List.length_nil] at hlen
      refine ⟨by rw [hret, ← hlen]; rfl, ?_⟩
      rw [List.getElem?_eq_none (by omega)]
      exact hout
    · next e l hcons =>
      rw [hcons, List.length_cons] at hlen
      obtain ⟨hret, hout⟩ := hagrees
      refine ⟨by rw [hret, ← hlen]; rfl, ?_⟩
      rw [← Nat.add_zero (fetches mid), ← List.getElem?_drop, hcons]
      exact hout

theorem Lossless.handsOutAll (H : B.Lossless tr) : B.HandsOutAll tr := by
  intro pre o n mid o' n' post htr hmid
  have hleft := H (pre ++ .wait o n :: mid) o' n' post (by simp [htr])
  rw [left_eq_drop hmid] at hleft
  exact List.drop_eq_nil_iff.1 hleft

end

/-! ### Runs -/

/-- The engine and its record. -/
structure Inv (s : P × List (PollEvent O)) : Prop where
  sound : B.Sound s.1 (registry s.2)
  pending : B.AllExact s.2 → B.pending s.1 = B.left s.2
  delivers : B.AllExact s.2 → B.Delivers s.2

section
variable {B} {api : PollApi P O K} {env : Env P K} {fuel : Nat} {s s' : P × List (PollEvent O)} {k k' : K}

theorem Inv.call (HB : B.Models api) {c : PollCall} {ret : Int} (H : B.Inv s)
    (h : c.exec api.recorded s k = .ok (ret, s', k')) :
    B.Inv s' ∧ s'.2 = s.2 ++ [.call c ret] := by
  obtain ⟨ps', hexec, rfl⟩ := PollCall.exec_recorded h
  obtain ⟨hsound, hpending⟩ := HB.call H.sound hexec
  refine ⟨⟨?_, fun hex => ?_, fun hex => ?_⟩, rfl⟩
  · rwa [registry_append_singleton]
  · rw [left_append_singleton, hpending, H.pending hex.left]
    rfl
  · exact (H.delivers hex.left).append_singleton trivial

theorem Inv.wait (HB : B.Models api) {timeout : Int32} {o : O} {ret : Int} (H : B.Inv s)
    (h : api.recorded.wait s k timeout = .ok (o, ret, s', k')) :
    B.Inv s' ∧ s'.2 = s.2 ++ [.wait o ret] := by
  obtain ⟨⟨o, ret, ps', k'⟩, hwait, h⟩ := Res.bind_eq_ok.1 h
  cases h
  obtain ⟨hsound, hexact⟩ := HB.wait H.sound hwait
  have hlast : B.AllExact (s.2 ++ [.wait o ret]) → B.Exact o := fun hex =>
    hex o ret (List.mem_append_right _ List.mem_cons_self)
  refine ⟨⟨?_, fun hex => ?_, fun hex => ?_⟩, rfl⟩
  · rwa [registry_append_singleton]
  · rw [left_append_singleton]
    exact (hexact (hlast hex)).1
  · exact (H.delivers hex.left).append_singleton (hexact (hlast hex)).2

theorem Inv.fetch (HB : B.Models api) {out out' : Out} {ret : Int} (H : B.Inv s)
    (h : api.recorded.fetch s out = .ok (ret, s', out')) :
    B.Inv s' ∧ s'.2 = s.2 ++ [.fetch ret out out'] := by
  obtain ⟨⟨ret, ps', out'⟩, hfetch, h⟩ := Res.bind_eq_ok.1 h
  cases h
  obtain ⟨hsound, hagrees, hpending⟩ := HB.fetch H.sound hfetch
  refine ⟨⟨?_, fun hex => ?_, fun hex => ?_⟩, rfl⟩
  · rwa [registry_append_singleton]
  · rw [left_append_singleton, hpending, H.pending hex.left]
    rfl
  · refine (H.delivers hex.left).append_singleton ?_
    rwa [← H.pending hex.left]

theorem Models.keeps (HB : B.Models api) : Keeps api.recorded (env.recorded O) fun s _ => B.Inv s where
  call H h := (H.call HB h).1
  wait H h := (H.wait HB h).1
  fetch H h := (H.fetch HB h).1
  clock H := H
  callback H := H

/-- Calls for descriptors add nothing but themselves to a record. -/
def Registered (s s' : P × List (PollEvent O)) : Prop :=
  ∃ cs : List (PollCall × Int), s'.2 = s.2 ++ cs.map fun c => .call c.1 c.2

theorem registered_recorded (api : PollApi P O K) : api.recorded.Registers Registered where
  refl s := ⟨[], (List.append_nil _).symm⟩
  trans := by
    rintro s s' s'' ⟨cs, h⟩ ⟨cs', h'⟩
    exact ⟨cs ++ cs', by rw [h', h, List.map_append, List.append_assoc]⟩
  add h := by
    obtain ⟨_, -, h⟩ := Res.bind_eq_ok.1 h
    cases h
    exact ⟨[(_, _)], rfl⟩
  mod h := by
    obtain ⟨_, -, h⟩ := Res.bind_eq_ok.1 h
    cases h
    exact ⟨[(_, _)], rfl⟩
  del h := by
    obtain ⟨_, -, h⟩ := Res.bind_eq_ok.1 h
    cases h
    exact ⟨[(_, _)], rfl⟩

theorem Registered.left_eq (h : Registered s s') : B.left s'.2 = B.left s.2 := by
  obtain ⟨cs, h⟩ := h
  rw [h]
  clear h
  induction cs using List.reverseRecOn with
  | nil => rw [List.map_nil, List.append_nil]
  | append_singleton cs c ih =>
    rw [List.map_append, List.map_singleton, ← List.append_assoc, left_append_singleton]
    exact ih

theorem Registered.lossless (h : Registered s s') (H : B.Lossless s.2) : B.Lossless s'.2 := by
  obtain ⟨cs, h⟩ := h
  rw [h]
  clear h
  induction cs using List.reverseRecOn with
  | nil => rwa [List.map_nil, List.append_nil]
  | append_singleton cs c ih =>
    rw [List.map_append, List.map_singleton, ← List.append_assoc]
    exact ih.append_singleton (by simp)

theorem Registered.exact (h : Registered s s') : B.AllExact s'.2 ↔ B.AllExact s.2 := by
  obtain ⟨cs, h⟩ := h
  rw [h]
  simp [AllExact]

theorem Registered.mem (h : Registered s s') {ret : Int} {out out' : Out} (hmem : .fetch ret out out' ∈ s'.2) :
    .fetch ret out out' ∈ s.2 := by
  obtain ⟨cs, h⟩ := h
  rw [h] at hmem
  simpa using hmem

/-! ### Programs that throw nothing away -/

variable {st st' : EpLoop (P × List (PollEvent O)) O K} {waittime : Int32} {out out' : Out} {ret : Int}
  {cs : List (LoopCall K)}

/-- If the waits were exact, none of them threw anything away. -/
def LosslessIf (B : Mailbox P O) (tr : List (PollEvent O)) : Prop := B.AllExact tr → B.Lossless tr

theorem Inv.epFetch (HB : B.Models api) (H : B.Inv st.ps)
    (h : Libep.epFetch api.recorded st out = .ok (ret, out', st')) :
    B.Inv st'.ps ∧ st'.ps.2 = st.ps.2 ++ [.fetch ret out out'] := by
  obtain ⟨_, hfetch, h⟩ := Res.bind_eq_ok.1 h
  cases h
  exact H.fetch HB hfetch

theorem LosslessIf.fetch (H : B.LosslessIf st.ps.2) (h : st'.ps.2 = st.ps.2 ++ [.fetch ret out out']) :
    B.LosslessIf st'.ps.2 := by
  rw [h]
  exact fun hex => (H hex.left).append_singleton (by simp)

/-- After a fetch without a result nothing is left. -/
theorem Inv.left_of_fetch (H : B.Inv st'.ps) (h : st'.ps.2 = st.ps.2 ++ [.fetch ret out out']) (hret : ret ≤ 0)
    (hex : B.AllExact st'.ps.2) : B.left st'.ps.2 = [] := by
  have hagrees := H.delivers hex _ _ _ h
  rw [h, left_append_singleton]
  cases hleft : B.left st.ps.2 with
  | nil => rfl
  | cons e l =>
    rw [hleft] at hagrees
    obtain ⟨hlen, -⟩ := hagrees
    omega

/-- A turn makes calls for descriptors, and then waits. -/
theorem epTurn_record (h : epTurn fuel api.recorded (env.recorded O) st waittime = .ok (ret, st')) :
    ∃ s o, Registered st.ps s ∧ st'.ps.2 = s.2 ++ [.wait o ret] := by
  obtain ⟨st₁, hcalls, hwait⟩ := epTurn_onlyCalls (registered_recorded api) h
  obtain ⟨_, -, hwait⟩ := Res.bind_eq_ok.1 hwait
  obtain ⟨_, hwait, hst⟩ := Res.bind_eq_ok.1 hwait
  obtain ⟨_, -, hwait⟩ := Res.bind_eq_ok.1 hwait
  cases hwait
  cases hst
  exact ⟨st₁.ps, _, hcalls.ps, rfl⟩

/-- A turn that finds nothing left. -/
theorem epTurn_lossless (hleft : B.AllExact st.ps.2 → B.left st.ps.2 = []) (H : B.LosslessIf st.ps.2)
    (h : epTurn fuel api.recorded (env.recorded O) st waittime = .ok (ret, st')) :
    B.LosslessIf st'.ps.2 := by
  obtain ⟨s, o, hcalls, htr⟩ := epTurn_record h
  rw [htr]
  intro hex
  have hex₀ := hcalls.exact.1 hex.left
  exact (hcalls.lossless (H hex₀)).append_singleton fun _ _ _ => hcalls.left_eq.trans (hleft hex₀)

/-- `ep_iterate` waits only when nothing is left. -/
theorem epIterate_lossless (HB : B.Models api) (HI : B.Inv st.ps) (H : B.LosslessIf st.ps.2)
    (h : epIterate fuel api.recorded (env.recorded O) st waittime out = .ok (ret, out', st')) :
    B.LosslessIf st'.ps.2 := by
  obtain ⟨⟨n, out₁, st₁⟩, hfetch, h⟩ := Res.bind_eq_ok.1 h
  obtain ⟨HI₁, htr₁⟩ := HI.epFetch HB hfetch
  have H₁ : B.LosslessIf st₁.ps.2 := H.fetch htr₁
  dsimp only at h
  split at h
  · next hn =>
    obtain ⟨⟨m, st₂⟩, hturn, h⟩ := Res.bind_eq_ok.1 h
    have H₂ := epTurn_lossless (HI₁.left_of_fetch htr₁ hn) H₁ hturn
    dsimp only at h
    split at h
    · obtain ⟨⟨n', out₂, st₃⟩, hfetch', h⟩ := Res.bind_eq_ok.1 h
      cases h
      obtain ⟨_, hfetch', hst⟩ := Res.bind_eq_ok.1 hfetch'
      obtain ⟨_, -, hfetch'⟩ := Res.bind_eq_ok.1 hfetch'
      cases hfetch'
      cases hst
      exact H₂.fetch rfl
    · cases h
      exact H₂
  · cases h
    exact H₁

theorem loopCall_lossless (HB : B.Models api) (HI : B.Inv st.ps) (H : B.LosslessIf st.ps.2) {c : LoopCall K}
    (hc : ∀ waittime, c ≠ .forEachStart waittime)
    (h : c.exec fuel api.recorded (env.recorded O) st = .ok st') : B.LosslessIf st'.ps.2 := by
  cases c with
  | iterate waittime out =>
    obtain ⟨_, hrun, h⟩ := Res.bind_eq_ok.1 h
    cases h
    exact epIterate_lossless HB HI H hrun
  | forEachStart waittime => exact absurd rfl (hc waittime)
  | fetch out =>
    obtain ⟨_, hrun, h⟩ := Res.bind_eq_ok.1 h
    cases h
    exact H.fetch (HI.epFetch HB hrun).2
  | action a =>
    obtain ⟨hcalls, -⟩ := a.exec_engine (registered_recorded api) h
    exact fun hex => hcalls.lossless (H (hcalls.exact.1 hex))
  | other f =>
    cases h
    exact H

theorem loopRun_lossless (HB : B.Models api) (HI : B.Inv st.ps) (H : B.LosslessIf st.ps.2)
    (hcs : ∀ waittime, .forEachStart waittime ∉ cs)
    (h : loopRun fuel api.recorded (env.recorded O) st cs = .ok st') : B.LosslessIf st'.ps.2 := by
  induction cs generalizing st with
  | nil =>
    cases h
    exact H
  | cons c cs ih =>
    obtain ⟨st₁, hc, h⟩ := Res.bind_eq_ok.1 h
    have hcall := loopCall_lossless HB HI H (fun waittime e => hcs waittime (e ▸ List.mem_cons_self)) hc
    have HI₁ := HB.keeps.loopCall HI (fun _ _ _ _ h => h) hc
    exact ih HI₁ hcall (fun waittime hmem => hcs waittime (List.mem_cons_of_mem _ hmem)) h

/-! ### Whose pointers they are -/

/-- A fetch without a result stores nothing. -/
theorem Models.out_eq (HB : B.Models api) (HI : B.Inv st.ps)
    (h : Libep.epFetch api.recorded st out = .ok (ret, out', st')) (hret : ret ≤ 0) : out' = out := by
  obtain ⟨_, hrec, h⟩ := Res.bind_eq_ok.1 h
  obtain ⟨_, hfetch, hrec⟩ := Res.bind_eq_ok.1 hrec
  cases hrec
  cases h
  obtain ⟨-, hagrees, -⟩ := HB.fetch HI.sound hfetch
  cases hpending : B.pending st.ps.1 with
  | nil =>
    rw [hpending] at hagrees
    exact hagrees.2
  | cons e l =>
    rw [hpending] at hagrees
    obtain ⟨hlen, -⟩ := hagrees
    omega

variable {n : Int} {o₁ o₂ : Out}

theorem epTurn_mem (h : epTurn fuel api.recorded (env.recorded O) st waittime = .ok (ret, st'))
    (hmem : .fetch n o₁ o₂ ∈ st'.ps.2) : .fetch n o₁ o₂ ∈ st.ps.2 := by
  obtain ⟨s, o, hcalls, htr⟩ := epTurn_record h
  rw [htr] at hmem
  exact hcalls.mem (by simpa using hmem)

theorem epFetch_mem (HB : B.Models api) (HI : B.Inv st.ps)
    (h : Libep.epFetch api.recorded st out = .ok (ret, out', st')) (hmem : .fetch n o₁ o₂ ∈ st'.ps.2) :
    .fetch n o₁ o₂ ∈ st.ps.2 ∨ o₁ = out := by
  rw [(HI.epFetch HB h).2, List.mem_append, List.mem_singleton] at hmem
  refine hmem.imp_right fun he => ?_
  cases he
  rfl

/-- Both fetches of `ep_iterate` are through its own pointers. -/
theorem epIterate_mem (HB : B.Models api) (HI : B.Inv st.ps)
    (h : epIterate fuel api.recorded (env.recorded O) st waittime out = .ok (ret, out', st'))
    (hmem : .fetch n o₁ o₂ ∈ st'.ps.2) : .fetch n o₁ o₂ ∈ st.ps.2 ∨ o₁ = out := by
  obtain ⟨⟨m, out₁, st₁⟩, hfetch, h⟩ := Res.bind_eq_ok.1 h
  have HI₁ := (HI.epFetch HB hfetch).1
  dsimp only at h
  split at h
  · next hm =>
    have hout : out₁ = out := HB.out_eq HI hfetch hm
    obtain ⟨⟨m', st₂⟩, hturn, h⟩ := Res.bind_eq_ok.1 h
    have HI₂ : B.Inv st₂.ps := HB.keeps.epTurn HI₁ hturn
    dsimp only at h
    split at h
    · obtain ⟨⟨n', out₂, st₃⟩, hfetch', h⟩ := Res.bind_eq_ok.1 h
      cases h
      rcases epFetch_mem HB HI₂ hfetch' hmem with hmem | ho
      · exact epFetch_mem HB HI hfetch (epTurn_mem hturn hmem)
      · exact .inr (ho.trans hout)
    · cases h
      exact epFetch_mem HB HI hfetch (epTurn_mem hturn hmem)
  · cases h
    exact epFetch_mem HB HI hfetch hmem

theorem loopCall_mem (HB : B.Models api) (HI : B.Inv st.ps) {c : LoopCall K}
    (h : c.exec fuel api.recorded (env.recorded O) st = .ok st') (hmem : .fetch n o₁ o₂ ∈ st'.ps.2) :
    .fetch n o₁ o₂ ∈ st.ps.2 ∨ c.out = some o₁ := by
  cases c with
  | iterate waittime out =>
    obtain ⟨_, hrun, h⟩ := Res.bind_eq_ok.1 h
    cases h
    exact (epIterate_mem HB HI hrun hmem).imp_right fun h => congrArg some h.symm
  | forEachStart waittime =>
    obtain ⟨_, hturn, h⟩ := Res.bind_eq_ok.1 h
    cases h
    exact .inl (epTurn_mem hturn hmem)
  | fetch out =>
    obtain ⟨_, hrun, h⟩ := Res.bind_eq_ok.1 h
    cases h
    exact (epFetch_mem HB HI hrun hmem).imp_right fun h => congrArg some h.symm
  | action a => exact .inl ((a.exec_engine (registered_recorded api) h).1.mem hmem)
  | other f =>
    cases h
    exact .inl hmem

theorem loopRun_mem (HB : B.Models api) (HI : B.Inv st.ps)
    (h : loopRun fuel api.recorded (env.recorded O) st cs = .ok st') (hmem : .fetch n o₁ o₂ ∈ st'.ps.2) :
    .fetch n o₁ o₂ ∈ st.ps.2 ∨ ∃ c ∈ cs, c.out = some o₁ := by
  induction cs generalizing st with
  | nil =>
    cases h
    exact .inl hmem
  | cons c cs ih =>
    obtain ⟨st₁, hc, h⟩ := Res.bind_eq_ok.1 h
    have HI₁ := HB.keeps.loopCall HI (fun _ _ _ _ h => h) hc
    rcases ih HI₁ h with hmem | ⟨c', hc', hout⟩
    · exact (loopCall_mem HB HI hc hmem).imp_right fun h => ⟨c, List.mem_cons_self, h⟩
    · exact .inr ⟨c', List.mem_cons_of_mem _ hc', hout⟩

/-- **A run of the loop uses its engine as a mailbox**: it fetches through the pointers of its calls; if its waits
are exact, the fetches hand out the events of each wait in turn; and if `ep__for_each_start` is not called, all of
them before the next wait. -/
theorem Models.run {st st' : EpLoop P O K} (HB : B.Models api) (hsound : B.Sound st.ps ⟨fun _ => none⟩)
    (hpending : B.pending st.ps = []) (h : loopRun fuel api env st cs = .ok st') :
    ∃ tr, loopRun fuel api.recorded (env.recorded O) (st.record []) cs = .ok (st'.record tr) ∧
      ThroughCalls cs tr ∧
      (B.AllExact tr → B.HandsOut tr ∧ ((∀ waittime, .forEachStart waittime ∉ cs) → B.HandsOutAll tr)) := by
  obtain ⟨tr, hrun⟩ := EpLoop.exists_record [] h
  have hinit : B.Inv (st.record []).ps :=
    ⟨hsound, fun _ => hpending, fun _ pre e post htr => by simp [EpLoop.record] at htr⟩
  have hloss : B.LosslessIf (st.record []).ps.2 := fun _ pre o ret post htr => by
    simp [EpLoop.record] at htr
  have H := HB.keeps.loopRun hinit (fun _ _ _ _ h => h) hrun
  refine ⟨tr, hrun, fun ret out out' hmem => ?_, fun hex => ⟨(H.delivers hex).handsOut,
    fun hcs => (loopRun_lossless HB hinit hloss hcs hrun hex).handsOutAll⟩⟩
  exact (loopRun_mem HB hinit hrun hmem).resolve_left (by simp [EpLoop.record])

/-- If in its states a wait has events with registered data only, this holds of every run. -/
theorem Models.registered {st st' : EpLoop P O K} {tr : List (PollEvent O)} (HB : B.Models api)
    (hwait : ∀ {ps k timeout o ret ps' k' r}, B.Sound ps r → api.wait ps k timeout = .ok (o, ret, ps', k') →
      ∀ e ∈ B.batch r o, ∃ fd, r.data fd = some e.2)
    (hsound : B.Sound st.ps ⟨fun _ => none⟩)
    (hrun : loopRun fuel api.recorded (env.recorded O) (st.record []) cs = .ok (st'.record tr)) :
    B.AllRegistered tr := by
  have hkeeps : Keeps api.recorded (env.recorded O) fun s _ => B.Sound s.1 (registry s.2) ∧ B.AllRegistered s.2 := by
    refine ⟨fun {c s k ret s' k'} H h => ?_, fun {s k timeout o ret s' k'} H h => ?_,
      fun {s k out ret s' out'} H h => ?_, id, id⟩
    · obtain ⟨ps', hexec, rfl⟩ := PollCall.exec_recorded h
      refine ⟨?_, H.2.append_singleton nofun⟩
      rw [registry_append_singleton]
      exact (HB.call H.1 hexec).1
    · obtain ⟨_, hrun, h⟩ := Res.bind_eq_ok.1 h
      cases h
      refine ⟨?_, H.2.append_singleton fun he => ?_⟩
      · rw [registry_append_singleton]
        exact (HB.wait H.1 hrun).1
      · cases he
        exact hwait H.1 hrun
    · obtain ⟨_, hfetch, h⟩ := Res.bind_eq_ok.1 h
      cases h
      refine ⟨?_, H.2.append_singleton nofun⟩
      rw [registry_append_singleton]
      exact (HB.fetch H.1 hfetch).1
  refine (hkeeps.loopRun ⟨hsound, fun pre o ret post htr => ?_⟩ (fun _ _ _ _ h => h) hrun).2
  simp [EpLoop.record] at htr

end

end Mailbox

/-! ### The engines -/

/-- The entries of a buffer below a place, from the last to the first. -/
def bufferBelow {α : Type} (f : Nat → α) : Nat → List α
  | 0 => []
  | n + 1 => f n :: bufferBelow f n

section
variable {α β : Type} {f g : Nat → α} {n : Nat}

@[simp] theorem length_bufferBelow (f : Nat → α) (n : Nat) : (bufferBelow f n).length = n := by
  induction n with
  | zero => rfl
  | succ n ih => rw [bufferBelow, List.length_cons, ih]

/-- A buffer that a list was written to. -/
theorem bufferBelow_eq_reverse {l : List α} (h : ∀ i (hi : i < l.length), f i = l[i]) :
    bufferBelow f l.length = l.reverse := by
  induction l using List.reverseRecOn with
  | nil => rfl
  | append_singleton l a ih =>
    have hlen : (l ++ [a]).length = l.length + 1 := by simp
    rw [List.reverse_append, List.reverse_singleton, List.singleton_append, hlen, bufferBelow]
    refine congr (congrArg _ ?_) (ih fun i hi => ?_)
    · simpa using h l.length (by simp)
    · rw [h i (by omega), List.getElem_append_left hi]

/-- A fetch from a buffer that is not empty. -/
theorem bufferBelow_fetch (B : Mailbox P O) {f : Nat → Delivery} {ready : Int} (h : 0 < ready) (r : Registry)
    (out : Out) :
    B.Agrees r (bufferBelow f ready.toNat)
        (.fetch ready out (out.store (f (ready - 1).toNat).1 (f (ready - 1).toNat).2)) ∧
      bufferBelow f (ready - 1).toNat = (bufferBelow f ready.toNat).tail := by
  obtain ⟨m, hm⟩ := Int.eq_ofNat_of_zero_le (show 0 ≤ ready - 1 by omega)
  obtain rfl : ready = (m + 1 : Nat) := by omega
  rw [hm, Int.toNat_natCast, Int.toNat_natCast, bufferBelow]
  refine ⟨⟨?_, rfl⟩, rfl⟩
  rw [length_bufferBelow]
  rfl

/-- A fetch from an empty buffer. -/
theorem bufferBelow_none (B : Mailbox P O) {f : Nat → Delivery} {ready : Int} (h : ¬0 < ready) (r : Registry)
    (out : Out) :
    B.Agrees r (bufferBelow f ready.toNat) (.fetch 0 out out) ∧
      bufferBelow f ready.toNat = (bufferBelow f ready.toNat).tail := by
  rw [Int.toNat_of_nonpos (Int.not_lt.1 h)]
  exact ⟨⟨rfl, rfl⟩, rfl⟩

end

def EpollEvent.delivery (e : EpollEvent) : Delivery := (epollBits e.events, e.data)

def Kevent.delivery (e : Kevent) : Delivery := (kqueueBits e, e.udata)

def SelectEvent.delivery (e : SelectEvent) : Delivery := (e.events, e.data)

def epollMailbox : Mailbox EpollState WaitOutcome where
  Sound _ _ := True
  pending s := bufferBelow (fun i => (s.ee i).delivery) s.ready.toNat
  batch _ o := (o.events.map EpollEvent.delivery).reverse
  Exact _ := True

/-- The kernel may not store fewer events than it says. -/
def kqueueMailbox : Mailbox KqueueState KeventAnswer where
  Sound _ _ := True
  pending s := bufferBelow (fun i => (s.ee i).delivery) s.ready.toNat
  batch _ o := ((o.2.take o.1.toNat).map Kevent.delivery).reverse
  Exact o := o.1 ≤ o.2.length

/-- A descriptor that is found ready for two kinds of events counts twice, but has one entry. -/
def selectMailbox (size : Nat) : Mailbox SelectState SelectResult where
  Sound s r := ∀ fd, s.watched fd ≠ 0 → fd < size ∧ r.data fd = some (s.data fd)
  pending s := bufferBelow (fun i => (s.ee i).delivery) s.ready.toNat
  batch r o := if 0 < o.ret then
    ((readyFrom o 0 size).map fun fd => (o.event (fun fd => (r.data fd).getD 0) fd).delivery).reverse else []
  Exact := SelectResult.Single

theorem epoll_models (kernel : EpollKernel K) : epollMailbox.Models (epollApi kernel) where
  call {c ps k ret ps' k' r} _ h := by
    rw [c.exec_epoll] at h
    cases h
    exact ⟨trivial, rfl⟩
  wait {ps k timeout o ret ps' k' r} _ h := by
    cases h
    refine ⟨trivial, fun _ => ?_⟩
    generalize (kernel.epoll_wait k ps.efd ps.sz timeout).1 = o
    have hret : o.ret.toNat = (o.events.map EpollEvent.delivery).length := by
      cases o with
      | fail e => exact Int.toNat_of_nonpos (by simp only [WaitOutcome.ret]; omega)
      | batch l => simp [WaitOutcome.ret, WaitOutcome.events]
    refine ⟨?_, hret.trans (List.length_reverse ..).symm⟩
    show bufferBelow _ o.ret.toNat = _
    rw [hret]
    refine bufferBelow_eq_reverse fun i hi => ?_
    rw [List.length_map] at hi
    rw [List.getElem_map]
    exact congrArg _ (List.getD_eq_getElem _ _ hi)
  fetch {ps out ret ps' out' r} _ h := by
    simp only [epollApi, epEpollFetch] at h
    split at h
    · next hpos =>
      split at h
      · cases h
        exact ⟨trivial, bufferBelow_fetch _ hpos r out⟩
      · cases h
    · next hpos =>
      cases h
      exact ⟨trivial, bufferBelow_none _ hpos r out⟩

theorem kqueue_models (kernel : KqueueKernel K) : kqueueMailbox.Models (kqueueApi kernel) where
  call {c ps k ret ps' k' r} _ h := by
    cases c <;>
    · cases h
      exact ⟨trivial, rfl⟩
  wait {ps k timeout o ret ps' k' r} _ h := by
    cases h
    refine ⟨trivial, fun hexact => ?_⟩
    generalize (kernel.kevent_wait k ps.efd ps.sz (kqueueTimeout timeout)).1 = o at hexact ⊢
    have hret : o.1.toNat = ((o.2.take o.1.toNat).map Kevent.delivery).length := by
      have hle : o.1 ≤ o.2.length := hexact
      rw [List.length_map, List.length_take]
      omega
    refine ⟨?_, hret.trans (List.length_reverse ..).symm⟩
    show bufferBelow _ o.1.toNat = _
    rw [hret]
    refine bufferBelow_eq_reverse fun i hi => ?_
    rw [List.length_map, List.length_take] at hi
    rw [List.getElem_map, List.getElem_take]
    exact congrArg _ (List.getD_eq_getElem _ _ (by omega))
  fetch {ps out ret ps' out' r} _ h := by
    simp only [kqueueApi, epKqueueFetch] at h
    split at h
    · next hpos =>
      split at h
      · cases h
        exact ⟨trivial, bufferBelow_fetch _ hpos r out⟩
      · cases h
    · next hpos =>
      cases h
      exact ⟨trivial, bufferBelow_none _ hpos r out⟩

/-- An exact wait writes an entry for each descriptor that was found ready. -/
theorem epSelectWait_entries {size : Nat} {s s' : SelectState} {r : Registry} {timeout : Int32}
    {o : SelectResult} {ret : Int} (hs : (selectMailbox size).Sound s r) (hok : SelectOk s o)
    (hsingle : o.Single) (h : epSelectWait size (fun _ _ _ _ _ => o) s timeout = .ok (ret, s')) :
    o.ret.toNat = (readyFrom o 0 size).length ∧
      ∀ i (hi : i < (readyFrom o 0 size).length),
        s'.ee i = o.event (fun fd => (r.data fd).getD 0) (readyFrom o 0 size)[i] := by
  have hin : ∀ fd ∈ s.rfds ∪ s.wfds ∪ s.efds, s.watched fd ≠ 0 := fun fd hfd => by
    simpa [SelectState.watched_eq_zero, or_assoc, imp_iff_not_or] using hfd
  obtain ⟨s'', hrun, -, hee, -⟩ := @epSelectWait_spec size (fun _ _ _ _ _ => o) s timeout o hok rfl
    fun fd hfd => (hs fd (hin fd hfd)).1
  rw [hrun] at h
  cases h
  constructor
  · rw [length_readyFrom (hok.lt_size fun fd hfd => (hs fd (hin fd hfd)).1), card_ready_eq_iff.2 hsingle, hok.ret]
    rfl
  · intro i hi
    rw [hee i _ (List.getElem?_eq_getElem hi)]
    have hmem : (readyFrom o 0 size)[i] ∈ o.ready := by
      simpa using (List.mem_filter.1 (List.getElem_mem hi)).2
    have hwatched : s.watched (readyFrom o 0 size)[i] ≠ 0 := by
      refine hin _ ?_
      simp only [SelectResult.ready, Finset.mem_union] at hmem ⊢
      exact hmem.imp (Or.imp (hok.rfds ·) (hok.wfds ·)) (hok.efds ·)
    rw [SelectResult.event, SelectResult.event, (hs _ hwatched).2]
    rfl

theorem select_models {size : Nat} {kernel : SelectKernel K} (R : SelectReports kernel) :
    (selectMailbox size).Models (selectApi size kernel) where
  call {c s k ret s' k' r} hs h := by
    by_cases hfd : 0 ≤ c.fd ∧ c.fd < size
    · obtain ⟨j, s₁, hj, hrun, hchanged, hown⟩ := c.exec_select kernel (s := s) hfd.1 hfd.2 k
      obtain ⟨hready, hee⟩ := hchanged.buffer
      rw [hrun] at h
      cases h
      refine ⟨fun i hi => ?_, by simp only [selectMailbox, hready, hee]⟩
      rcases eq_or_ne i j with rfl | hne
      · refine ⟨Int.ofNat_lt.1 (hj ▸ hfd.2), ?_⟩
        show Function.update r.data c.fd c.data (i : Int) = _
        rw [hj, Function.update_self, c.data_eq]
        cases hentry : c.entry with
        | some e => exact congrArg some (hchanged.data e hentry).symm
        | none =>
          rw [hentry] at hown
          refine absurd (hown fun hadd => ?_) hi
          cases (c.ctl_eq_del.2 hentry).symm.trans hadd
      · obtain ⟨hi', hdata⟩ := SelectState.watched_of_holds (hchanged.others i hne) hi
        obtain ⟨hlt, hreg⟩ := hs i hi'
        refine ⟨hlt, ?_⟩
        show Function.update r.data c.fd c.data (i : Int) = _
        rw [Function.update_of_ne (by omega), hreg, hdata]
    · obtain ⟨rfl, rfl⟩ := c.exec_select_out hfd h
      exact ⟨hs, rfl⟩
  wait {s k timeout o ret s' k' r} hs h := by
    obtain ⟨⟨ret, s'⟩, hwait, h⟩ := Res.bind_eq_ok.1 h
    cases h
    generalize ho : (kernel.select k (s.maxfd + 1) s.rfds s.wfds s.efds (selectTimeout timeout)).1 = o
      at hwait ⊢
    have hok : 0 < o.ret → SelectOk s o := ho ▸ R.ok
    obtain ⟨hret, hready, hwatched, hdata⟩ : ret = o.ret ∧ s'.ready = o.ret ∧ s'.watched = s.watched ∧
        s'.data = s.data := by
      obtain ⟨_, hfill, hwait⟩ := Res.bind_eq_ok.1 hwait
      cases hwait
      rw [selectFill_eq hfill]
      exact ⟨rfl, rfl, rfl, rfl⟩
    refine ⟨fun fd hfd => ?_, fun hsingle => ?_⟩
    · rw [hwatched] at hfd
      rw [hdata]
      exact hs fd hfd
    · rw [hret]
      show bufferBelow _ s'.ready.toNat = _ ∧ _
      rw [hready]
      by_cases hpos : 0 < o.ret
      · obtain ⟨hlen, hee⟩ := epSelectWait_entries hs (hok hpos) hsingle hwait
        set l := (readyFrom o 0 size).map fun fd => (o.event (fun fd => (r.data fd).getD 0) fd).delivery with hl
        have hlen' : o.ret.toNat = l.length := by rw [hl, List.length_map, hlen]
        have hbatch : (selectMailbox size).batch r o = l.reverse := if_pos hpos
        rw [hbatch, List.length_reverse, hlen']
        refine ⟨bufferBelow_eq_reverse fun i hi => ?_, rfl⟩
        rw [List.length_map] at hi
        rw [hee i hi, List.getElem_map]
      · have hbatch : (selectMailbox size).batch r o = [] := if_neg hpos
        rw [Int.toNat_of_nonpos (Int.not_lt.1 hpos), hbatch]
        exact ⟨rfl, rfl⟩
  fetch {s out ret s' out' r} hs h := by
    obtain ⟨⟨⟨ret, e⟩, s'⟩, hfetch, h⟩ := Res.bind_eq_ok.1 h
    cases h
    unfold epSelectFetch at hfetch
    split at hfetch
    · next hpos =>
      split at hfetch
      · cases hfetch
        exact ⟨hs, bufferBelow_fetch (selectMailbox size) hpos r out⟩
      · cases hfetch
    · next hpos =>
      cases hfetch
      exact ⟨hs, bufferBelow_none (selectMailbox size) hpos r out⟩

/-- The events of an exact wait of the select engine are those of registered descriptors. -/
theorem select_registered {size : Nat} {kernel : SelectKernel K} (R : SelectReports kernel) {s s' : SelectState}
    {k k' : K} {timeout : Int32} {o : SelectResult} {ret : Int} {r : Registry} (hs : (selectMailbox size).Sound s r)
    (h : (selectApi size kernel).wait s k timeout = .ok (o, ret, s', k')) :
    ∀ e ∈ (selectMailbox size).batch r o, ∃ fd, r.data fd = some e.2 := by
  obtain ⟨_, -, h⟩ := Res.bind_eq_ok.1 h
  cases h
  generalize ho : (kernel.select k (s.maxfd + 1) s.rfds s.wfds s.efds (selectTimeout timeout)).1 = o
  have hok : 0 < o.ret → SelectOk s o := ho ▸ R.ok
  intro e he
  simp only [selectMailbox] at he
  split at he
  · next hpos =>
    rw [List.mem_reverse] at he
    obtain ⟨fd, hfd, rfl⟩ := List.mem_map.1 he
    have hready : fd ∈ o.ready := of_decide_eq_true (List.mem_filter.1 hfd).2
    have hwatched : s.watched fd ≠ 0 := by
      intro h0
      obtain ⟨hr, hw, he⟩ := SelectState.watched_eq_zero.1 h0
      simp only [SelectResult.ready, Finset.mem_union] at hready
      rcases hready with (hready | hready) | hready
      · exact hr ((hok hpos).rfds hready)
      · exact hw ((hok hpos).wfds hready)
      · exact he ((hok hpos).efds hready)
    have hdata := (hs fd hwatched).2
    exact ⟨fd, by rw [hdata, SelectEvent.delivery, SelectResult.event, hdata]; rfl⟩
  · cases he

/-- The events of the epoll engine have registered data, if this is all that the kernel reports. -/
theorem epoll_registered {tr : List (PollEvent WaitOutcome)} (H : Registers WaitOutcome.Reports tr) :
    epollMailbox.AllRegistered tr := by
  intro pre o ret post htr e he
  obtain ⟨e, hmem, rfl⟩ := List.mem_map.1 (List.mem_reverse.1 he)
  exact H pre o ret post _ htr ⟨e, hmem, rfl⟩

/-- **Every engine hands out what its waits report**, over every run of `ep_iterate`, `ep__for_each_start`,
`ep_fetch` and the calls in between: the fetches after a wait store its events through the pointers of these calls,
from the last to the first, and without `ep__for_each_start` none is dropped. For the kqueue engine the kernel must
store as many events as it says; for the select engine no descriptor may be ready for two kinds of events at once.
If the kernel reports what was registered with it, and nobody else registers with it, the events of the epoll and
the select engine have the data that is registered at the wait, and those of the kqueue engine have that of the last
call that asked for their filters, or, once a call for their descriptors has failed, that of some call for them. -/
theorem engines_hand_out {fuel : Nat} {cs : List (LoopCall K)} :
    (∀ {kernel : EpollKernel K} {env : Env EpollState K} {st st' : EpLoop EpollState WaitOutcome K},
      st.ps.ready ≤ 0 → loopRun fuel (epollApi kernel) env st cs = .ok st' →
      ∃ tr, loopRun fuel (epollApi kernel).recorded (env.recorded WaitOutcome) (st.record []) cs =
          .ok (st'.record tr) ∧
        ThroughCalls cs tr ∧ epollMailbox.HandsOut tr ∧
        ((∀ waittime, .forEachStart waittime ∉ cs) → epollMailbox.HandsOutAll tr) ∧
        ∀ R : EpollReports kernel, (∀ fd, R.table st.world st.ps.efd fd = none) →
          Undisturbed (epollReporter R).Watched env cs → epollMailbox.AllRegistered tr) ∧
    (∀ {kernel : KqueueKernel K} {env : Env KqueueState K} {st st' : EpLoop KqueueState KeventAnswer K},
      st.ps.ready ≤ 0 → loopRun fuel (kqueueApi kernel) env st cs = .ok st' →
      ∃ tr, loopRun fuel (kqueueApi kernel).recorded (env.recorded KeventAnswer) (st.record []) cs =
          .ok (st'.record tr) ∧
        ThroughCalls cs tr ∧
        (kqueueMailbox.AllExact tr → kqueueMailbox.HandsOut tr ∧
          ((∀ waittime, .forEachStart waittime ∉ cs) → kqueueMailbox.HandsOutAll tr)) ∧
        ∀ R : KqueueReports kernel, (∀ x, R.enabled st.world st.ps.efd x = none) →
          Undisturbed R.Watched env cs → KqueueOffers tr) ∧
    (∀ {size : Nat} {kernel : SelectKernel K} {env : Env SelectState K}
      {st st' : EpLoop SelectState SelectResult K}, SelectReports kernel →
      st.ps.ready ≤ 0 → (∀ fd, st.ps.watched fd = 0) →
      loopRun fuel (selectApi size kernel) env st cs = .ok st' →
      ∃ tr, loopRun fuel (selectApi size kernel).recorded (env.recorded SelectResult) (st.record []) cs =
          .ok (st'.record tr) ∧
        ThroughCalls cs tr ∧
        ((selectMailbox size).AllExact tr → (selectMailbox size).HandsOut tr ∧
          ((∀ waittime, .forEachStart waittime ∉ cs) → (selectMailbox size).HandsOutAll tr)) ∧
        (selectMailbox size).AllRegistered tr) := by
  have hnone : ∀ {α : Type} (f : Nat → α) {ready : Int}, ready ≤ 0 → bufferBelow f ready.toNat = [] := by
    intro α f ready h
    rw [Int.toNat_of_nonpos h]
    rfl
  refine ⟨fun {kernel env st st'} hready h => ?_, fun {kernel env st st'} hready h => ?_,
    fun {size kernel env st st'} R hready hwatched h => ?_⟩
  · obtain ⟨tr, hrun, hthrough, H⟩ := (epoll_models kernel).run trivial (hnone _ hready) h
    obtain ⟨hout, hall⟩ := H fun _ _ _ => trivial
    refine ⟨tr, hrun, hthrough, hout, hall, fun R htable hE => epoll_registered ?_⟩
    have hw {fd d} : ¬(epollReporter R).Watched st.ps st.world fd d := by
      intro h
      obtain ⟨e, he, -⟩ := h
      rw [htable] at he
      cases he
    have hp {d} : ¬(epollReporter R).Pending st.ps d := fun ⟨i, hi, _⟩ => by omega
    exact (R.reports_epoll.inv hE trivial hw hp hrun).registers
  · obtain ⟨tr, hrun, hthrough, H⟩ := (kqueue_models kernel).run trivial (hnone _ hready) h
    refine ⟨tr, hrun, hthrough, H, fun R hnone hE => KqueueReports.run_offers hE (fun x d hw => ?_) hrun⟩
    cases (hnone x).symm.trans hw
  · have hsound : (selectMailbox size).Sound st.ps ⟨fun _ => none⟩ := fun fd hfd => absurd (hwatched fd) hfd
    obtain ⟨tr, hrun, hthrough, H⟩ := (select_models R).run hsound (hnone _ hready) h
    exact ⟨tr, hrun, hthrough, H, (select_models R).registered (select_registered R) hsound hrun⟩

/-- A kernel that keeps the enabled filters in a table, and has a list of filters for each of its waits; it
reports those that are in the table, as far as the caller has room for them. -/
structure FilterWorld where
  enabled : (kq : Int) → Enabled
  found : List (List (Int × Int16))

def FilterWorld.events (k : FilterWorld) (kq nevents : Int) : List Kevent :=
  ((k.found.headD []).filterMap fun x => (k.enabled kq x).map fun d => ⟨x.1, x.2, 0, d⟩).take nevents.toNat

/-- Only an enabled filter can be deleted. -/
def reportingKqueue : KqueueKernel FilterWorld where
  kevent_change k kq c _ :=
    if c.flags ≠ evAdd ∧ k.enabled kq (c.ident, c.filter) = none then (-1, k)
    else (0, { k with enabled := Function.update k.enabled kq (c.enable (k.enabled kq)) })
  kevent_wait k kq nevents _ :=
    (((k.events kq nevents).length, k.events kq nevents), { k with found := k.found.tail })
  wait_le k kq nevents timeout h := by
    simp only [FilterWorld.events, List.length_take] at h ⊢
    omega

def reportingKqueueReports : KqueueReports reportingKqueue where
  enabled := FilterWorld.enabled
  change {k kq c timeout x d} _ hret h := by
    simp only [reportingKqueue] at hret h
    split at h
    · next hfail => exact absurd (by rw [if_pos hfail]) hret
    · dsimp only at h
      rwa [Function.update_self] at h
  change_fail {k kq c timeout x d} hret h := by
    simp only [reportingKqueue] at hret h
    split at h
    · exact h
    · next hok =>
      rw [if_neg hok] at hret
      cases hret
  wait_enabled h := h
  reports {k kq nevents timeout} e h := by
    obtain ⟨x, -, hx⟩ := List.mem_filterMap.1 (List.mem_of_mem_take (List.mem_of_mem_take h))
    obtain ⟨d, hd, rfl⟩ := Option.map_eq_some_iff.1 hx
    exact hd

/-- Both descriptors are found ready to read in the first two waits. -/
def bothFound : FilterWorld :=
  ⟨fun _ _ => none, [[(3, evfiltRead), (4, evfiltRead)], [(3, evfiltRead), (4, evfiltRead)]]⟩

theorem engines_hand_out_sample :
    (∃ st' tr, loopRun 1 (epollApi tableEpoll).recorded (idleEnv.recorded WaitOutcome)
      ((loopOn freshEpoll bothReady).record []) removingCalls = .ok (EpLoop.record st' tr) ∧
        ThroughCalls (K := TableWorld) removingCalls tr ∧ epollMailbox.HandsOut tr ∧ epollMailbox.HandsOutAll tr ∧
        epollMailbox.AllRegistered tr) ∧
    (∃ st' tr, loopRun 1 (kqueueApi reportingKqueue).recorded (idleEnv.recorded KeventAnswer)
      ((loopOn freshKqueue bothFound).record []) removingCalls = .ok (EpLoop.record st' tr) ∧
        ThroughCalls (K := FilterWorld) removingCalls tr ∧ kqueueMailbox.HandsOut tr ∧
        kqueueMailbox.HandsOutAll tr ∧ KqueueOffers tr) ∧
    ∃ st' tr, loopRun 1 (selectApi 8 readySelect).recorded (idleEnv.recorded SelectResult)
      ((loopOn freshSelect [{3, 4}, {3, 4}]).record []) removingCalls = .ok (EpLoop.record st' tr) ∧
        ThroughCalls (K := List (Finset Nat)) removingCalls tr ∧ (selectMailbox 8).HandsOut tr ∧
        (selectMailbox 8).HandsOutAll tr ∧ (selectMailbox 8).AllRegistered tr := by
  have hcs {K : Type} : ∀ waittime, LoopCall.forEachStart waittime ∉ removingCalls (K := K) := by
    simp [removingCalls]
  refine ⟨?_, ?_, ?_⟩
  · obtain ⟨tr, hrun, hthrough, hout, hall, hreg⟩ := @(@engines_hand_out _ 1 removingCalls).1 tableEpoll idleEnv
      (loopOn freshEpoll bothReady) _ (by decide) rfl
    exact ⟨_, tr, hrun, hthrough, hout, hall hcs, hreg tableEpollReports (fun _ => rfl)
      ⟨id, fun _ _ => id, fun h => by simp [removingCalls] at h⟩⟩
  · obtain ⟨tr, hrun, hthrough, h, hoffers⟩ := @(@engines_hand_out _ 1 removingCalls).2.1 reportingKqueue idleEnv
      (loopOn freshKqueue bothFound) _ (by decide) rfl
    have hexact : kqueueMailbox.AllExact tr := by
      intro o ret hmem
      cases hrun
      change PollEvent.wait o ret ∈ [.call _ _, .call _ _, .fetch _ _ _, .wait _ _, .fetch _ _ _, .call _ _,
        .fetch _ _ _, .fetch _ _ _, .wait _ _, .fetch _ _ _] at hmem
      simp only [List.mem_cons, List.not_mem_nil, PollEvent.wait.injEq, reduceCtorEq, false_or, or_false] at hmem
      rcases hmem with ⟨rfl, -⟩ | ⟨rfl, -⟩
      · exact Int.le_refl _
      · exact Int.le_refl _
    obtain ⟨hout, hall⟩ := h hexact
    exact ⟨_, tr, hrun, hthrough, hout, hall hcs, hoffers reportingKqueueReports (fun _ => rfl)
      ⟨id, fun _ _ => id, fun h => by simp [removingCalls] at h⟩⟩
  · obtain ⟨tr, hrun, hthrough, h, hreg⟩ := @(@engines_hand_out _ 1 removingCalls).2.2 8 readySelect idleEnv
      (loopOn freshSelect [{3, 4}, {3, 4}]) _ readySelect_reports (by decide) (fun _ => rfl) rfl
    have hexact : (selectMailbox 8).AllExact tr := by
      intro r ret hmem
      cases hrun
      change PollEvent.wait r ret ∈ [.call _ _, .call _ _, .fetch _ _ _, .wait _ _, .fetch _ _ _, .call _ _,
        .fetch _ _ _, .fetch _ _ _, .wait _ _, .fetch _ _ _] at hmem
      simp only [List.mem_cons, List.not_mem_nil, PollEvent.wait.injEq, reduceCtorEq, false_or,
        or_false] at hmem
      rcases hmem with ⟨rfl, -⟩ | ⟨rfl, -⟩
      · exact ⟨disjoint_bot_right, disjoint_bot_right, disjoint_bot_right⟩
      · exact ⟨disjoint_bot_right, disjoint_bot_right, disjoint_bot_right⟩
    obtain ⟨hout, hall⟩ := h hexact
    exact ⟨_, tr, hrun, hthrough, hout, hall hcs, hreg⟩

end Libep

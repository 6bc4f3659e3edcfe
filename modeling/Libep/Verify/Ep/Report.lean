import Libep.Verify.Ep.Keeps
import Libep.Verify.Ep.Record

/-!
# What the record of an engine says of its events

The calls in a record say which data is registered for each descriptor, and the answers in it which data a wait
has reported. A record is `Backed` if nothing is delivered but what the last wait has reported, of descriptors
that were registered. The data of a removed descriptor is then delivered before the next wait only. A `Reporter`
has what a record of an engine needs for this.
-/

namespace Libep

namespace PollCall

/-- The data that a call registers for its descriptor. -/
def data : PollCall → Option UInt64
  | add _ _ data | mod _ _ data => some data
  | del _ => none

end PollCall

/-- The data registered for each descriptor. -/
structure Registry where
  data : (fd : Int) → Option UInt64

variable {P O K : Type}

namespace PollEvent

/-- A call that returns 0 changes the data of its descriptor. -/
def register (r : Registry) : PollEvent O → Registry
  | call c ret => if ret = 0 then ⟨Function.update r.data c.fd c.data⟩ else r
  | wait _ _ | fetch _ _ _ => r

def IsWait : PollEvent O → Prop
  | wait _ _ => True
  | call _ _ | fetch _ _ _ => False

end PollEvent

/-- What is registered after the calls of a record, from an engine without registrations. -/
def registry (tr : List (PollEvent O)) : Registry := tr.foldl PollEvent.register ⟨fun _ => none⟩

section
variable (reports : Registry → O → UInt64 → Prop)

/-- The last wait of a record has reported the data `d`, and it was the data of a registered descriptor. What
the answer of a wait reports, given the registrations, is `reports`. -/
def Reported (tr : List (PollEvent O)) (d : UInt64) : Prop :=
  ∃ pre o ret mid, tr = pre ++ .wait o ret :: mid ∧ (∀ e ∈ mid, ¬e.IsWait) ∧ reports (registry pre) o d ∧
    ∃ fd, (registry pre).data fd = some d

/-- Every event delivered has data that the last wait has reported. -/
def Backed (tr : List (PollEvent O)) : Prop :=
  ∀ pre ret out out' post d, tr = pre ++ .fetch ret out out' :: post → 0 < ret → out'.data = some d →
    Reported reports pre d

/-- Every wait reports data that is registered when it is made. -/
def Registers (tr : List (PollEvent O)) : Prop :=
  ∀ pre o ret post d, tr = pre ++ .wait o ret :: post → reports (registry pre) o d → ∃ fd, (registry pre).data fd = some d

/-- After a del that returned 0, the data of its descriptor is delivered only if the last wait before the del has
reported it, and no other wait was made since; or if the data was registered again; or if another descriptor had
it too. -/
def Retired (tr : List (PollEvent O)) : Prop :=
  ∀ pre fd mid ret out out' post d, tr = pre ++ .call (.del fd) 0 :: mid ++ .fetch ret out out' :: post →
    (registry pre).data fd = some d → 0 < ret → out'.data = some d →
      (Reported reports pre d ∧ ∀ e ∈ mid, ¬e.IsWait) ∨
      (∃ c, .call c 0 ∈ mid ∧ c.data = some d) ∨
      ∃ fd' ≠ fd, (registry pre).data fd' = some d

end

section
variable {reports : Registry → O → UInt64 → Prop} {tr pre mid : List (PollEvent O)} {e : PollEvent O}
  {r : Registry} {fd : Int} {d : UInt64}

theorem PollEvent.register_data (h : (e.register r).data fd = some d) :
    r.data fd = some d ∨ ∃ c, e = .call c 0 ∧ c.data = some d := by
  cases e with
  | wait | fetch => exact .inl h
  | call c ret =>
    simp only [register] at h
    split at h
    · rename_i hret
      dsimp only at h
      rcases eq_or_ne fd c.fd with rfl | hne
      · rw [Function.update_self] at h
        exact .inr ⟨c, hret ▸ rfl, h⟩
      · rw [Function.update_of_ne hne] at h
        exact .inl h
    · exact .inl h

/-- A del that returns 0 leaves the other descriptors. -/
theorem PollEvent.register_del {fd' : Int}
    (h : ((call (.del fd) 0 : PollEvent O).register r).data fd' = some d) :
    fd' ≠ fd ∧ r.data fd' = some d := by
  rcases eq_or_ne fd' fd with rfl | hne
  · cases (Function.update_self ..).symm.trans h
  · exact ⟨hne, (Function.update_of_ne hne ..).symm.trans h⟩

theorem registry_append_singleton : registry (tr ++ [e]) = e.register (registry tr) := by
  unfold registry
  rw [List.foldl_append]
  rfl

/-- What is registered was so before, or a call has registered it since. -/
theorem registry_data_append (h : (registry (pre ++ mid)).data fd = some d) :
    (registry pre).data fd = some d ∨ ∃ c, .call c 0 ∈ mid ∧ c.data = some d := by
  induction mid using List.reverseRecOn with
  | nil => exact .inl (List.append_nil pre ▸ h)
  | append_singleton mid e ih =>
    rw [← List.append_assoc, registry_append_singleton] at h
    rcases e.register_data h with h | ⟨c, rfl, hc⟩
    · exact (ih h).imp_right fun ⟨c, hmem, hc⟩ => ⟨c, List.mem_append_left _ hmem, hc⟩
    · exact .inr ⟨c, List.mem_append_right _ List.mem_cons_self, hc⟩

/-- A call that does not wait leaves what is reported. -/
theorem Reported.append_singleton (H : Reported reports tr d) (he : ¬e.IsWait) :
    Reported reports (tr ++ [e]) d := by
  obtain ⟨pre, o, ret, mid, rfl, hmid, hreports⟩ := H
  refine ⟨pre, o, ret, mid ++ [e], by rw [List.append_assoc]; rfl, fun e' he' => ?_, hreports⟩
  rcases List.mem_append.1 he' with he' | he'
  · exact hmid e' he'
  · exact List.mem_singleton.1 he' ▸ he

/-- What is reported after a del was so before it, if no wait was made since; else it was registered before, for
another descriptor, or a call has registered it since. -/
theorem Reported.of_del (h : Reported reports (pre ++ .call (.del fd) 0 :: mid) d) :
    (Reported reports pre d ∧ ∀ e ∈ mid, ¬e.IsWait) ∨
      (∃ c, .call c 0 ∈ mid ∧ c.data = some d) ∨ ∃ fd' ≠ fd, (registry pre).data fd' = some d := by
  obtain ⟨pre', o, ret, mid', hsplit, hmid, hreports, fd', hfd'⟩ := h
  rcases List.append_eq_append_iff.1 hsplit with ⟨l, hpre', hl⟩ | ⟨l, hpre, hl⟩
  · -- the wait was made after the del
    cases l with
    | nil => cases hl
    | cons e l =>
      obtain ⟨rfl, rfl⟩ := List.cons.inj hl
      rw [hpre', List.append_cons] at hfd'
      rcases registry_data_append hfd' with h | ⟨c, hmem, hc⟩
      · rw [registry_append_singleton] at h
        exact .inr (.inr ⟨fd', PollEvent.register_del h⟩)
      · exact .inr (.inl ⟨c, List.mem_append_left _ hmem, hc⟩)
  · -- or before it
    cases l with
    | nil => cases hl
    | cons e l =>
      obtain ⟨rfl, rfl⟩ := List.cons.inj hl
      have hl : ∀ e ∈ l, ¬e.IsWait := fun e he => hmid e (List.mem_append_left _ he)
      refine .inl ⟨⟨pre', o, ret, l, hpre, hl, hreports, fd', hfd'⟩, fun e he => hmid e ?_⟩
      exact List.mem_append_right _ (List.mem_cons_of_mem _ he)

theorem Backed.retired (H : Backed reports tr) : Retired reports tr := by
  intro pre fd mid ret out out' post d htr _ hret hout
  exact (H _ _ _ _ _ _ htr hret hout).of_del

theorem Backed.nil : Backed reports ([] : List (PollEvent O)) := by
  intro pre ret out out' post d h
  simp at h

/-- What holds at each place of a record, after one more call. -/
theorem split_append_singleton {Q : List (PollEvent O) → PollEvent O → Prop}
    (H : ∀ pre e post, tr = pre ++ e :: post → Q pre e) (h : Q tr e) :
    ∀ pre e' post, tr ++ [e] = pre ++ e' :: post → Q pre e' := by
  intro pre e' post htr
  rcases post.eq_nil_or_concat with rfl | ⟨post, e'', rfl⟩
  · obtain ⟨rfl, he⟩ := List.append_inj' htr rfl
    cases he
    exact h
  · rw [List.concat_eq_append, ← List.cons_append, ← List.append_assoc] at htr
    obtain ⟨rfl, -⟩ := List.append_inj' htr rfl
    exact H _ _ _ rfl

theorem Backed.append_singleton (H : Backed reports tr)
    (he : ∀ {ret out out' d}, e = .fetch ret out out' → 0 < ret → out'.data = some d → Reported reports tr d) :
    Backed reports (tr ++ [e]) := fun pre ret out out' post d htr =>
  split_append_singleton (Q := fun pre e => ∀ ret out out' d, e = .fetch ret out out' → 0 < ret →
    out'.data = some d → Reported reports pre d)
    (fun pre _ post htr ret out out' d he => H pre ret out out' post d (he ▸ htr)) (fun _ _ _ _ => he)
    pre _ post htr ret out out' d rfl

theorem Registers.append_singleton (H : Registers reports tr)
    (he : ∀ {o ret d}, e = .wait o ret → reports (registry tr) o d → ∃ fd, (registry tr).data fd = some d) :
    Registers reports (tr ++ [e]) := fun pre o ret post d htr =>
  split_append_singleton (Q := fun pre e => ∀ o ret d, e = .wait o ret → reports (registry pre) o d →
    ∃ fd, (registry pre).data fd = some d)
    (fun pre _ post htr o ret d he => H pre o ret post d (he ▸ htr)) (fun _ _ _ => he) pre _ post htr o ret d rfl

end

/-! ### Engines that report what they watch -/

/-- What the clock, the callbacks and the program do beside their calls watches nothing more. -/
structure Undisturbed {X : Type} (Watched : P → K → X → (data : UInt64) → Prop) (env : Env P K)
    (cs : List (LoopCall K)) : Prop where
  clock : ∀ {ps k x d}, Watched ps (env.gettimeofday k).2 x d → Watched ps k x d
  callback : ∀ c (st : EpState P K) {x d}, Watched st.ps (env.callback c st).2 x d → Watched st.ps st.world x d
  other : ∀ {f ps k x d}, .other f ∈ cs → Watched ps (f k) x d → Watched ps k x d

/-- What the laws below are about: the states they hold in, the data an engine watches a descriptor
with, the data it has still to deliver, the answers of the kernel that count its events right, and the data that
an answer reports. -/
structure Reporter (P O K : Type) where
  Sound : P → Prop
  Watched : P → K → (fd : Int) → (data : UInt64) → Prop
  Pending : P → (data : UInt64) → Prop
  Exact : O → Prop
  Reports : Registry → O → (data : UInt64) → Prop

namespace Reporter
variable (R : Reporter P O K)

/-- Only a call watches a descriptor with new data. Only a wait has new data to deliver; it is what the wait reports,
and this is data of descriptors watched at the time. -/
structure ReportedBy (api : PollApi P O K) : Prop where
  call : ∀ {c : PollCall} {ps k ret ps' k'}, R.Sound ps → c.exec api ps k = .ok (ret, ps', k') →
    R.Sound ps' ∧ (∀ {d}, R.Pending ps' d → R.Pending ps d) ∧
      ∀ {fd d}, R.Watched ps' k' fd d →
        (fd = c.fd ∧ ret = 0 ∧ c.data = some d) ∨ (fd = c.fd → ret ≠ 0) ∧ R.Watched ps k fd d
  wait : ∀ {ps k timeout o ret ps' k'}, R.Sound ps → api.wait ps k timeout = .ok (o, ret, ps', k') →
    R.Sound ps' ∧ (∀ {fd d}, R.Watched ps' k' fd d → R.Watched ps k fd d) ∧
      ∀ {r : Registry}, (∀ {fd d}, R.Watched ps k fd d → r.data fd = some d) →
        (∀ {d}, R.Reports r o d → ∃ fd, r.data fd = some d) ∧
        (R.Exact o → ∀ {d}, R.Pending ps' d → R.Reports r o d)
  fetch : ∀ {ps out ret ps' out'}, R.Sound ps → api.fetch ps out = .ok (ret, ps', out') →
    R.Sound ps' ∧ (∀ {d}, R.Pending ps' d → R.Pending ps d) ∧
      (∀ {k fd d}, R.Watched ps' k fd d → R.Watched ps k fd d) ∧
      ∀ {d}, 0 < ret → out'.data = some d → R.Pending ps d

/-- Every wait of a record was counted right. -/
def AllExact (tr : List (PollEvent O)) : Prop := ∀ o ret, .wait o ret ∈ tr → R.Exact o

/-- The engine and its record. -/
structure Inv (s : P × List (PollEvent O)) (k : K) : Prop where
  sound : R.Sound s.1
  watched : ∀ {fd d}, R.Watched s.1 k fd d → (registry s.2).data fd = some d
  pending : R.AllExact s.2 → ∀ {d}, R.Pending s.1 d → Reported R.Reports s.2 d
  backed : R.AllExact s.2 → Backed R.Reports s.2
  registers : Registers R.Reports s.2

variable {R} {api : PollApi P O K} {env : Env P K} {cs : List (LoopCall K)} {ps : P} {k k' : K}
variable {tr : List (PollEvent O)} {e : PollEvent O}

theorem AllExact.left (h : R.AllExact (tr ++ [e])) : R.AllExact tr :=
  fun o ret hmem => h o ret (List.mem_append_left _ hmem)

/-- What else is done to the world. -/
theorem Inv.world {s : P × List (PollEvent O)} (H : R.Inv s k)
    (h : ∀ {fd d}, R.Watched s.1 k' fd d → R.Watched s.1 k fd d) : R.Inv s k' :=
  { H with watched := fun hw => H.watched (h hw) }

theorem Inv.call (HR : R.ReportedBy api) {s s' : P × List (PollEvent O)} {c : PollCall} {ret : Int}
    (H : R.Inv s k) (h : c.exec api.recorded s k = .ok (ret, s', k')) : R.Inv s' k' := by
  obtain ⟨ps', hexec, rfl⟩ := PollCall.exec_recorded h
  obtain ⟨hsound, hpending, hwatched⟩ := HR.call H.sound hexec
  refine ⟨hsound, fun {fd d} hw => ?_, fun hex {d} hp => ?_, fun hex => ?_, H.registers.append_singleton nofun⟩
  · rw [registry_append_singleton]
    simp only [PollEvent.register]
    rcases hwatched hw with ⟨rfl, rfl, hd⟩ | ⟨hne, hw⟩
    · exact (Function.update_self ..).trans hd
    · split
      · rename_i hret
        exact (Function.update_of_ne (fun heq => hne heq hret) ..).trans (H.watched hw)
      · exact H.watched hw
  · exact (H.pending hex.left (hpending hp)).append_singleton id
  · exact (H.backed hex.left).append_singleton nofun

theorem Inv.wait (HR : R.ReportedBy api) {s s' : P × List (PollEvent O)} {timeout : Int32} {o : O}
    {ret : Int} (H : R.Inv s k) (h : api.recorded.wait s k timeout = .ok (o, ret, s', k')) :
    R.Inv s' k' := by
  obtain ⟨⟨o, ret, ps', k'⟩, hwait, h⟩ := Res.bind_eq_ok.1 h
  cases h
  obtain ⟨hsound, hwatched, hreports⟩ := HR.wait H.sound hwait
  obtain ⟨hregistered, hpending⟩ := hreports H.watched
  refine ⟨hsound, fun {fd d} hw => ?_, fun hex {d} hp => ?_, fun hex => ?_, H.registers.append_singleton ?_⟩
  · rw [registry_append_singleton]
    exact H.watched (hwatched hw)
  · have hexact := hex o ret (List.mem_append_right _ List.mem_cons_self)
    have hd := hpending hexact hp
    exact ⟨s.2, o, ret, [], rfl, by simp, hd, hregistered hd⟩
  · exact (H.backed hex.left).append_singleton nofun
  · intro o' ret' d he
    cases he
    exact hregistered

theorem Inv.fetch (HR : R.ReportedBy api) {s s' : P × List (PollEvent O)} {out out' : Out} {ret : Int}
    (H : R.Inv s k) (h : api.recorded.fetch s out = .ok (ret, s', out')) : R.Inv s' k := by
  obtain ⟨⟨ret, ps', out'⟩, hfetch, h⟩ := Res.bind_eq_ok.1 h
  cases h
  obtain ⟨hsound, hpending, hwatched, hout⟩ := HR.fetch H.sound hfetch
  refine ⟨hsound, fun {fd d} hw => ?_, fun hex {d} hp => ?_, fun hex => ?_, H.registers.append_singleton nofun⟩
  · rw [registry_append_singleton]
    exact H.watched (hwatched hw)
  · exact (H.pending hex.left (hpending hp)).append_singleton id
  · refine (H.backed hex.left).append_singleton fun he hret hd => ?_
    cases he
    exact H.pending hex.left (hout hret hd)

theorem ReportedBy.keeps (HR : R.ReportedBy api) (HE : Undisturbed R.Watched env cs) :
    Keeps api.recorded (env.recorded O) R.Inv where
  call H h := H.call HR h
  wait H h := H.wait HR h
  fetch H h := H.fetch HR h
  clock H := H.world HE.clock
  callback {c st} H := H.world (HE.callback c { st with ps := st.ps.1 })

variable {fuel : Nat} {st st' : EpLoop P O K}

/-- What holds of the record of a run. -/
theorem ReportedBy.inv (HR : R.ReportedBy api) (HE : Undisturbed R.Watched env cs) (hsound : R.Sound st.ps)
    (hw : ∀ {fd d}, ¬R.Watched st.ps st.world fd d) (hp : ∀ {d}, ¬R.Pending st.ps d)
    (hrun : loopRun fuel api.recorded (env.recorded O) (st.record []) cs = .ok (st'.record tr)) :
    R.Inv (st'.record tr).ps (st'.record tr).world := by
  refine (HR.keeps HE).loopRun ?_ (fun f hf _ _ H => H.world (HE.other hf)) hrun
  exact ⟨hsound, fun h => absurd h hw, fun _ _ h => absurd h hp, fun _ => Backed.nil,
    fun pre o ret post d h => by simp [EpLoop.record] at h⟩

/-- **A run delivers only what the last wait has reported**, if its waits were counted right. -/
theorem ReportedBy.run (HR : R.ReportedBy api) (HE : Undisturbed R.Watched env cs) (hsound : R.Sound st.ps)
    (hw : ∀ {fd d}, ¬R.Watched st.ps st.world fd d) (hp : ∀ {d}, ¬R.Pending st.ps d)
    (h : loopRun fuel api env st cs = .ok st') :
    ∃ tr, loopRun fuel api.recorded (env.recorded O) (st.record []) cs = .ok (st'.record tr) ∧
      (R.AllExact tr → Retired R.Reports tr) := by
  obtain ⟨tr, hrun⟩ := EpLoop.exists_record [] h
  exact ⟨tr, hrun, fun hex => ((HR.inv HE hsound hw hp hrun).backed hex).retired⟩

end Reporter

end Libep

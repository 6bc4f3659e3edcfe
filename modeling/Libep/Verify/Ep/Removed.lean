import Libep.Verify.Ep.Agree
import Libep.Verify.Ep.Report
import Libep.Verify.Select.Registry

/-!
# Removed descriptors

`ep_del` takes a descriptor from the engine and leaves the buffer alone, so an event that was reported
before is still delivered. The next wait overwrites the buffer; from then on the data of the descriptor
is delivered only if it is registered again. For the select engine this needs a count that is right:
otherwise a fetch reads what an earlier wait left in the buffer.
-/

namespace Libep

variable {P O K : Type}

theorem epFetch_record {api : PollApi P O K} {st st' : EpLoop (P × List (PollEvent O)) O K}
    {out out' : Out} {ret : Int} (h : epFetch api.recorded st out = .ok (ret, out', st')) :
    ∃ tr, st'.ps.2 = tr ++ [.fetch ret out out'] ∧
      api.fetch st.ps.1 out = .ok (ret, st'.ps.1, out') := by
  obtain ⟨_, hrec, h⟩ := Res.bind_eq_ok.1 h
  obtain ⟨_, hfetch, hrec⟩ := Res.bind_eq_ok.1 hrec
  cases hrec
  cases h
  exact ⟨_, rfl, hfetch⟩

/-- What `ep_iterate` delivers, it has fetched with its last call of the engine. -/
def DeliversFetched (api : PollApi P O K) : Prop :=
  ∀ {fuel : Nat} {env : Env P K} {st st' : EpLoop (P × List (PollEvent O)) O K} {waittime : Int32} {out out' : Out}
    {ret : Int}, epIterate fuel api.recorded (env.recorded O) st waittime out = .ok (ret, out', st') → 0 < ret →
    ∃ tr n out₀, st'.ps.2 = tr ++ [.fetch n out₀ out'] ∧ 0 < n

theorem PollApi.Announces.deliversFetched {api : PollApi P O K} (H : api.Announces) : DeliversFetched api := by
  intro fuel env st st' waittime out out' ret h hret
  obtain ⟨⟨n, out₁, st₁⟩, hfetch, h⟩ := Res.bind_eq_ok.1 h
  dsimp only at h
  split at h
  · obtain ⟨⟨m, st₂⟩, hturn, h⟩ := Res.bind_eq_ok.1 h
    dsimp only at h
    split at h
    · -- the fetch after the wait
      rename_i hm
      obtain ⟨⟨n', out₂, st₃⟩, hfetch', h⟩ := Res.bind_eq_ok.1 h
      cases h
      obtain ⟨_, _, _, -, -, -, hwait⟩ := epTurn_ok hturn
      obtain ⟨_, -, hwait⟩ := Res.bind_eq_ok.1 hwait
      obtain ⟨_, hwait, hst₂⟩ := Res.bind_eq_ok.1 hwait
      obtain ⟨_, hapi, hrec⟩ := Res.bind_eq_ok.1 hwait
      cases hrec
      cases hst₂
      obtain ⟨tr, hps, hapi'⟩ := epFetch_record hfetch'
      exact ⟨tr, n', _, hps, H.fetch hapi hm hapi'⟩
    · cases h
      omega
  · cases h
    obtain ⟨tr, hps, -⟩ := epFetch_record hfetch
    exact ⟨tr, ret, _, hps, hret⟩

/-! ### The epoll engine -/

/-- What the kernel keeps and reports: a call of `epoll_ctl` that returns 0 changes the entry of its
descriptor, and another one changes nothing; `epoll_wait` reports the data of registered descriptors, and
registers none. -/
structure EpollReports {K : Type} (kernel : EpollKernel K) where
  table : K → (efd : Int) → (fd : Int) → Option EpollEvent
  ctl : ∀ {k efd op fd e}, (op = .del ↔ e = none) → (kernel.epoll_ctl k efd op fd e).1 = 0 →
    table (kernel.epoll_ctl k efd op fd e).2 efd = Function.update (table k efd) fd e
  ctl_fail : ∀ {k efd op fd e}, (op = .del ↔ e = none) → (kernel.epoll_ctl k efd op fd e).1 ≠ 0 →
    table (kernel.epoll_ctl k efd op fd e).2 efd = table k efd
  wait_table : ∀ {k efd maxevents timeout efd' fd e},
    table (kernel.epoll_wait k efd maxevents timeout).2 efd' fd = some e → table k efd' fd = some e
  reports : ∀ {k efd maxevents timeout},
    ∀ e ∈ (kernel.epoll_wait k efd maxevents timeout).1.events,
      ∃ fd e', table k efd fd = some e' ∧ e'.data = e.data

/-- `epoll_wait` reports the data of the events it stores. -/
def WaitOutcome.Reports (_ : Registry) (o : WaitOutcome) (d : UInt64) : Prop := ∃ e ∈ o.events, e.data = d

/-- A descriptor is watched with the data of its entry. -/
def epollReporter {kernel : EpollKernel K} (R : EpollReports kernel) :
    Reporter EpollState WaitOutcome K where
  Sound _ := True
  Watched s k fd d := ∃ e, R.table k s.efd fd = some e ∧ e.data = d
  Pending s d := ∃ i : Nat, (i : Int) < s.ready ∧ (s.ee i).data = d
  Exact _ := True
  Reports := WaitOutcome.Reports

namespace PollCall

theorem data_eq (c : PollCall) : c.data = c.entry.map EpollEvent.data := by
  cases c <;> rfl

end PollCall

theorem mem_of_storeEvents {events : List EpollEvent} {ee : Nat → EpollEvent} {i : Nat}
    (h : i < events.length) : storeEvents events ee i ∈ events := by
  unfold storeEvents
  rw [List.getD_eq_getElem _ _ h]
  exact List.getElem_mem h

theorem lt_length_of_ret {o : WaitOutcome} {i : Nat} (h : (i : Int) < o.ret) : i < o.events.length := by
  cases o with
  | fail e =>
    simp only [WaitOutcome.ret] at h
    omega
  | batch events => exact Int.ofNat_lt.1 h

theorem EpollReports.reports_epoll {kernel : EpollKernel K} (R : EpollReports kernel) :
    (epollReporter R).ReportedBy (epollApi kernel) where
  call {c ps k ret ps' k'} _ h := by
    rw [c.exec_epoll] at h
    cases h
    refine ⟨trivial, id, fun {fd d} hw => ?_⟩
    obtain ⟨e, he, rfl⟩ := hw
    by_cases hret : (kernel.epoll_ctl k ps.efd c.ctl c.fd c.entry).1 = 0
    · rw [R.ctl c.ctl_eq_del hret] at he
      rcases eq_or_ne fd c.fd with hfd | hne
      · rw [hfd, Function.update_self] at he
        refine .inl ⟨hfd, hret, ?_⟩
        rw [c.data_eq, he]
        rfl
      · rw [Function.update_of_ne hne] at he
        exact .inr ⟨fun hfd => absurd hfd hne, e, he, rfl⟩
    · rw [R.ctl_fail c.ctl_eq_del hret] at he
      exact .inr ⟨fun _ => hret, e, he, rfl⟩
  wait {ps k timeout o ret ps' k'} _ h := by
    cases h
    refine ⟨trivial, fun {fd d} hw => ?_, fun {r} hreg => ⟨fun {d} hd => ?_, fun _ {d} hp => ?_⟩⟩
    · obtain ⟨e, he, hd⟩ := hw
      exact ⟨e, R.wait_table he, hd⟩
    · obtain ⟨e, hmem, rfl⟩ := hd
      obtain ⟨fd, e', he', hd⟩ := R.reports e hmem
      exact ⟨fd, hreg ⟨e', he', hd⟩⟩
    · obtain ⟨i, hi, rfl⟩ := hp
      exact ⟨_, mem_of_storeEvents (lt_length_of_ret hi), rfl⟩
  fetch {ps out ret ps' out'} _ h := by
    simp only [epollApi, epEpollFetch] at h
    split at h
    · rename_i hpos
      split at h
      · cases h
        refine ⟨trivial, fun {d} hp => ?_, id, fun {d} _ hout => ?_⟩
        · obtain ⟨i, hi, hd⟩ := hp
          exact ⟨i, hi.trans (Int.sub_one_lt_of_le (Int.le_refl _)), hd⟩
        · refine ⟨(ps.ready - 1).toNat, by omega, ?_⟩
          obtain ⟨_, -, hd⟩ := Option.map_eq_some_iff.1 hout
          exact hd
      · cases h
    · cases h
      exact ⟨trivial, id, id, fun hret => absurd hret (Int.lt_irrefl 0)⟩

/-! ### The select engine -/

/-- `select(2)` does what it promises whenever it returns a positive number. -/
structure SelectReports {K : Type} (kernel : SelectKernel K) : Prop where
  ok : ∀ {k} {s : SelectState} {timeout},
    0 < (kernel.select k (s.maxfd + 1) s.rfds s.wfds s.efds timeout).1.ret →
      SelectOk s (kernel.select k (s.maxfd + 1) s.rfds s.wfds s.efds timeout).1

/-- The descriptors that `select(2)` found ready are each in one of the sets only, so that its result is
their number. -/
def SelectResult.Single (r : SelectResult) : Prop :=
  Disjoint r.rfds r.wfds ∧ Disjoint r.rfds r.efds ∧ Disjoint r.wfds r.efds

/-- A `select(2)` that returns a positive number reports the data of the descriptors that it finds ready. -/
def SelectResult.Reports (r : Registry) (o : SelectResult) (d : UInt64) : Prop :=
  0 < o.ret ∧ ∃ fd ∈ o.ready, r.data fd = some d

/-- A descriptor is watched, with the data of its entry, if it is in one of the sets. -/
def selectReporter (size : Nat) (K : Type) : Reporter SelectState SelectResult K where
  Sound s := ∀ {i}, s.watched i ≠ 0 → i < size
  Watched s _ fd d := ∃ i : Nat, (i : Int) = fd ∧ s.watched i ≠ 0 ∧ s.data i = d
  Pending s d := ∃ i : Nat, (i : Int) < s.ready ∧ (s.ee i).data = d
  Exact := SelectResult.Single
  Reports := SelectResult.Reports

namespace SelectState
variable {s s' : SelectState} {i : Nat}

/-- Where a call leaves what it holds for a descriptor, it leaves it watched with the same data. -/
theorem watched_of_holds (H : ∀ e, s.Holds i e → s'.Holds i e) (h : s'.watched i ≠ 0) :
    s.watched i ≠ 0 ∧ s'.data i = s.data i := by
  refine ⟨fun h0 => h (H none h0), ?_⟩
  have := H (some ⟨epollMask (s.watched i), s.data i⟩) rfl
  exact (congrArg EpollEvent.data this).symm

end SelectState

variable {size : Nat} {kernel : SelectKernel K}

theorem setData_bound {s s' : SelectState} {fd : Int} {data : UInt64}
    (h : setData size s fd data = .ok s') : 0 ≤ fd ∧ fd < size := by
  unfold setData at h
  split at h
  · assumption
  · cases h

theorem fdClr_bound {fd : Int} {set set' : Finset Nat} (h : fdClr size fd set = .ok set') :
    0 ≤ fd ∧ fd < size := by
  unfold fdClr at h
  split at h
  · assumption
  · cases h

/-- A call for a descriptor outside the sets changes nothing, if it returns. -/
theorem PollCall.exec_select_out (c : PollCall) {s s' : SelectState} {k k' : K} {ret : Int}
    (hfd : ¬(0 ≤ c.fd ∧ c.fd < size))
    (h : c.exec (selectApi size kernel) s k = .ok (ret, s', k')) : ret = -1 ∧ s' = s := by
  cases c with
  | add fd events data =>
    obtain ⟨_, hadd, h⟩ := Res.bind_eq_ok.1 h
    cases h
    unfold epSelectAdd at hadd
    split at hadd
    · cases hadd
      exact ⟨rfl, rfl⟩
    · simp only [Res.bind_eq_ok] at hadd
      obtain ⟨_, -, _, -, _, -, _, hdata, -⟩ := hadd
      exact absurd (setData_bound hdata) hfd
  | mod fd events data =>
    obtain ⟨_, hmod, h⟩ := Res.bind_eq_ok.1 h
    cases h
    unfold epSelectMod at hmod
    split at hmod
    · cases hmod
      exact ⟨rfl, rfl⟩
    · simp only [Res.bind_eq_ok] at hmod
      obtain ⟨_, -, _, -, _, -, _, hdata, -⟩ := hmod
      exact absurd (setData_bound hdata) hfd
  | del fd =>
    obtain ⟨_, hdel, h⟩ := Res.bind_eq_ok.1 h
    obtain ⟨_, hclr, -⟩ := Res.bind_eq_ok.1 hdel
    exact absurd (fdClr_bound hclr) hfd

/-- A wait that returns a positive number leaves in the buffer, up to that number, data of watched
descriptors that are ready. -/
theorem epSelectWait_pending {s s' : SelectState} {timeout : Int32} {r : SelectResult} {ret : Int}
    (hs : ∀ {i}, s.watched i ≠ 0 → i < size) (H : 0 < r.ret → SelectOk s r) (hr : r.Single)
    (h : epSelectWait size (fun _ _ _ _ _ => r) s timeout = .ok (ret, s')) {i : Nat}
    (hi : (i : Int) < s'.ready) :
    0 < r.ret ∧ ∃ fd ∈ r.ready, s.watched fd ≠ 0 ∧ s.data fd = (s'.ee i).data := by
  have hready : s'.ready = r.ret := by
    obtain ⟨_, hfill, h⟩ := Res.bind_eq_ok.1 h
    cases h
    exact congrArg SelectState.ready (selectFill_eq hfill)
  have hpos : 0 < r.ret := by omega
  have hok := H hpos
  have hin : ∀ fd ∈ s.rfds ∪ s.wfds ∪ s.efds, fd < size := by
    intro fd hfd
    apply hs
    simpa [SelectState.watched_eq_zero, or_assoc, imp_iff_not_or] using hfd
  obtain ⟨s'', hrun, -, hee, -⟩ := @epSelectWait_spec size (fun _ _ _ _ _ => r) s timeout r hok rfl hin
  rw [hrun] at h
  cases h
  have hlt : i < (readyFrom r 0 size).length := by
    rw [length_readyFrom (hok.lt_size hin), card_ready_eq_iff.2 hr, ← Int.ofNat_lt, ← hok.ret]
    exact hready ▸ hi
  have hfd := List.getElem?_eq_getElem hlt
  have hmem := of_decide_eq_true (List.mem_filter.1 (List.getElem_mem hlt)).2
  refine ⟨hpos, _, hmem, ?_, (congrArg SelectEvent.data (hee i _ hfd)).symm⟩
  simp only [SelectResult.ready, Finset.mem_union] at hmem
  intro h0
  obtain ⟨hr, hw, he⟩ := SelectState.watched_eq_zero.1 h0
  rcases hmem with (hmem | hmem) | hmem
  · exact hr (hok.rfds hmem)
  · exact hw (hok.wfds hmem)
  · exact he (hok.efds hmem)

/-- The engine reports what it watches. -/
theorem SelectReports.reports_select (H : SelectReports kernel) :
    (selectReporter size K).ReportedBy (selectApi size kernel) where
  call {c s k ret s' k'} hs h := by
    by_cases hfd : 0 ≤ c.fd ∧ c.fd < size
    · obtain ⟨j, s₁, hj, hrun, hchanged, hown⟩ := c.exec_select kernel (s := s) hfd.1 hfd.2 k
      obtain ⟨hready, hee⟩ := hchanged.buffer
      rw [hrun] at h
      cases h
      refine ⟨fun {i} hi => ?_, fun {d} hp => ?_, fun {fd d} hw => ?_⟩
      · rcases eq_or_ne i j with rfl | hne
        · exact Int.ofNat_lt.1 (hj ▸ hfd.2)
        · exact hs (SelectState.watched_of_holds (hchanged.others i hne) hi).1
      · obtain ⟨i, hi, hd⟩ := hp
        exact ⟨i, hready ▸ hi, hee ▸ hd⟩
      · obtain ⟨i, rfl, hi, hd⟩ := hw
        rcases eq_or_ne i j with rfl | hne
        · refine .inl ⟨hj, rfl, ?_⟩
          cases hentry : c.entry with
          | some e =>
            rw [c.data_eq, hentry, ← hd, hchanged.data e hentry]
            rfl
          | none =>
            rw [hentry] at hown
            refine absurd (hown fun hadd => ?_) hi
            cases (c.ctl_eq_del.2 hentry).symm.trans hadd
        · obtain ⟨hi', hdata⟩ := SelectState.watched_of_holds (hchanged.others i hne) hi
          refine .inr ⟨fun h => ?_, i, rfl, hi', hdata ▸ hd⟩
          exact absurd (Int.ofNat_inj.1 (h.trans hj.symm)) hne
    · obtain ⟨rfl, rfl⟩ := c.exec_select_out hfd h
      exact ⟨hs, id, fun hw => .inr ⟨fun _ => by decide, hw⟩⟩
  wait {s k timeout r ret s' k'} hs h := by
    obtain ⟨⟨ret, s'⟩, hwait, h⟩ := Res.bind_eq_ok.1 h
    cases h
    have hsame : s'.watched = s.watched ∧ s'.data = s.data := by
      obtain ⟨_, hfill, hwait⟩ := Res.bind_eq_ok.1 hwait
      cases hwait
      rw [selectFill_eq hfill]
      exact ⟨rfl, rfl⟩
    refine ⟨fun {i} hi => hs (hsame.1 ▸ hi), fun {fd d} hw => ?_, fun {r} hreg => ⟨fun {d} hd => ?_,
      fun hr d hp => ?_⟩⟩
    · obtain ⟨i, rfl, hi, hd⟩ := hw
      exact ⟨i, rfl, hsame.1 ▸ hi, hsame.2 ▸ hd⟩
    · obtain ⟨-, fd, -, hfd⟩ := hd
      exact ⟨fd, hfd⟩
    · obtain ⟨i, hi, rfl⟩ := hp
      obtain ⟨hpos, fd, hready, hfd, hd⟩ := epSelectWait_pending hs H.ok hr hwait hi
      exact ⟨hpos, fd, hready, hreg ⟨fd, rfl, hfd, hd⟩⟩
  fetch {s out ret s' out'} hs h := by
    obtain ⟨⟨⟨ret, e⟩, s'⟩, hfetch, h⟩ := Res.bind_eq_ok.1 h
    cases h
    unfold epSelectFetch at hfetch
    split at hfetch
    · rename_i hpos
      split at hfetch
      · cases hfetch
        refine ⟨hs, fun {d} hp => ?_, id, fun {d} _ hout => ?_⟩
        · obtain ⟨i, hi, hd⟩ := hp
          exact ⟨i, hi.trans (Int.sub_one_lt_of_le (Int.le_refl _)), hd⟩
        · refine ⟨(s.ready - 1).toNat, by omega, ?_⟩
          obtain ⟨_, -, hd⟩ := Option.map_eq_some_iff.1 hout
          exact hd
      · cases hfetch
    · cases hfetch
      exact ⟨hs, id, id, fun hret => absurd hret (Int.lt_irrefl 0)⟩

/-- **The data of a removed descriptor is delivered before the next wait only**, unless it is registered
again, in every run of the loop on the epoll and the select engine from a state without registrations
and events. For the select engine this holds of the runs in which no wait finds a descriptor ready
twice. `ep_iterate` delivers nothing but what is fetched. -/
theorem removed_not_reported :
    (∀ {K : Type} {kernel : EpollKernel K} (R : EpollReports kernel) {fuel : Nat}
      {env : Env EpollState K} {cs : List (LoopCall K)} {st st' : EpLoop EpollState WaitOutcome K},
      st.ps.ready ≤ 0 → (∀ fd, R.table st.world st.ps.efd fd = none) →
      Undisturbed (epollReporter R).Watched env cs →
      loopRun fuel (epollApi kernel) env st cs = .ok st' →
      ∃ tr, loopRun fuel (epollApi kernel).recorded (env.recorded WaitOutcome) (st.record []) cs =
          .ok (st'.record tr) ∧ Retired WaitOutcome.Reports tr) ∧
    (∀ {size : Nat} {K : Type} {kernel : SelectKernel K} (_ : SelectReports kernel) {fuel : Nat}
      {env : Env SelectState K} {cs : List (LoopCall K)} {st st' : EpLoop SelectState SelectResult K},
      st.ps.ready ≤ 0 → (∀ fd, st.ps.watched fd = 0) →
      loopRun fuel (selectApi size kernel) env st cs = .ok st' →
      ∃ tr, loopRun fuel (selectApi size kernel).recorded (env.recorded SelectResult) (st.record []) cs =
          .ok (st'.record tr) ∧ ((∀ r ret, .wait r ret ∈ tr → r.Single) → Retired SelectResult.Reports tr)) ∧
    (∀ {K : Type} (kernel : EpollKernel K), DeliversFetched (epollApi kernel)) ∧
    ∀ {size : Nat} {K : Type} (kernel : SelectKernel K), DeliversFetched (selectApi size kernel) := by
  refine ⟨?_, ?_, fun kernel => (epollApi_announces kernel).deliversFetched,
    fun kernel => (selectApi_announces _ kernel).deliversFetched⟩
  · intro K kernel R fuel env cs st st' hready hnone hE h
    have hw {fd d} : ¬(epollReporter R).Watched st.ps st.world fd d := by
      intro h
      obtain ⟨e, he, -⟩ := h
      rw [hnone] at he
      cases he
    have hp {d} : ¬(epollReporter R).Pending st.ps d := fun ⟨i, hi, _⟩ => by omega
    obtain ⟨tr, hrun, H⟩ := R.reports_epoll.run hE trivial hw hp h
    exact ⟨tr, hrun, H fun _ _ _ => trivial⟩
  · intro size K kernel R fuel env cs st st' hready hnone h
    have hE : Undisturbed (selectReporter size K).Watched env cs := ⟨id, fun _ _ _ _ => id, fun _ => id⟩
    have hs : (selectReporter size K).Sound st.ps := fun hi => absurd (hnone _) hi
    have hw {fd d} : ¬(selectReporter size K).Watched st.ps st.world fd d :=
      fun ⟨i, _, hi, _⟩ => hi (hnone i)
    have hp {d} : ¬(selectReporter size K).Pending st.ps d := fun ⟨i, hi, _⟩ => by omega
    exact R.reports_select.run hE hs hw hp h

/-- The kernel `tableEpoll` reports what is registered. -/
theorem TableWorld.reports {k : TableWorld} {efd maxevents : Int} {e : EpollEvent}
    (h : e ∈ (k.wait efd maxevents).events) : ∃ fd e', k.table efd fd = some e' ∧ e'.data = e.data := by
  obtain ⟨r, -, he⟩ := List.mem_filterMap.1 (List.mem_of_mem_take h)
  obtain ⟨e', he', rfl⟩ := Option.map_eq_some_iff.1 he
  exact ⟨r.1, e', he', rfl⟩

def tableEpollReports : EpollReports tableEpoll where
  table := tableEpollTable.table
  ctl := tableEpollTable.ctl_zero
  ctl_fail := tableEpollTable.ctl_ne_zero
  wait_table h := h
  reports _ := TableWorld.reports

/-- A `select(2)` that finds the watched ones of some descriptors ready to read, for each wait in turn. -/
def readySelect : SelectKernel (List (Finset Nat)) where
  select k nfds rfds _ _ _ :=
    let found := (k.headD ∅ ∩ rfds).filter fun fd : Nat => (fd : Int) < nfds
    (⟨found.card, found, ∅, ∅⟩, k.tail)

theorem readySelect_reports : SelectReports readySelect where
  ok {k s timeout} _ := by
    refine ⟨fun fd h => ?_, Finset.empty_subset _, Finset.empty_subset _, fun fd h => ?_, rfl⟩
    · exact (Finset.mem_inter.1 (Finset.mem_filter.1 h).1).2
    · simp only [SelectResult.ready, readySelect, Finset.union_empty, Finset.mem_filter] at h
      exact Int.le_of_lt_add_one h.2

/-- The clock stands still, and callbacks do nothing. -/
def idleEnv : Env P K where
  gettimeofday k := (⟨0, 0⟩, k)
  callback _ st := ([], st.world)

/-- A loop without tasks and timers. -/
def loopOn (ps : P) (world : K) : EpLoop P O K where
  ps
  tasks := (freshLoop []).tasks
  timer := (freshLoop []).timer
  world
  log := []

/-- Two descriptors are registered, and one of them is removed after the first delivery. -/
def removingCalls : List (LoopCall K) :=
  [.action (.add 3 epReadable 30), .action (.add 4 epReadable 40), .iterate (-1) ⟨some 0, some 0⟩,
    .action (.del 3), .iterate (-1) ⟨some 0, some 0⟩, .iterate (-1) ⟨some 0, some 0⟩]

/-- Both are ready in the first two waits. -/
def bothReady : TableWorld :=
  ⟨fun _ _ => none, [[(3, epollIn), (4, epollIn)], [(3, epollIn), (4, epollIn)]]⟩

theorem removed_not_reported_sample :
    (∃ st' tr, loopRun 1 (epollApi tableEpoll).recorded (idleEnv.recorded WaitOutcome)
      ((loopOn freshEpoll bothReady).record []) removingCalls = .ok (EpLoop.record st' tr) ∧
        Retired WaitOutcome.Reports tr) ∧
    ∃ st' tr, loopRun 1 (selectApi 8 readySelect).recorded (idleEnv.recorded SelectResult)
      ((loopOn freshSelect [{3, 4}, {3, 4}]).record []) removingCalls = .ok (EpLoop.record st' tr) ∧
        Retired SelectResult.Reports tr := by
  constructor
  · obtain ⟨tr, h⟩ := @removed_not_reported.1 TableWorld tableEpoll tableEpollReports 1 idleEnv removingCalls
      (loopOn freshEpoll bothReady) _ (by decide) (fun _ => rfl) ⟨id, fun _ _ => id, fun h => nomatch h⟩ rfl
    exact ⟨_, tr, h⟩
  · obtain ⟨tr, hrun, h⟩ := @removed_not_reported.2.1 8 _ readySelect readySelect_reports 1 idleEnv
      removingCalls (loopOn freshSelect [{3, 4}, {3, 4}]) _ (by decide) (fun _ => rfl) rfl
    refine ⟨_, tr, hrun, h fun r ret hmem => ?_⟩
    cases hrun
    change PollEvent.wait r ret ∈ [.call _ _, .call _ _, .fetch _ _ _, .wait _ _, .fetch _ _ _, .call _ _,
      .fetch _ _ _, .fetch _ _ _, .wait _ _, .fetch _ _ _] at hmem
    simp only [List.mem_cons, List.not_mem_nil, PollEvent.wait.injEq, reduceCtorEq, false_or,
      or_false] at hmem
    rcases hmem with ⟨rfl, -⟩ | ⟨rfl, -⟩
    · exact ⟨disjoint_bot_right, disjoint_bot_right, disjoint_bot_right⟩
    · exact ⟨disjoint_bot_right, disjoint_bot_right, disjoint_bot_right⟩

/-- The data of a removed descriptor is not delivered before the descriptor is registered again. -/
def NeverReported (tr : List (PollEvent O)) : Prop :=
  ∀ pre fd mid ret out out' post d, tr = pre ++ .call (.del fd) 0 :: mid ++ .fetch ret out out' :: post →
    (registry pre).data fd = some d → 0 < ret → out'.data = some d →
      ∃ c, .call c 0 ∈ mid ∧ c.fd = fd ∧ c.ctl ≠ .del

/-- A wait reports both descriptors; after the first delivery descriptor 3 is removed, and its data is
delivered next. -/
theorem removed_reported :
    ∃ st', loopRun 1 (epollApi tableEpoll).recorded (idleEnv.recorded WaitOutcome)
      ((loopOn freshEpoll bothReady).record []) removingCalls = .ok st' ∧ ¬NeverReported st'.ps.2 := by
  refine ⟨_, rfl, fun h => ?_⟩
  obtain ⟨c, hc, -⟩ := h
    [.call (.add 3 epReadable 30) 0, .call (.add 4 epReadable 40) 0, .fetch 0 ⟨some 0, some 0⟩ ⟨some 0, some 0⟩,
      .wait (.batch [⟨epollIn, 30⟩, ⟨epollIn, 40⟩]) 2, .fetch 2 ⟨some 0, some 0⟩ ⟨some epReadable, some 40⟩]
    3 [] 1 ⟨some 0, some 0⟩ ⟨some epReadable, some 30⟩
    [.fetch 0 ⟨some 0, some 0⟩ ⟨some 0, some 0⟩, .wait (.batch [⟨epollIn, 40⟩]) 1,
      .fetch 1 ⟨some 0, some 0⟩ ⟨some epReadable, some 40⟩]
    30 rfl rfl (by decide) rfl
  cases hc

end Libep

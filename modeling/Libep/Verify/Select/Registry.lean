import Libep.Verify.Epoll.Table
import Libep.Verify.Select.Range

/-!
# The registrations of the select and the epoll engine

The two engines get the same calls. `ep_select_add` and its siblings take every call, and an add leaves the
bits of an earlier one; the kernel rejects a call that does not fit its table. The maps are the same
on every descriptor for which no call was rejected that the select engine took and has kept.
-/

namespace Libep

namespace SelectState
variable (s : SelectState) (fd : Nat)

/-- The events a descriptor is watched for. -/
def watched : UInt32 := readyBits s.rfds s.wfds s.efds fd

/-- What the state has for a descriptor is what the entry of the kernel says. -/
def Holds : Option EpollEvent → Prop
  | some e => e = ⟨epollMask (s.watched fd), s.data fd⟩
  | none => s.watched fd = 0

/-- A descriptor is in the sets of the bits of `events`. -/
structure Watches (events : UInt32) : Prop where
  rfds : fd ∈ s.rfds ↔ events &&& epReadable ≠ 0
  wfds : fd ∈ s.wfds ↔ events &&& epWritable ≠ 0
  efds : fd ∈ s.efds ↔ events &&& epExcept ≠ 0

end SelectState

namespace PollCall

/-- The results of the calls, when those that do not fit the table are rejected. -/
def results : (Int → Option EpollEvent) → List PollCall → List Int
  | _, [] => []
  | table, c :: cs => (if c.Accepted table then 0 else -1) :: results (c.record table) cs

/-- The table after the calls. -/
def recordAll (table : Int → Option EpollEvent) (cs : List PollCall) : Int → Option EpollEvent :=
  cs.foldl (fun table c => c.record table) table

/-- After a call: the descriptors for which an add or a mod was rejected, and neither a del was made nor a
mod accepted since. -/
def reject (table : Int → Option EpollEvent) (bad : Finset Int) (c : PollCall) : Finset Int :=
  match c.ctl with
  | .add => if c.Accepted table then bad else insert c.fd bad
  | .mod => if c.Accepted table then bad.erase c.fd else insert c.fd bad
  | .del => bad.erase c.fd

/-- The same after all the calls. -/
def rejected : (Int → Option EpollEvent) → Finset Int → List PollCall → Finset Int
  | _, bad, [] => bad
  | table, bad, c :: cs => rejected (c.record table) (c.reject table bad) cs

variable {table : Int → Option EpollEvent} {bad : Finset Int} {c : PollCall} {fd : Int}

theorem mem_reject_of_ne (h : fd ≠ c.fd) : fd ∈ c.reject table bad ↔ fd ∈ bad := by
  unfold reject
  cases c.ctl with
  | add => by_cases hc : c.Accepted table <;> simp [hc, h]
  | mod => by_cases hc : c.Accepted table <;> simp [hc, h]
  | del => simp [h]

/-- An accepted add leaves its descriptor as it was. -/
theorem mem_of_accepted (hc : c.Accepted table) (hadd : c.ctl = .add) (h : c.fd ∉ c.reject table bad) :
    c.fd ∉ bad := by
  simpa [reject, hadd, hc] using h

theorem ctl_of_notMem_reject (hc : ¬c.Accepted table) (h : c.fd ∉ c.reject table bad) :
    c.ctl = .del := by
  cases hctl : c.ctl with
  | add => simp [reject, hctl, hc] at h
  | mod => simp [reject, hctl, hc] at h
  | del => rfl

end PollCall

/-! ### Bits and sets -/

section
variable {size fd : Nat} {s : SelectState} {events : UInt32}

theorem SelectState.watched_eq_zero :
    s.watched fd = 0 ↔ fd ∉ s.rfds ∧ fd ∉ s.wfds ∧ fd ∉ s.efds := by
  have := @readyBits_ne_zero ⟨0, s.rfds, s.wfds, s.efds⟩ fd
  rw [← not_iff_not, SelectState.watched, ← Ne, this]
  simp only [SelectResult.ready, Finset.mem_union]
  tauto

/-- The kernel gets the same mask for the events and for the bits the sets hold of them. -/
theorem SelectState.Watches.epollMask_eq (H : s.Watches fd events) :
    epollMask (s.watched fd) = epollMask events := by
  have hr := H.rfds
  have hw := H.wfds
  have he := H.efds
  by_cases h1 : fd ∈ s.rfds <;> by_cases h2 : fd ∈ s.wfds <;> by_cases h3 : fd ∈ s.efds <;>
    simp_all [SelectState.watched, readyBits, epollMask] <;> decide

theorem SelectState.Watches.holds {data : UInt64} (H : s.Watches fd events) (hd : s.data fd = data) :
    s.Holds fd (some ⟨epollMask events, data⟩) := by
  rw [SelectState.Holds, H.epollMask_eq, hd]

/-- What the state has for a descriptor depends on the sets and the data at it. -/
theorem SelectState.Holds.congr {s' : SelectState} {e : Option EpollEvent} (H : s.Holds fd e)
    (hr : fd ∈ s'.rfds ↔ fd ∈ s.rfds) (hw : fd ∈ s'.wfds ↔ fd ∈ s.wfds)
    (he : fd ∈ s'.efds ↔ fd ∈ s.efds) (hd : s'.data fd = s.data fd) : s'.Holds fd e := by
  have hwatched : s'.watched fd = s.watched fd := by
    simp only [SelectState.watched, readyBits, hr, hw, he]
  cases e with
  | none => exact hwatched.trans H
  | some e => rw [SelectState.Holds, hwatched, hd]; exact H

theorem addWhen_mem (events bit : UInt32) (set : Finset Nat) (h : fd < size) :
    ∃ set', addWhen size events bit fd set = .ok set' ∧
      ∀ i, i ∈ set' ↔ i ∈ set ∨ i = fd ∧ events &&& bit ≠ 0 := by
  unfold addWhen
  split
  · refine ⟨_, fdSet_eq set h, fun i => ?_⟩
    simp_all [or_comm]
  · exact ⟨set, rfl, fun i => by simp_all⟩

theorem setTo_mem (events bit : UInt32) (set : Finset Nat) (h : fd < size) :
    ∃ set', setTo size events bit fd set = .ok set' ∧
      ∀ i, i ∈ set' ↔ if i = fd then events &&& bit ≠ 0 else i ∈ set := by
  unfold setTo
  split
  · refine ⟨_, fdSet_eq set h, fun i => ?_⟩
    by_cases hi : i = fd <;> simp_all
  · refine ⟨_, fdClr_eq set h, fun i => ?_⟩
    by_cases hi : i = fd <;> simp_all

/-- `s'` differs from `s` in what it holds for `fd` only, where it has the data of the entry `e`. -/
structure SelectState.Changed (s s' : SelectState) (fd : Nat) (e : Option EpollEvent) : Prop where
  buffer : s'.ready = s.ready ∧ s'.ee = s.ee
  others : ∀ i ≠ fd, ∀ e, s.Holds i e → s'.Holds i e
  data : ∀ x ∈ e, s'.data fd = x.data

/-- An add makes the entry of its descriptor if nothing is there. -/
theorem epSelectAdd_spec (events : UInt32) (data : UInt64) (h : fd < size) :
    ∃ s', epSelectAdd size s fd events data = .ok (0, s') ∧
      s.Changed s' fd (some ⟨epollMask events, data⟩) ∧
      (s.watched fd = 0 → s'.Holds fd (some ⟨epollMask events, data⟩)) := by
  obtain ⟨R', hR, hRm⟩ := addWhen_mem events epReadable s.rfds h
  obtain ⟨W', hW, hWm⟩ := addWhen_mem events epWritable s.wfds h
  obtain ⟨E', hE, hEm⟩ := addWhen_mem events epExcept s.efds h
  refine ⟨{ s with
      rfds := R', wfds := W', efds := E'
      maxfd := if (fd : Int) > s.maxfd then fd else s.maxfd
      data := Function.update s.data fd data }, ?_, ⟨⟨rfl, rfl⟩, fun i hne e H => ?_, fun e he => ?_⟩,
    fun h0 => ?_⟩
  · simp only [epSelectAdd, if_neg (show ¬(fd : Int) ≥ size by omega), hR, hW, hE,
      setData_eq _ data h, Res.ok_bind, Res.pure_eq]
  · exact H.congr (by simp [hRm, hne]) (by simp [hWm, hne]) (by simp [hEm, hne])
      (Function.update_of_ne hne ..)
  · cases he
    exact Function.update_self ..
  · obtain ⟨h1, h2, h3⟩ := SelectState.watched_eq_zero.1 h0
    refine SelectState.Watches.holds ⟨?_, ?_, ?_⟩ (Function.update_self ..)
    · simp [hRm, h1]
    · simp [hWm, h2]
    · simp [hEm, h3]

/-- A mod makes the entry of its descriptor. -/
theorem epSelectMod_spec (events : UInt32) (data : UInt64) (h : fd < size) :
    ∃ s', epSelectMod size s fd events data = .ok (0, s') ∧
      s.Changed s' fd (some ⟨epollMask events, data⟩) ∧
      s'.Holds fd (some ⟨epollMask events, data⟩) := by
  obtain ⟨R', hR, hRm⟩ := setTo_mem events epReadable s.rfds h
  obtain ⟨W', hW, hWm⟩ := setTo_mem events epWritable s.wfds h
  obtain ⟨E', hE, hEm⟩ := setTo_mem events epExcept s.efds h
  refine ⟨{ s with
      rfds := R', wfds := W', efds := E', data := Function.update s.data fd data }, ?_,
    ⟨⟨rfl, rfl⟩, fun i hne e H => ?_, fun e he => ?_⟩, ?_⟩
  · simp only [epSelectMod, if_neg (show ¬(fd : Int) ≥ size by omega), hR, hW, hE,
      setData_eq _ data h, Res.ok_bind, Res.pure_eq]
  · exact H.congr (by simp [hRm, hne]) (by simp [hWm, hne]) (by simp [hEm, hne])
      (Function.update_of_ne hne ..)
  · cases he
    exact Function.update_self ..
  · refine SelectState.Watches.holds ⟨?_, ?_, ?_⟩ (Function.update_self ..)
    · simp [hRm]
    · simp [hWm]
    · simp [hEm]

/-- A del leaves nothing of its descriptor. -/
theorem epSelectDel_spec (h : fd < size) :
    ∃ s', epSelectDel size s fd = .ok (0, s') ∧ s.Changed s' fd none ∧ s'.Holds fd none := by
  refine ⟨{ s with
      fds := s.fds.erase fd, rfds := s.rfds.erase fd, wfds := s.wfds.erase fd
      efds := s.efds.erase fd
      maxfd := if (fd : Int) = s.maxfd then lastSet (s.fds.erase fd) fd else s.maxfd }, ?_,
    ⟨⟨rfl, rfl⟩, fun i hne e H => ?_, fun e he => ?_⟩, ?_⟩
  · simp only [epSelectDel, fdClr_eq _ h, Int.toNat_natCast, Res.ok_bind, Res.pure_eq]
  · exact H.congr (by simp [hne]) (by simp [hne]) (by simp [hne]) rfl
  · cases he
  · exact SelectState.watched_eq_zero.2 (by simp)

variable {Kₛ K : Type} (skernel : SelectKernel Kₛ) {kernel : EpollKernel K}

/-- What one call does to the select engine: it succeeds, changes its own descriptor only, and makes the
entry of it; an add does so if nothing is there. -/
theorem PollCall.exec_select (c : PollCall) (h0 : 0 ≤ c.fd) (hlt : c.fd < size) (ks : Kₛ) :
    ∃ (i : Nat) (s' : SelectState), (i : Int) = c.fd ∧
      c.exec (selectApi size skernel) s ks = .ok (0, s', ks) ∧ s.Changed s' i c.entry ∧
      ((c.ctl = .add → s.watched i = 0) → s'.Holds i c.entry) := by
  cases c with
  | add fd events data =>
    obtain ⟨fd, rfl⟩ := Int.eq_ofNat_of_zero_le h0
    obtain ⟨s', hrun, hsame, hown⟩ := epSelectAdd_spec (s := s) events data (Int.ofNat_lt.1 hlt)
    exact ⟨fd, s', rfl, by simp [exec, selectApi, hrun], hsame, fun h => hown (h rfl)⟩
  | mod fd events data =>
    obtain ⟨fd, rfl⟩ := Int.eq_ofNat_of_zero_le h0
    obtain ⟨s', hrun, hsame, hown⟩ := epSelectMod_spec (s := s) events data (Int.ofNat_lt.1 hlt)
    exact ⟨fd, s', rfl, by simp [exec, selectApi, hrun], hsame, fun _ => hown⟩
  | del fd =>
    obtain ⟨fd, rfl⟩ := Int.eq_ofNat_of_zero_le h0
    obtain ⟨s', hrun, hsame, hown⟩ := epSelectDel_spec (s := s) (Int.ofNat_lt.1 hlt)
    exact ⟨fd, s', rfl, by simp [exec, selectApi, hrun], hsame, fun _ => hown⟩

/-- The engines hold the same, but for the descriptors in `bad`. -/
def SameMap (size : Nat) (s : SelectState) (table : Int → Option EpollEvent) (bad : Finset Int) :
    Prop :=
  ∀ fd < size, (fd : Int) ∉ bad → s.Holds fd (table fd)

variable {table : Int → Option EpollEvent} {bad : Finset Int} {cs : List PollCall}

/-- One call. -/
theorem SameMap.step (H : SameMap size s table bad) (c : PollCall) (h0 : 0 ≤ c.fd) (hlt : c.fd < size)
    (ks : Kₛ) :
    ∃ s', c.exec (selectApi size skernel) s ks = .ok (0, s', ks) ∧
      SameMap size s' (c.record table) (c.reject table bad) := by
  obtain ⟨fd, s', hfd, hrun, hchanged, hown⟩ := c.exec_select skernel (s := s) h0 hlt ks
  refine ⟨s', hrun, fun i hi hbad => ?_⟩
  rcases eq_or_ne i fd with rfl | hne
  · rw [hfd] at hbad
    unfold PollCall.record
    split
    · rename_i hc
      rw [hfd, Function.update_self]
      refine hown fun hadd => ?_
      have := H i hi (hfd ▸ PollCall.mem_of_accepted hc hadd hbad)
      rw [PollCall.Accepted, hadd] at hc
      rwa [hfd, show table c.fd = none from hc] at this
    · rename_i hc
      have hdel := PollCall.ctl_of_notMem_reject hc hbad
      rw [PollCall.Accepted, hdel] at hc
      rw [hfd, show table c.fd = none from not_not.1 hc, ← c.ctl_eq_del.1 hdel]
      apply hown
      intro hadd
      cases hdel.symm.trans hadd
  · have hne' : (i : Int) ≠ c.fd := fun h => hne (Int.ofNat_inj.1 (h.trans hfd.symm))
    rw [PollCall.record_of_ne hne']
    exact hchanged.others i hne _ (H i hi fun h => hbad ((PollCall.mem_reject_of_ne hne').2 h))

/-- Any sequence of calls. -/
theorem SameMap.run (T : EpollTable kernel) (e : EpollState) {k : K} (ks : Kₛ)
    (H : SameMap size s (T.table k e.efd) bad) (hcs : ∀ c ∈ cs, 0 ≤ c.fd ∧ c.fd < size) :
    ∃ s' k', pollRun (selectApi size skernel) s ks cs = .ok (cs.map fun _ => 0, s', ks) ∧
      pollRun (epollApi kernel) e k cs = .ok (PollCall.results (T.table k e.efd) cs, e, k') ∧
      T.table k' e.efd = PollCall.recordAll (T.table k e.efd) cs ∧
      SameMap size s' (T.table k' e.efd) (PollCall.rejected (T.table k e.efd) bad cs) := by
  induction cs generalizing s k bad with
  | nil => exact ⟨s, k, rfl, rfl, rfl, H⟩
  | cons c cs ih =>
    obtain ⟨h0, hlt⟩ := hcs c List.mem_cons_self
    obtain ⟨s₁, hs₁, H₁⟩ := H.step skernel c h0 hlt ks
    obtain ⟨k₁, hk₁, htable⟩ := T.exec e k c
    rw [← htable] at H₁
    obtain ⟨s', k', hs', hk', htable', H'⟩ := ih H₁ fun c hc => hcs c (List.mem_cons_of_mem _ hc)
    rw [htable] at hk' htable' H'
    refine ⟨s', k', ?_, ?_, htable', H'⟩
    · simp [pollRun, hs₁, hs']
    · simp [pollRun, hk₁, hk', PollCall.results]

/-- Nothing is rejected where every call succeeds. -/
theorem PollCall.rejected_eq_empty
    (h : PollCall.results table cs = cs.map fun _ => 0) : PollCall.rejected table ∅ cs = ∅ := by
  induction cs generalizing table with
  | nil => rfl
  | cons c cs ih =>
    obtain ⟨hc, hcs⟩ := List.cons.inj h
    have hacc : c.Accepted table := by
      by_contra hacc
      rw [if_neg hacc] at hc
      cases hc
    have hreject : c.reject table ∅ = ∅ := by
      unfold PollCall.reject
      cases c.ctl <;> simp [hacc]
    rw [PollCall.rejected, hreject]
    exact ih hcs

end

/-- **The engines hold the same map but where the kernel rejected a call.** The select engine returns 0
from every call, the epoll engine from those that fit its table; after the calls, and so after each of
them, the two have the same events and data for every descriptor without a rejected add or mod since its
last del or accepted mod. If every call of the epoll engine succeeds, these are all descriptors. -/
theorem registries_agree {size : Nat} {Kₛ K : Type} (skernel : SelectKernel Kₛ)
    {kernel : EpollKernel K} (T : EpollTable kernel) (s : SelectState) (ee : Nat → SelectEvent) (ks : Kₛ)
    (e : EpollState) {k : K} (hk : ∀ fd, T.table k e.efd fd = none) {cs : List PollCall}
    (hcs : ∀ c ∈ cs, 0 ≤ c.fd ∧ c.fd < size) :
    ∃ s' k',
      pollRun (selectApi size skernel) (epSelectInit s false false ee).2 ks cs =
        .ok (cs.map fun _ => 0, s', ks) ∧
      pollRun (epollApi kernel) e k cs = .ok (PollCall.results (fun _ => none) cs, e, k') ∧
      T.table k' e.efd = PollCall.recordAll (fun _ => none) cs ∧
      (∀ fd < size, (fd : Int) ∉ PollCall.rejected (fun _ => none) ∅ cs →
        s'.Holds fd (T.table k' e.efd fd)) ∧
      (PollCall.results (fun _ => none) cs = (cs.map fun _ => 0) →
        ∀ fd < size, s'.Holds fd (T.table k' e.efd fd)) := by
  have hnone : T.table k e.efd = fun _ => none := funext hk
  have H : SameMap size (epSelectInit s false false ee).2 (T.table k e.efd) ∅ := by
    intro fd _ _
    rw [hk]
    exact SelectState.watched_eq_zero.2 ⟨Finset.notMem_empty _, Finset.notMem_empty _,
      Finset.notMem_empty _⟩
  obtain ⟨s', k', hs', hk', htable, H'⟩ := H.run skernel T e ks hcs
  rw [hnone] at hk' htable H'
  refine ⟨s', k', hs', hk', htable, H', fun hres fd hfd => H' fd hfd ?_⟩
  rw [PollCall.rejected_eq_empty hres]
  exact Finset.notMem_empty _

/-- A `select` that finds nothing ready. -/
def idleSelect : SelectKernel Unit where
  select _ _ _ _ _ _ := (⟨0, ∅, ∅, ∅⟩, ())

/-- The epoll engine, and a kernel without registrations. -/
def freshEpoll : EpollState := (epEpollInit ⟨0, 0, 0, fun _ => ⟨0, 0⟩⟩ 5 false).2

def noTable : TableWorld := ⟨fun _ _ => none, []⟩

/-- An add of a registered descriptor is rejected, and a mod makes up for it; another descriptor is deleted
twice. -/
def mixedCalls : List PollCall :=
  [.add 3 epReadable 7, .add 3 epWritable 8, .add 4 epExcept 9, .mod 3 epWritable 7, .del 4, .del 4]

theorem registries_agree_sample :
    ∃ s' k',
      pollRun (selectApi 1024 idleSelect) freshSelect () mixedCalls =
        .ok ([0, 0, 0, 0, 0, 0], s', ()) ∧
      pollRun (epollApi tableEpoll) freshEpoll noTable mixedCalls =
        .ok ([0, -1, 0, 0, 0, -1], freshEpoll, k') ∧
      s'.Holds 3 (k'.table 5 3) := by
  obtain ⟨s', k', hs', hk', -, H, -⟩ := @registries_agree 1024 Unit TableWorld idleSelect tableEpoll
    tableEpollTable rawSelect staleEvents () freshEpoll noTable (fun _ => rfl) mixedCalls (by decide)
  exact ⟨s', k', hs', hk', H 3 (by decide) (by decide)⟩

/-- A registered descriptor is added again. -/
def readdCalls : List PollCall := [.add 3 epReadable 7, .add 3 epWritable 7]

/-- The select engine takes the second add, and watches the descriptor for both events. -/
theorem registries_differ :
    ∃ s' k',
      pollRun (selectApi 1024 idleSelect) freshSelect () readdCalls = .ok ([0, 0], s', ()) ∧
      pollRun (epollApi tableEpoll) freshEpoll noTable readdCalls = .ok ([0, -1], freshEpoll, k') ∧
      s'.watched 3 = epReadable ||| epWritable ∧ k'.table 5 3 = some ⟨epollIn, 7⟩ ∧
      ¬s'.Holds 3 (k'.table 5 3) := by
  refine ⟨_, _, rfl, rfl, by decide, by decide, ?_⟩
  intro h
  exact absurd (congrArg EpollEvent.events h) (by decide)

end Libep

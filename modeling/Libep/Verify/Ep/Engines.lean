import Libep.Kqueue
import Libep.Verify.Ep.Contract
import Libep.Verify.Ep.Deliver
import Libep.Verify.Ep.Removed

/-!
# The engines keep their part of the contract

The epoll and the kqueue engine have no illegal calls: what they index their buffer by is a count that the
kernel was given the size of the buffer for. The select engine takes the count of `select(2)`, which is one for
each bit, for the number of entries of a buffer with one for each descriptor; so its calls are legal only as
long as the three sets have no more members than the buffer has entries. And it does not check that a
descriptor is not negative, or, when it is taken out, that it is in range.
-/

namespace Libep

variable {K : Type}

theorem epoll_safe (kernel : EpollKernel K) : (epollApi kernel).Safe (fun _ _ => True) EpollState.InBounds where
  call {ps k c} H _ := by
    cases c with
    | add fd events data => exact ⟨_, rfl, H⟩
    | mod fd events data => exact ⟨_, rfl, H⟩
    | del fd => exact ⟨_, rfl, H⟩
  wait {ps k timeout} _ := ⟨_, rfl, fun h => kernel.wait_le k ps.efd ps.sz timeout h⟩
  fetch {ps out} H := by
    by_cases h : 0 < ps.ready
    · obtain ⟨e, ps', hfetch, -, H'⟩ := epEpollFetch_pending H h
      exact ⟨_, hfetch, H'⟩
    · exact ⟨_, epEpollFetch_empty (Int.not_lt.1 h), H⟩

/-- The events not delivered yet lie in the buffer. -/
def KqueueState.InBounds (s : KqueueState) : Prop := 0 < s.ready → s.ready ≤ s.sz

theorem kqueue_safe (kernel : KqueueKernel K) :
    (kqueueApi kernel).Safe (fun _ _ => True) KqueueState.InBounds where
  call {ps k c} H _ := by
    cases c with
    | add fd events data => exact ⟨_, rfl, H⟩
    | mod fd events data => exact ⟨_, rfl, H⟩
    | del fd => exact ⟨_, rfl, H⟩
  wait {ps k timeout} _ := ⟨_, rfl, fun h => kernel.wait_le k ps.efd ps.sz _ h⟩
  fetch {ps out} H := by
    by_cases h : 0 < ps.ready
    · have hsz : ps.ready - 1 < ps.sz := by
        have := H h
        omega
      have hfetch : epKqueueFetch ps out = .ok (ps.ready, { ps with ready := ps.ready - 1 },
          out.store (kqueueBits (ps.ee (ps.ready - 1).toNat)) (ps.ee (ps.ready - 1).toNat).udata) :=
        (if_pos h).trans (if_pos hsz)
      refine ⟨_, hfetch, fun _ => ?_⟩
      · have := H h
        show ps.ready - 1 ≤ ps.sz
        omega
    · have hfetch : epKqueueFetch ps out = .ok (0, ps, out) := if_neg h
      exact ⟨_, hfetch, H⟩

/-! ### The select engine -/

/-- The members of the three sets. -/
def SelectState.interests (s : SelectState) : Nat := s.rfds.card + s.wfds.card + s.efds.card

/-- The members of the three sets after a call; one that takes a descriptor out leaves no more of them. -/
def PollCall.interests (s : SelectState) : PollCall → Nat
  | .add fd events _ =>
    (if events &&& epReadable ≠ 0 then insert fd.toNat s.rfds else s.rfds).card +
      (if events &&& epWritable ≠ 0 then insert fd.toNat s.wfds else s.wfds).card +
      (if events &&& epExcept ≠ 0 then insert fd.toNat s.efds else s.efds).card
  | .mod fd events _ =>
    (if events &&& epReadable ≠ 0 then insert fd.toNat s.rfds else s.rfds.erase fd.toNat).card +
      (if events &&& epWritable ≠ 0 then insert fd.toNat s.wfds else s.wfds.erase fd.toNat).card +
      (if events &&& epExcept ≠ 0 then insert fd.toNat s.efds else s.efds.erase fd.toNat).card
  | .del _ => s.interests

/-- A call of the select engine that stays in its bounds. -/
structure PollCall.InRange (size : Nat) (s : SelectState) (c : PollCall) : Prop where
  nonneg : 0 ≤ c.fd
  del : ∀ fd, c = .del fd → fd < size
  interests : c.fd < size → c.interests s ≤ size

/-- What is watched fits the sets and the buffer, and so do the events not delivered yet. -/
structure SelectState.InBounds (size : Nat) (s : SelectState) : Prop where
  lt : ∀ fd ∈ s.rfds ∪ s.wfds ∪ s.efds, fd < size
  interests : s.interests ≤ size
  ready : s.ready ≤ size

section
variable {size : Nat} {s s' : SelectState} {k k' : K} {fd : Nat} {events : UInt32} {set : Finset Nat}

theorem addWhen_of_lt (h : fd < size) (bit : UInt32) :
    addWhen size events bit fd set = .ok (if events &&& bit ≠ 0 then insert fd set else set) := by
  unfold addWhen
  split
  · rw [fdSet_eq set h]
  · rfl

theorem setTo_of_lt (h : fd < size) (bit : UInt32) :
    setTo size events bit fd set = .ok (if events &&& bit ≠ 0 then insert fd set else set.erase fd) := by
  unfold setTo
  split
  · rw [fdSet_eq set h]
  · rw [fdClr_eq set h]

theorem epSelectAdd_of_lt (h : fd < size) (data : UInt64) :
    epSelectAdd size s fd events data = .ok (0, { s with
      rfds := if events &&& epReadable ≠ 0 then insert fd s.rfds else s.rfds
      wfds := if events &&& epWritable ≠ 0 then insert fd s.wfds else s.wfds
      efds := if events &&& epExcept ≠ 0 then insert fd s.efds else s.efds
      maxfd := if (fd : Int) > s.maxfd then fd else s.maxfd
      data := Function.update s.data fd data }) := by
  rw [epSelectAdd, if_neg (by omega), addWhen_of_lt h, Res.ok_bind, addWhen_of_lt h, Res.ok_bind,
    addWhen_of_lt h, Res.ok_bind]
  dsimp only
  rw [setData_eq _ data h]
  rfl

theorem epSelectMod_of_lt (h : fd < size) (data : UInt64) :
    epSelectMod size s fd events data = .ok (0, { s with
      rfds := if events &&& epReadable ≠ 0 then insert fd s.rfds else s.rfds.erase fd
      wfds := if events &&& epWritable ≠ 0 then insert fd s.wfds else s.wfds.erase fd
      efds := if events &&& epExcept ≠ 0 then insert fd s.efds else s.efds.erase fd
      data := Function.update s.data fd data }) := by
  rw [epSelectMod, if_neg (by omega), setTo_of_lt h, Res.ok_bind, setTo_of_lt h, Res.ok_bind,
    setTo_of_lt h, Res.ok_bind, setData_eq _ data h]
  rfl

theorem epSelectDel_of_lt (h : fd < size) :
    epSelectDel size s fd = .ok (0, { s with
      fds := s.fds.erase fd, rfds := s.rfds.erase fd, wfds := s.wfds.erase fd, efds := s.efds.erase fd
      maxfd := if (fd : Int) = s.maxfd then lastSet (s.fds.erase fd) fd else s.maxfd }) := by
  simp [epSelectDel, fdClr_eq _ h]

theorem lt_of_subset_insert {R W X R' W' X' : Finset Nat} (hR : R' ⊆ insert fd R) (hW : W' ⊆ insert fd W)
    (hX : X' ⊆ insert fd X) (hfd : fd < size) (h : ∀ i ∈ R ∪ W ∪ X, i < size) :
    ∀ i ∈ R' ∪ W' ∪ X', i < size := by
  intro i hi
  rcases eq_or_ne i fd with rfl | hne
  · exact hfd
  · refine h i ?_
    have := @hR i
    have := @hW i
    have := @hX i
    simp only [Finset.mem_union, Finset.mem_insert] at *
    tauto

theorem ite_subset_insert {p : Prop} [Decidable p] {set' : Finset Nat} (h : set' ⊆ set) :
    (if p then insert fd set else set') ⊆ insert fd set := by
  split
  · exact subset_rfl
  · exact h.trans (Finset.subset_insert _ _)

variable {kernel : SelectKernel K}

/-- A call with a descriptor past the sets is refused. -/
theorem select_refuses {c : PollCall} (hfd : (size : Int) ≤ c.fd) (hdel : ∀ fd, c ≠ .del fd) :
    c.exec (selectApi size kernel) s k = .ok (-1, s, k) := by
  cases c with
  | add fd events data => simp [PollCall.exec, selectApi, epSelectAdd, show fd ≥ size from hfd]
  | mod fd events data => simp [PollCall.exec, selectApi, epSelectMod, show fd ≥ size from hfd]
  | del fd => exact absurd rfl (hdel fd)

theorem select_call {c : PollCall} (H : s.InBounds size) (hc : c.InRange size s) :
    ∃ r, c.exec (selectApi size kernel) s k = .ok r ∧ SelectState.InBounds size r.2.1 := by
  obtain ⟨fd, hfd⟩ := Int.eq_ofNat_of_zero_le hc.nonneg
  by_cases hlt : fd < size
  · have hcount := hc.interests (by omega)
    cases c with
    | add _ events data =>
      obtain rfl : _ = (fd : Int) := hfd
      refine ⟨(0, _, k), by rw [PollCall.exec, selectApi]; simp only [epSelectAdd_of_lt hlt]; rfl, ?_⟩
      exact ⟨lt_of_subset_insert (ite_subset_insert subset_rfl) (ite_subset_insert subset_rfl)
        (ite_subset_insert subset_rfl) hlt H.lt, hcount, H.ready⟩
    | mod _ events data =>
      obtain rfl : _ = (fd : Int) := hfd
      refine ⟨(0, _, k), by rw [PollCall.exec, selectApi]; simp only [epSelectMod_of_lt hlt]; rfl, ?_⟩
      exact ⟨lt_of_subset_insert (ite_subset_insert (Finset.erase_subset _ _))
        (ite_subset_insert (Finset.erase_subset _ _)) (ite_subset_insert (Finset.erase_subset _ _)) hlt H.lt,
        hcount, H.ready⟩
    | del _ =>
      obtain rfl : _ = (fd : Int) := hfd
      refine ⟨(0, _, k), by rw [PollCall.exec, selectApi]; simp only [epSelectDel_of_lt hlt]; rfl, ?_⟩
      have herase : ∀ set : Finset Nat, set.erase fd ⊆ insert fd set := fun set =>
        (Finset.erase_subset fd set).trans (Finset.subset_insert fd set)
      refine ⟨lt_of_subset_insert (herase _) (herase _) (herase _) hlt H.lt, le_trans ?_ hcount, H.ready⟩
      exact Nat.add_le_add (Nat.add_le_add (Finset.card_erase_le) (Finset.card_erase_le))
        (Finset.card_erase_le)
  · refine ⟨(-1, s, k), select_refuses (by omega) fun fd' e => hlt ?_, H⟩
    have := hc.del fd' e
    subst e
    have hfd : fd' = (fd : Int) := hfd
    omega

theorem selectFill_of_nonpos {r : SelectResult} (h : r.ret ≤ 0) (k i j : Nat) :
    selectFill size r k i j s = .ok s := by
  cases k with
  | zero => rfl
  | succ k => exact if_neg (by omega)

theorem SelectOk.ret_le {r : SelectResult} (H : SelectOk s r) : r.ret ≤ s.interests := by
  have := Finset.card_le_card H.rfds
  have := Finset.card_le_card H.wfds
  have := Finset.card_le_card H.efds
  rw [H.ret, SelectState.interests]
  omega

theorem select_wait (R : SelectReports kernel) {timeout : Int32} (H : s.InBounds size) :
    ∃ r, (selectApi size kernel).wait s k timeout = .ok r ∧ SelectState.InBounds size r.2.2.1 := by
  set r := (kernel.select k (s.maxfd + 1) s.rfds s.wfds s.efds (selectTimeout timeout)).1 with hr
  obtain ⟨s', hfill, hret⟩ : ∃ s', selectFill size r size 0 0 { s with ready := r.ret, wrote := ∅ } = .ok s' ∧
      r.ret ≤ size := by
    by_cases h : 0 < r.ret
    · have hok : SelectOk s r := R.ok h
      obtain ⟨s', hrun, -⟩ : ∃ s', epSelectWait size (fun _ _ _ _ _ => r) s timeout = .ok (r.ret, s') ∧ _ :=
        epSelectWait_spec hok rfl H.lt
      obtain ⟨s', hfill, -⟩ := Res.bind_eq_ok.1 hrun
      exact ⟨s', hfill, hok.ret_le.trans (by exact_mod_cast H.interests)⟩
    · exact ⟨_, selectFill_of_nonpos (Int.not_lt.1 h) .., by omega⟩
  have hwait : epSelectWait size (fun _ _ _ _ _ => r) s timeout = .ok (r.ret, s') := by
    rw [epSelectWait, hfill]
    rfl
  refine ⟨(r, r.ret, s', (kernel.select k (s.maxfd + 1) s.rfds s.wfds s.efds (selectTimeout timeout)).2),
    ?_, ?_⟩
  · rw [selectApi]
    dsimp only
    rw [← hr, hwait]
    rfl
  · rw [selectFill_eq hfill]
    exact ⟨H.lt, H.interests, hret⟩

end

variable {size : Nat} {kernel : SelectKernel K}

theorem select_safe (R : SelectReports kernel) :
    (selectApi size kernel).Safe (fun s c => c.InRange size s) (SelectState.InBounds size) where
  call H hc := select_call H hc
  wait H := select_wait R H
  fetch {s out} H := by
    by_cases h : s.ready > 0
    · have hready := H.ready
      have hfetch : epSelectFetch size s = .ok ((s.ready, some (s.ee (s.ready - 1).toNat)),
          { s with ready := s.ready - 1 }) := by
        rw [epSelectFetch, if_pos h, if_pos (by omega)]
        rfl
      refine ⟨_, by rw [selectApi]; simp only [hfetch]; rfl, ⟨H.lt, H.interests, ?_⟩⟩
      show s.ready - 1 ≤ size
      omega
    · have hfetch : epSelectFetch size s = .ok ((0, none), s) := if_neg h
      exact ⟨_, by rw [selectApi]; simp only [hfetch]; rfl, H⟩

end Libep

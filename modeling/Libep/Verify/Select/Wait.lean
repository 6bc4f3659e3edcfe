import Libep.Select

/-!
# What a wait of the select engine delivers

`ep_select_wait` fills the buffer with one event for each descriptor, but takes the count of `select(2)`,
one for each bit, for the number of events. Each ready descriptor is delivered once and nothing else is
exactly if no descriptor is ready in two sets.
-/

namespace Libep
open Filter

variable {size : Nat}

/-- The descriptors ready in one of the sets. -/
def SelectResult.ready (r : SelectResult) : Finset Nat := r.rfds ∪ r.wfds ∪ r.efds

/-- The event a ready descriptor is to be delivered with. -/
def SelectResult.event (r : SelectResult) (data : Nat → UInt64) (fd : Nat) : SelectEvent where
  data := data fd
  events := (if fd ∈ r.rfds then epReadable else 0) ||| (if fd ∈ r.wfds then epWritable else 0) |||
    (if fd ∈ r.efds then epExcept else 0)

/-- What `select(2)` promises on success: subsets of the watched descriptors up to `maxfd`, and the sum
of their sizes. -/
structure SelectOk (s : SelectState) (r : SelectResult) : Prop where
  rfds : r.rfds ⊆ s.rfds
  wfds : r.wfds ⊆ s.wfds
  efds : r.efds ⊆ s.efds
  le : ∀ fd ∈ r.ready, (fd : Int) ≤ s.maxfd
  ret : r.ret = (r.rfds.card + r.wfds.card + r.efds.card : Nat)

/-- After the wait, fetching until it returns 0 gives one event for each ready descriptor and no other,
and reads only indices that lie in the buffer and that the wait wrote; a fetch that returns `ret`
reads the index `ret - 1`. -/
def DeliversOnce (size : Nat)
    (select : Int → Finset Nat → Finset Nat → Finset Nat → Option Timeval → SelectResult)
    (s : SelectState) (timeout : Int32) (r : SelectResult) : Prop :=
  ∃ ret s', epSelectWait size select s timeout = .ok (ret, s') ∧
    ∀ᶠ fuel in atTop, ∃ out, fetchAll size fuel s' = .ok out ∧
      Multiset.ofList (out.map Prod.snd) = r.ready.val.map (r.event s.data) ∧
      ∀ x ∈ out, 0 < x.1 ∧ (x.1 - 1).toNat < size ∧ (x.1 - 1).toNat ∈ s'.wrote

/-! ### The loop of the wait -/

theorem readyBits_eq (r : SelectResult) (data : Nat → UInt64) (i : Nat) :
    readyBits r.rfds r.wfds r.efds i = (r.event data i).events := by
  simp only [readyBits, SelectResult.event]
  split <;> split <;> split <;> rfl

theorem readyBits_ne_zero {r : SelectResult} {i : Nat} :
    readyBits r.rfds r.wfds r.efds i ≠ 0 ↔ i ∈ r.ready := by
  simp only [readyBits, SelectResult.ready, Finset.mem_union]
  split <;> split <;> split <;> simp_all <;> decide

/-- The ready descriptors among the `k` from `i` on. -/
def readyFrom (r : SelectResult) (i k : Nat) : List Nat := (List.range' i k).filter (· ∈ r.ready)

theorem readyFrom_succ_of_mem {r : SelectResult} {i k : Nat} (h : i ∈ r.ready) :
    readyFrom r i (k + 1) = i :: readyFrom r (i + 1) k := by
  simp [readyFrom, List.range'_succ, h]

theorem readyFrom_succ_of_notMem {r : SelectResult} {i k : Nat} (h : i ∉ r.ready) :
    readyFrom r i (k + 1) = readyFrom r (i + 1) k := by
  simp [readyFrom, List.range'_succ, h]

/-- The loop writes the events of the ready descriptors from index `j` on, if the count allows it. -/
theorem selectFill_spec {r : SelectResult} {k i j : Nat} {s : SelectState} (hk : i + k = size)
    (hj : j ≤ i) (hret : (j + (readyFrom r i k).length : Nat) ≤ r.ret) :
    ∃ s', selectFill size r k i j s = .ok s' ∧ s'.ready = s.ready ∧
      (∀ idx < j, s'.ee idx = s.ee idx) ∧
      (∀ n fd, (readyFrom r i k)[n]? = some fd → s'.ee (j + n) = r.event s.data fd) ∧
      ∀ idx, idx ∈ s'.wrote ↔ idx ∈ s.wrote ∨ j ≤ idx ∧ idx < j + (readyFrom r i k).length := by
  induction k generalizing i j s with
  | zero =>
    refine ⟨s, rfl, rfl, fun _ _ => rfl, nofun, fun idx => (or_iff_left ?_).symm⟩
    exact fun h => absurd h.1 (Nat.not_le.2 h.2)
  | succ k ih =>
    rw [selectFill]
    by_cases hlt : (j : Int) < r.ret
    · rw [if_pos hlt]
      by_cases hi : i ∈ r.ready
      · rw [readyFrom_succ_of_mem hi] at hret ⊢
        rw [List.length_cons] at hret ⊢
        have hjs : j < size := by omega
        obtain ⟨s', hrun, hready, hlow, hee, hwrote⟩ := ih
          (s := { s with
            ee := Function.update s.ee j ⟨s.data i, readyBits r.rfds r.wfds r.efds i⟩
            wrote := insert j s.wrote })
          (show i + 1 + k = size by omega) (Nat.succ_le_succ hj) (by omega)
        refine ⟨s', ?_, hready, fun idx h => ?_, fun n fd hn => ?_, fun idx => ?_⟩
        · simpa [readyBits_ne_zero, hi, hjs] using hrun
        · rw [hlow idx (Nat.lt_succ_of_lt h)]
          exact Function.update_of_ne (Nat.ne_of_lt h) ..
        · cases n with
          | zero =>
            obtain rfl : i = fd := by simpa using hn
            rw [Nat.add_zero, hlow j (Nat.lt_succ_self j), readyBits_eq r s.data]
            exact Function.update_self ..
          | succ n =>
            rw [← Nat.add_assoc, Nat.add_right_comm]
            exact hee n fd (by simpa using hn)
        · rw [hwrote, Finset.mem_insert, @or_comm (idx = j), or_assoc]
          exact or_congr_right (by omega)
      · rw [readyFrom_succ_of_notMem hi] at hret ⊢
        obtain ⟨s', hrun, h⟩ := ih (s := s) (show i + 1 + k = size by omega)
          (Nat.le_succ_of_le hj) hret
        refine ⟨s', ?_, h⟩
        simpa [readyBits_ne_zero, hi] using hrun
    · -- the count is used up, so no descriptor is left
      have hnil : readyFrom r i (k + 1) = [] := List.length_eq_zero_iff.1 (by omega)
      rw [if_neg hlt, hnil]
      exact ⟨s, rfl, rfl, fun _ _ => rfl, by simp, fun idx => by simp⟩

/-- The loop writes the buffer only. -/
theorem selectFill_eq {r : SelectResult} {k i j : Nat} {s s' : SelectState}
    (h : selectFill size r k i j s = .ok s') : s' = { s with ee := s'.ee, wrote := s'.wrote } := by
  induction k generalizing i j s with
  | zero =>
    cases h
    rfl
  | succ k ih =>
    rw [selectFill] at h
    split at h
    · dsimp only at h
      split at h
      · split at h
        · have := ih h
          exact this
        · cases h
      · exact ih h
    · cases h
      rfl

/-! ### Fetching -/

theorem fetchAll_spec {n fuel : Nat} {s : SelectState} (hn : s.ready = n) (hsize : n ≤ size)
    (hf : n < fuel) :
    fetchAll size fuel s =
      .ok ((List.range n).reverse.map fun idx => ((idx + 1 : Nat), s.ee idx)) := by
  induction n generalizing s fuel with
  | zero =>
    obtain ⟨fuel, rfl⟩ := Nat.exists_eq_succ_of_ne_zero (Nat.ne_of_gt hf)
    simp [fetchAll, epSelectFetch, hn]
  | succ n ih =>
    obtain ⟨fuel, rfl⟩ := Nat.exists_eq_succ_of_ne_zero (Nat.ne_of_gt (Nat.zero_lt_of_lt hf))
    have hpos : s.ready > 0 := by omega
    have hidx : (s.ready - 1).toNat = n := by omega
    have := ih (s := { s with ready := s.ready - 1 }) (show s.ready - 1 = n by omega) (by omega)
      (Nat.lt_of_succ_lt_succ hf)
    simp only [fetchAll, epSelectFetch, if_pos hpos, hidx, if_pos (show n < size by omega),
      Res.pure_eq, Res.ok_bind, this]
    rw [List.range_succ, List.reverse_append, List.map_append, hn]
    rfl

/-- Fetching gives as many events as are pending. -/
theorem length_of_fetchAll {fuel : Nat} {s : SelectState} {out : List (Int × SelectEvent)}
    (h : fetchAll size fuel s = .ok out) : out.length = s.ready.toNat := by
  induction fuel generalizing s out with
  | zero => cases h
  | succ fuel ih =>
    by_cases hpos : s.ready > 0
    · by_cases hidx : (s.ready - 1).toNat < size
      · simp only [fetchAll, epSelectFetch, if_pos hpos, if_pos hidx, Res.pure_eq, Res.ok_bind] at h
        obtain ⟨out', h', hout⟩ := Res.bind_eq_ok.1 h
        cases hout
        rw [List.length_cons, ih h']
        show (s.ready - 1).toNat + 1 = s.ready.toNat
        omega
      · simp only [fetchAll, epSelectFetch, if_pos hpos, if_neg hidx, Res.error_bind] at h
        cases h
    · simp only [fetchAll, epSelectFetch, if_neg hpos, Res.pure_eq, Res.ok_bind] at h
      cases h
      simp only [List.length_nil]
      omega

/-! ### The wait -/

section
variable {select : Int → Finset Nat → Finset Nat → Finset Nat → Option Timeval → SelectResult}
variable {s : SelectState} {timeout : Int32} {r : SelectResult}

theorem readyFrom_zero (h : ∀ fd ∈ r.ready, fd < size) :
    Multiset.ofList (readyFrom r 0 size) = r.ready.val := by
  refine Multiset.Nodup.ext ?_ r.ready.nodup |>.2 fun fd => ?_
  · exact (List.nodup_range' ..).filter _
  · simp only [readyFrom, Multiset.mem_coe, List.mem_filter, List.mem_range'_1, decide_eq_true_eq,
      Finset.mem_val]
    exact ⟨fun h => h.2, fun hfd => ⟨⟨Nat.zero_le _, by simpa using h fd hfd⟩, hfd⟩⟩

theorem length_readyFrom (h : ∀ fd ∈ r.ready, fd < size) :
    (readyFrom r 0 size).length = r.ready.card := by
  rw [← Multiset.coe_card, readyFrom_zero h, Finset.card_val]

theorem card_ready_le : r.ready.card ≤ r.rfds.card + r.wfds.card + r.efds.card :=
  Nat.le_trans (Finset.card_union_le ..) (Nat.add_le_add_right (Finset.card_union_le ..) _)

/-- The count of `select(2)` is the number of ready descriptors if none is in two of the sets. -/
theorem card_ready_eq_iff : r.ready.card = r.rfds.card + r.wfds.card + r.efds.card ↔
    Disjoint r.rfds r.wfds ∧ Disjoint r.rfds r.efds ∧ Disjoint r.wfds r.efds := by
  constructor
  · intro h
    have h1 := Finset.card_union_le r.rfds r.wfds
    have h2 := Finset.card_union_le (r.rfds ∪ r.wfds) r.efds
    rw [SelectResult.ready] at h
    obtain ⟨h13, h23⟩ := Finset.disjoint_union_left.1
      (Finset.card_union_eq_card_add_card.1 (show (r.rfds ∪ r.wfds ∪ r.efds).card = _ by omega))
    exact ⟨Finset.card_union_eq_card_add_card.1 (by omega), h13, h23⟩
  · rintro ⟨h12, h13, h23⟩
    rw [SelectResult.ready,
      Finset.card_union_of_disjoint (Finset.disjoint_union_left.2 ⟨h13, h23⟩),
      Finset.card_union_of_disjoint h12]

theorem SelectOk.lt_size (H : SelectOk s r)
    (hs : ∀ fd ∈ s.rfds ∪ s.wfds ∪ s.efds, fd < size) : ∀ fd ∈ r.ready, fd < size := by
  intro fd hfd
  apply hs fd
  simp only [SelectResult.ready, Finset.mem_union] at hfd ⊢
  exact hfd.imp (Or.imp (H.rfds ·) (H.wfds ·)) (H.efds ·)

/-- The state after the wait. -/
theorem epSelectWait_spec (H : SelectOk s r)
    (hr : select (s.maxfd + 1) s.rfds s.wfds s.efds (selectTimeout timeout) = r)
    (hs : ∀ fd ∈ s.rfds ∪ s.wfds ∪ s.efds, fd < size) :
    ∃ s', epSelectWait size select s timeout = .ok (r.ret, s') ∧ s'.ready = r.ret ∧
      (∀ n fd, (readyFrom r 0 size)[n]? = some fd → s'.ee n = r.event s.data fd) ∧
      ∀ idx, idx ∈ s'.wrote ↔ idx < r.ready.card := by
  have hlen := length_readyFrom (H.lt_size hs)
  obtain ⟨s', hrun, hready, -, hee, hwrote⟩ := @selectFill_spec size r size 0 0
    { s with ready := r.ret, wrote := ∅ } (Nat.zero_add size) (Nat.le_refl 0) (by
      rw [hlen, H.ret, Nat.zero_add]
      exact Int.ofNat_le.2 card_ready_le)
  refine ⟨s', ?_, hready, fun n fd hn => ?_, fun idx => ?_⟩
  · simp only [epSelectWait, hr, hrun]
    rfl
  · have := hee n fd hn
    rwa [Nat.zero_add] at this
  · rw [hwrote, hlen]
    simp

/-- A wait that delivers each descriptor once has counted each once. -/
theorem DeliversOnce.disjoint (H : SelectOk s r)
    (hr : select (s.maxfd + 1) s.rfds s.wfds s.efds (selectTimeout timeout) = r)
    (hs : ∀ fd ∈ s.rfds ∪ s.wfds ∪ s.efds, fd < size)
    (h : DeliversOnce size select s timeout r) :
    Disjoint r.rfds r.wfds ∧ Disjoint r.rfds r.efds ∧ Disjoint r.wfds r.efds := by
  obtain ⟨s', hrun, hready, -, -⟩ := epSelectWait_spec H hr hs
  obtain ⟨ret, s'', hrun', hfetch⟩ := h
  obtain ⟨rfl, rfl⟩ : r.ret = ret ∧ s' = s'' := by simpa [hrun] using hrun'
  obtain ⟨fuel, out, hout, hall, -⟩ := hfetch.exists
  have hlen := congrArg Multiset.card hall
  rw [Multiset.coe_card, List.length_map, length_of_fetchAll hout, hready, H.ret, Multiset.card_map,
    Finset.card_val, Int.toNat_natCast] at hlen
  exact card_ready_eq_iff.1 hlen.symm

/-- **Each ready descriptor is delivered exactly once, with its exact events**, exactly if none is ready
in two of the sets. -/
theorem select_delivers_once (H : SelectOk s r)
    (hr : select (s.maxfd + 1) s.rfds s.wfds s.efds (selectTimeout timeout) = r)
    (hs : ∀ fd ∈ s.rfds ∪ s.wfds ∪ s.efds, fd < size) :
    DeliversOnce size select s timeout r ↔
      Disjoint r.rfds r.wfds ∧ Disjoint r.rfds r.efds ∧ Disjoint r.wfds r.efds := by
  refine ⟨DeliversOnce.disjoint H hr hs, fun hdisj => ?_⟩
  obtain ⟨s', hrun, hready, hee, hwrote⟩ := epSelectWait_spec H hr hs
  have hret : s'.ready = r.ready.card := by
    rw [hready, H.ret, card_ready_eq_iff.2 hdisj]
  have hlt := H.lt_size hs
  have hlen := length_readyFrom hlt
  have hle : r.ready.card ≤ size := by
    have := Finset.card_le_card fun fd hfd => Finset.mem_range.2 (hlt fd hfd)
    rwa [Finset.card_range] at this
  -- the buffer up to the count, as a list
  have hbuf : (List.range r.ready.card).map s'.ee = (readyFrom r 0 size).map (r.event s.data) := by
    apply List.ext_getElem (by simp [hlen])
    intro n h1 h2
    rw [List.getElem_map, List.getElem_map, List.getElem_range]
    apply hee
    exact List.getElem?_eq_getElem _
  refine ⟨r.ret, s', hrun, ?_⟩
  filter_upwards [eventually_gt_atTop r.ready.card] with fuel hf
  refine ⟨_, fetchAll_spec hret hle hf, ?_, fun x hx => ?_⟩
  · rw [List.map_map, List.map_reverse, Multiset.coe_reverse, ← readyFrom_zero hlt]
    exact congrArg _ hbuf
  · obtain ⟨idx, hidx, rfl⟩ := List.mem_map.1 hx
    have hidx' : idx < r.ready.card := by simpa using hidx
    have hsub : (((idx + 1 : Nat) : Int) - 1).toNat = idx := by omega
    simp only [hsub, hwrote]
    exact ⟨by omega, Nat.lt_of_lt_of_le hidx' hle, hidx'⟩

end

/-- An engine before its initialisation, and what `malloc` finds in the buffer. -/
def rawSelect : SelectState := ⟨∅, ∅, ∅, ∅, 0, 0, fun _ => 0, fun _ => ⟨0, 0⟩, ∅⟩

def staleEvents : Nat → SelectEvent := fun _ => ⟨7, 7⟩

def freshSelect : SelectState := (epSelectInit rawSelect false false staleEvents).2

/-- Descriptor 3 is watched for reading and writing; `select(2)` reports it writable. -/
theorem select_delivers_once_sample :
    ∃ s, epSelectAdd 1024 freshSelect 3 (epReadable ||| epWritable) 42 = .ok (0, s) ∧
      DeliversOnce 1024 (fun _ _ _ _ _ => ⟨1, ∅, {3}, ∅⟩) s 0 ⟨1, ∅, {3}, ∅⟩ := by
  refine ⟨_, rfl, (select_delivers_once ?_ rfl (by decide)).2 (by decide)⟩
  constructor <;> decide

/-- `select(2)` reports descriptor 3 readable and writable: the count is 2, one event is written, and two
are fetched. -/
theorem select_delivers_twice :
    ∃ s, epSelectAdd 1024 freshSelect 3 (epReadable ||| epWritable) 42 = .ok (0, s) ∧
      SelectOk s ⟨2, {3}, {3}, ∅⟩ ∧ (∀ fd ∈ s.rfds ∪ s.wfds ∪ s.efds, fd < 1024) ∧
      ¬DeliversOnce 1024 (fun _ _ _ _ _ => ⟨2, {3}, {3}, ∅⟩) s 0 ⟨2, {3}, {3}, ∅⟩ := by
  refine ⟨_, rfl, ?_, by decide, fun h => ?_⟩
  · constructor <;> decide
  · exact absurd (h.disjoint (by constructor <;> decide) rfl (by decide)) (by decide)

end Libep

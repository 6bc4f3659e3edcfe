import Libep.Verify.Ep.Report
import Libep.Verify.Kqueue.Filters

/-!
# The data of the kqueue engine

A filter of a descriptor is enabled with the data of an `add` or a `mod` whose mask asks for it; a `mod` whose mask
does not disables it. So the data of an enabled filter is that of the last call that asked for it, as long as the calls
for its descriptor return 0. A call that fails may have changed the first of its filters only; then it is still that of
some call for the descriptor.
-/

namespace Libep

variable {K : Type}

/-- The data of the enabled filters, each named by its descriptor and its kind. -/
abbrev Enabled := Int × Int16 → Option UInt64

/-- What is enabled after a change: `EV_ADD` enables the filter with its data, `EV_DISABLE` and `EV_DELETE` end
that. -/
def Kevent.enable (t : Enabled) (c : Kevent) : Enabled :=
  Function.update t (c.ident, c.filter) (if c.flags = evAdd then some c.udata else none)

/-- What the kernel keeps and reports: which filters are enabled. A change that fails changes nothing; a wait reports
enabled filters with their data, and enables none. -/
structure KqueueReports (kernel : KqueueKernel K) where
  enabled : K → (kq : Int) → Enabled
  change : ∀ {k kq c timeout x d}, c.flags ∈ [evAdd, evDisable, evDelete] →
    (kernel.kevent_change k kq c timeout).1 ≠ -1 →
    enabled (kernel.kevent_change k kq c timeout).2 kq x = some d → c.enable (enabled k kq) x = some d
  change_fail : ∀ {k kq c timeout x d}, (kernel.kevent_change k kq c timeout).1 = -1 →
    enabled (kernel.kevent_change k kq c timeout).2 kq x = some d → enabled k kq x = some d
  wait_enabled : ∀ {k kq nevents timeout kq' x d},
    enabled (kernel.kevent_wait k kq nevents timeout).2 kq' x = some d → enabled k kq' x = some d
  reports : ∀ {k kq nevents timeout}, ∀ e ∈ (kernel.kevent_wait k kq nevents timeout).1.2.take
    (kernel.kevent_wait k kq nevents timeout).1.1.toNat, enabled k kq (e.ident, e.filter) = some e.udata

/-! ### What the calls enable -/

/-- What is enabled after a call. -/
def PollCall.enable (t : Enabled) : PollCall → Enabled
  | add fd events data => fun x => if x.1 = fd ∧ Wants events x.2 then some data else t x
  | mod fd events data => fun x =>
    if x.1 = fd ∧ IsFilter x.2 then if Wants events x.2 then some data else none else t x
  | del fd => fun x => if x.1 = fd ∧ IsFilter x.2 then none else t x

/-- A call that returns 0 enables and disables filters. -/
def PollEvent.enable {O : Type} (t : Enabled) : PollEvent O → Enabled
  | call c ret => if ret = 0 then c.enable t else t
  | wait _ _ | fetch _ _ _ => t

/-- What is enabled after the calls of a record. -/
def enabledBy {O : Type} (tr : List (PollEvent O)) : Enabled := tr.foldl PollEvent.enable fun _ => none

/-- All calls for the descriptor have returned 0. -/
def Succeeded {O : Type} (tr : List (PollEvent O)) (fd : Int) : Prop :=
  ∀ c ret, .call c ret ∈ tr → c.fd = fd → ret = 0

/-- The filter `x` may have the data `d`: it was given to a call for its descriptor, and it is that of the last call
which asked for the filter, if they have all returned 0. -/
structure Offered {O : Type} (tr : List (PollEvent O)) (x : Int × Int16) (d : UInt64) : Prop where
  given : ∃ c ret, .call c ret ∈ tr ∧ c.fd = x.1 ∧ c.data = some d
  last : Succeeded tr x.1 → enabledBy tr x = some d

/-- The events of every wait have data that their filters may have. -/
def KqueueOffers (tr : List (PollEvent KeventAnswer)) : Prop :=
  ∀ pre o ret post, tr = pre ++ .wait o ret :: post →
    ∀ e ∈ o.2.take o.1.toNat, Offered pre (e.ident, e.filter) e.udata

section
variable {O : Type} {tr : List (PollEvent O)} {e : PollEvent O} {c : PollCall} {t t' : Enabled} {x : Int × Int16}
  {d : UInt64} {ret : Int}

/-- A call does to a filter what it does, whatever is enabled beside it. -/
theorem PollCall.enable_mono (H : t x = some d → t' x = some d) (h : c.enable t x = some d) :
    c.enable t' x = some d := by
  cases c with
  | add fd events data =>
    simp only [enable] at h ⊢
    split at h
    · next hx => rw [if_pos hx, h]
    · next hx => rw [if_neg hx, H h]
  | mod fd events data =>
    simp only [enable] at h ⊢
    split at h
    · next hx => rw [if_pos hx, h]
    · next hx => rw [if_neg hx, H h]
  | del fd =>
    simp only [enable] at h ⊢
    split at h
    · cases h
    · next hx => rw [if_neg hx, H h]

theorem enabledBy_append_singleton : enabledBy (tr ++ [e]) = e.enable (enabledBy tr) := by
  rw [enabledBy, List.foldl_append]
  rfl

/-- A call for another descriptor leaves the filter. -/
theorem PollEvent.enable_of_ne (h : c.fd ≠ x.1) : (call c ret : PollEvent O).enable t x = t x := by
  have hne : x.1 ≠ c.fd := h.symm
  simp only [enable]
  split
  · cases c with
    | add | mod | del => exact if_neg fun hx => hne hx.1
  · rfl

theorem Succeeded.left {fd : Int} (H : Succeeded (tr ++ [e]) fd) : Succeeded tr fd :=
  fun c ret hmem => H c ret (List.mem_append_left _ hmem)

/-- What a wait or a fetch leaves. -/
theorem Offered.append_singleton (H : Offered tr x d) (he : ∀ c ret, e ≠ .call c ret) : Offered (tr ++ [e]) x d := by
  obtain ⟨⟨c, ret, hmem, hc⟩, hlast⟩ := H
  refine ⟨⟨c, ret, List.mem_append_left _ hmem, hc⟩, fun hs => ?_⟩
  rw [enabledBy_append_singleton]
  cases e with
  | call c ret => exact absurd rfl (he c ret)
  | wait | fetch => exact hlast hs.left

end

theorem KqueueOffers.append_singleton {tr : List (PollEvent KeventAnswer)} {e : PollEvent KeventAnswer}
    (H : KqueueOffers tr)
    (h : ∀ {o ret}, e = .wait o ret → ∀ e ∈ o.2.take o.1.toNat, Offered tr (e.ident, e.filter) e.udata) :
    KqueueOffers (tr ++ [e]) := fun pre o ret post htr =>
  split_append_singleton (Q := fun pre e => ∀ o ret, e = .wait o ret →
    ∀ e ∈ o.2.take o.1.toNat, Offered pre (e.ident, e.filter) e.udata)
    (fun pre _ post htr o ret he => H pre o ret post (he ▸ htr)) (fun _ _ => h) pre _ post htr o ret rfl

/-! ### What the calls do in the kernel -/

theorem filterFlags_mem (events bit : UInt32) : filterFlags events bit ∈ [evAdd, evDisable, evDelete] := by
  unfold filterFlags
  split <;> simp

theorem filterFlags_eq_evAdd {events bit : UInt32} : filterFlags events bit = evAdd ↔ events &&& bit ≠ 0 := by
  unfold filterFlags
  split <;> simp [*, evAdd, evDisable]

namespace PollCall
variable (t : Enabled) (fd : Int) (events : UInt32) (data : UInt64)

/-- `ep_kqueue_add` makes a change for each bit of the mask. -/
theorem enable_add (x : Int × Int16) : enable t (.add fd events data) x =
    if x = (fd, evfiltWrite) ∧ Wants events evfiltWrite then some data
    else if x = (fd, evfiltRead) ∧ Wants events evfiltRead then some data else t x := by
  have hfilter : Wants events x.2 → IsFilter x.2 := Wants.isFilter
  have hne : evfiltRead ≠ evfiltWrite := by decide
  simp only [enable, Prod.ext_iff]
  by_cases hw : x.1 = fd ∧ Wants events x.2
  · rw [if_pos hw]
    rcases hfilter hw.2 with hf | hf
    · rw [if_neg fun h => hne (hf.symm.trans h.1.2), if_pos ⟨⟨hw.1, hf⟩, hf ▸ hw.2⟩]
    · rw [if_pos ⟨⟨hw.1, hf⟩, hf ▸ hw.2⟩]
  · have hnot : ∀ f, ¬((x.1 = fd ∧ x.2 = f) ∧ Wants events f) := fun f h => hw ⟨h.1.1, h.1.2 ▸ h.2⟩
    rw [if_neg hw, if_neg (hnot _), if_neg (hnot _)]

/-- A change for each of the filters. -/
theorem enable_both {flags flags' : UInt16} (x : Int × Int16) :
    Kevent.enable (Kevent.enable t ⟨fd, evfiltRead, flags, data⟩) ⟨fd, evfiltWrite, flags', data⟩ x =
      if x.1 = fd ∧ IsFilter x.2 then
        if (if x.2 = evfiltRead then flags else flags') = evAdd then some data else none
      else t x := by
  obtain ⟨a, f⟩ := x
  by_cases hf : IsFilter f
  · rcases hf with rfl | rfl <;>
      simp [Kevent.enable, Function.update_apply, IsFilter, evfiltRead, evfiltWrite]
  · have hne : f ≠ evfiltRead ∧ f ≠ evfiltWrite := not_or.1 hf
    simp [Kevent.enable, hf, hne]

/-- `ep_kqueue_mod` changes both filters. -/
theorem enable_mod (x : Int × Int16) : enable t (.mod fd events data) x =
    Kevent.enable (Kevent.enable t ⟨fd, evfiltRead, filterFlags events epReadable, data⟩)
      ⟨fd, evfiltWrite, filterFlags events epWritable, data⟩ x := by
  have hread := wants_read events
  have hwrite := wants_write events
  have hne : evfiltWrite ≠ evfiltRead := by decide
  rw [enable_both]
  simp only [enable]
  by_cases hx : x.1 = fd ∧ IsFilter x.2
  · rw [if_pos hx, if_pos hx]
    rcases hx.2 with hf | hf
    · simp only [hf, if_true, hread, filterFlags_eq_evAdd]
    · simp only [hf, hne, if_false, hwrite, filterFlags_eq_evAdd]
  · rw [if_neg hx, if_neg hx]

/-- `ep_kqueue_del` deletes both filters. -/
theorem enable_del (x : Int × Int16) : enable t (.del fd) x =
    Kevent.enable (Kevent.enable t ⟨fd, evfiltRead, evDelete, 0⟩) ⟨fd, evfiltWrite, evDelete, 0⟩ x := by
  rw [enable_both]
  simp [enable, evAdd, evDelete]

end PollCall

namespace KqueueReports
variable {kernel : KqueueKernel K} (R : KqueueReports kernel) {s s' : KqueueState} {k k' : K} {c : PollCall}
  {ret fd : Int} {f : Int16} {flags : UInt16} {data timeout : UInt64} {next : K → Int × K}

/-- The filters that are enabled are among those of `t`. -/
def Within (kq : Int) (t : Enabled) (k : K) : Prop := ∀ x d, R.enabled k kq x = some d → t x = some d

/-- From `k` to `k'` no filter was enabled but of the descriptor and with the data of the call `c`. -/
def Offers (kq : Int) (c : PollCall) (k k' : K) : Prop :=
  ∀ x d, R.enabled k' kq x = some d → R.enabled k kq x = some d ∨ c.fd = x.1 ∧ c.data = some d

variable {R} {t t' : Enabled}

theorem Offers.keventOr {k₀ : K} (H : R.Offers s.efd c k₀ k) (hflags : flags ∈ [evAdd, evDisable, evDelete])
    (hc : flags = evAdd → c.data = some data) (hnext : ∀ k, R.Offers s.efd c k₀ k → R.Offers s.efd c k₀ (next k).2) :
    R.Offers s.efd c k₀ (keventOr kernel s k c.fd f flags data timeout next).2 := by
  have hchange : R.Offers s.efd c k₀ (kernel.kevent_change k s.efd ⟨c.fd, f, flags, data⟩ timeout).2 := by
    intro x d h
    by_cases hret : (kernel.kevent_change k s.efd ⟨c.fd, f, flags, data⟩ timeout).1 = -1
    · exact H x d (R.change_fail hret h)
    · have hx := R.change hflags hret h
      rcases eq_or_ne x (c.fd, f) with rfl | hne
      · rw [Kevent.enable, Function.update_self] at hx
        split at hx
        · next hadd => exact .inr ⟨rfl, (hc hadd).trans hx⟩
        · cases hx
      · rw [Kevent.enable, Function.update_of_ne hne] at hx
        exact H x d hx
  rw [Libep.keventOr]
  dsimp only
  split
  · exact hchange
  · exact hnext _ hchange

theorem Offers.addFilter {k₀ : K} {events bit : UInt32} (H : R.Offers s.efd c k₀ k) (hc : c.data = some data)
    (hnext : ∀ k, R.Offers s.efd c k₀ k → R.Offers s.efd c k₀ (next k).2) :
    R.Offers s.efd c k₀ (addFilter kernel s k c.fd events bit f data next).2 := by
  rw [Libep.addFilter]
  split
  · exact H.keventOr (by simp) (fun _ => hc) hnext
  · exact hnext k H

/-- A call of the engine. -/
theorem exec_offers (h : c.exec (kqueueApi kernel) s k = .ok (ret, s', k')) : s' = s ∧ R.Offers s.efd c k k' := by
  have hrefl : R.Offers s.efd c k k := fun _ _ => .inl
  cases c with
  | add fd events data =>
    cases h
    exact ⟨rfl, hrefl.addFilter rfl fun _ H => H.addFilter rfl fun _ H => H⟩
  | mod fd events data =>
    cases h
    exact ⟨rfl, hrefl.keventOr (filterFlags_mem ..) (fun _ => rfl) fun _ H =>
      H.keventOr (filterFlags_mem ..) (fun _ => rfl) fun _ H => H⟩
  | del fd =>
    cases h
    have hne : evDelete ≠ evAdd := by decide
    exact ⟨rfl, hrefl.keventOr (by simp) (absurd · hne) fun _ H => H.keventOr (by simp) (absurd · hne) fun _ H => H⟩

theorem Within.change (H : R.Within s.efd t k) {c : Kevent} (hflags : c.flags ∈ [evAdd, evDisable, evDelete])
    (hret : (kernel.kevent_change k s.efd c timeout).1 ≠ -1) :
    R.Within s.efd (c.enable t) (kernel.kevent_change k s.efd c timeout).2 := by
  intro x d h
  have hchanged := R.change hflags hret h
  rcases eq_or_ne x (c.ident, c.filter) with rfl | hne
  · rw [Kevent.enable, Function.update_self] at hchanged ⊢
    exact hchanged
  · rw [Kevent.enable, Function.update_of_ne hne] at hchanged ⊢
    exact H x d hchanged

/-- A change that has to succeed. -/
theorem Within.keventOr (H : R.Within s.efd t k) (hflags : flags ∈ [evAdd, evDisable, evDelete])
    (hnext : ∀ k, R.Within s.efd (Kevent.enable t ⟨fd, f, flags, data⟩) k → (next k).1 = 0 →
      R.Within s.efd t' (next k).2)
    (hret : (keventOr kernel s k fd f flags data timeout next).1 = 0) :
    R.Within s.efd t' (keventOr kernel s k fd f flags data timeout next).2 := by
  rw [Libep.keventOr] at hret ⊢
  dsimp only at hret ⊢
  split at hret
  · cases hret
  · next hne =>
    rw [if_neg hne]
    exact hnext _ (H.change hflags hne) hret

theorem Within.addFilter {events bit : UInt32} (H : R.Within s.efd t k) (hbit : Wants events f ↔ events &&& bit ≠ 0)
    (hnext : ∀ k, R.Within s.efd (fun x => if x = (fd, f) ∧ Wants events f then some data else t x) k →
      (next k).1 = 0 → R.Within s.efd t' (next k).2)
    (hret : (addFilter kernel s k fd events bit f data next).1 = 0) :
    R.Within s.efd t' (addFilter kernel s k fd events bit f data next).2 := by
  rw [Libep.addFilter] at hret ⊢
  split at hret
  · next hpos =>
    rw [if_pos hpos]
    refine H.keventOr (by simp) (fun k Hk => hnext k fun x d h => ?_) hret
    have hx := Hk x d h
    rw [Kevent.enable, if_pos rfl, Function.update_apply] at hx
    simpa only [hbit.2 hpos, and_true] using hx
  · next hneg =>
    rw [if_neg hneg]
    refine hnext k (fun x d h => ?_) hret
    dsimp only
    rw [if_neg fun hx => hneg (hbit.1 hx.2)]
    exact H x d h

/-- A call that returns 0 enables and disables what it should. -/
theorem exec_enable (h : c.exec (kqueueApi kernel) s k = .ok (0, s', k')) :
    R.Within s.efd (c.enable (R.enabled k s.efd)) k' := by
  have H : R.Within s.efd (R.enabled k s.efd) k := fun _ _ => id
  cases c with
  | add fd events data =>
    obtain ⟨hret, hk⟩ := Prod.mk.inj (Except.ok.inj h)
    obtain ⟨-, rfl⟩ := Prod.mk.inj hk
    refine H.addFilter (wants_read events) (fun k₁ H₁ => H₁.addFilter (wants_write events) fun k₂ H₂ _ => ?_) hret
    intro x d hx
    rw [PollCall.enable_add]
    exact H₂ x d hx
  | mod fd events data =>
    obtain ⟨hret, hk⟩ := Prod.mk.inj (Except.ok.inj h)
    obtain ⟨-, rfl⟩ := Prod.mk.inj hk
    refine H.keventOr (filterFlags_mem ..) (fun k₁ H₁ => H₁.keventOr (filterFlags_mem ..) fun k₂ H₂ _ => ?_) hret
    intro x d hx
    rw [PollCall.enable_mod]
    exact H₂ x d hx
  | del fd =>
    obtain ⟨hret, hk⟩ := Prod.mk.inj (Except.ok.inj h)
    obtain ⟨-, rfl⟩ := Prod.mk.inj hk
    refine H.keventOr (by simp) (fun k₁ H₁ => H₁.keventOr (by simp) fun k₂ H₂ _ => ?_) hret
    intro x d hx
    rw [PollCall.enable_del]
    exact H₂ x d hx

/-! ### Runs -/

variable (R)

/-- The filter `x` is enabled with the data `d`. -/
def Watched (s : KqueueState) (k : K) (x : Int × Int16) (d : UInt64) : Prop := R.enabled k s.efd x = some d

/-- The engine and its record. -/
structure Inv (s : KqueueState × List (PollEvent KeventAnswer)) (k : K) : Prop where
  watched : ∀ {x d}, R.Watched s.1 k x d → Offered s.2 x d
  offers : KqueueOffers s.2

variable {R} {env : Env KqueueState K} {cs : List (LoopCall K)} {fuel : Nat} {st st' : EpLoop KqueueState KeventAnswer K}
  {tr : List (PollEvent KeventAnswer)} {x : Int × Int16} {d : UInt64}

theorem Inv.world {s : KqueueState × List (PollEvent KeventAnswer)} (H : R.Inv s k)
    (h : ∀ {x d}, R.Watched s.1 k' x d → R.Watched s.1 k x d) : R.Inv s k' :=
  ⟨fun hw => H.watched (h hw), H.offers⟩

/-- The data of a filter after one more call. -/
theorem Inv.offered_call {s : KqueueState × List (PollEvent KeventAnswer)} (H : R.Inv s k)
    (hexec : c.exec (kqueueApi kernel) s.1 k = .ok (ret, s.1, k')) (hx : R.enabled k' s.1.efd x = some d) :
    Offered (s.2 ++ [.call c ret]) x d where
  given := by
    rcases (R.exec_offers hexec).2 x d hx with hold | hnew
    · obtain ⟨c', ret', hmem, hc'⟩ := (H.watched hold).given
      exact ⟨c', ret', List.mem_append_left _ hmem, hc'⟩
    · exact ⟨c, ret, List.mem_append_right _ List.mem_cons_self, hnew⟩
  last hs := by
    rw [enabledBy_append_singleton]
    by_cases hfd : c.fd = x.1
    · obtain rfl : ret = 0 := hs c ret (List.mem_append_right _ List.mem_cons_self) hfd
      rw [PollEvent.enable, if_pos rfl]
      exact c.enable_mono (fun hold => (H.watched hold).last hs.left) (R.exec_enable hexec x d hx)
    · rw [PollEvent.enable_of_ne hfd]
      exact (H.watched (((R.exec_offers hexec).2 x d hx).resolve_right fun h => hfd h.1)).last hs.left

theorem keeps (HE : Undisturbed R.Watched env cs) :
    Keeps (kqueueApi kernel).recorded (env.recorded KeventAnswer) R.Inv where
  call {c s k ret s' k'} H h := by
    obtain ⟨ps', hexec, rfl⟩ := PollCall.exec_recorded h
    obtain ⟨rfl, -⟩ := R.exec_offers hexec
    exact ⟨fun hw => H.offered_call hexec hw, H.offers.append_singleton nofun⟩
  wait {s k timeout o ret s' k'} H h := by
    obtain ⟨_, hwait, h⟩ := Res.bind_eq_ok.1 h
    cases hwait
    cases h
    refine ⟨fun {x d} hw => ?_, H.offers.append_singleton ?_⟩
    · exact (H.watched (R.wait_enabled hw)).append_singleton nofun
    · intro o ret he e hmem
      cases he
      exact H.watched (R.reports e hmem)
  fetch {s k out ret s' out'} H h := by
    obtain ⟨⟨ret, ps', out'⟩, hfetch, h⟩ := Res.bind_eq_ok.1 h
    cases h
    refine ⟨fun {x d} hw => (H.watched ?_).append_singleton nofun, H.offers.append_singleton nofun⟩
    simp only [kqueueApi, epKqueueFetch] at hfetch
    split at hfetch
    · split at hfetch
      · cases hfetch
        exact hw
      · cases hfetch
    · cases hfetch
      exact hw
  clock H := H.world HE.clock
  callback {c st} H := H.world (HE.callback c { st with ps := st.ps.1 })

/-- **The events of a kqueue engine have the data of calls for their filters**, over every run. -/
theorem run_offers (HE : Undisturbed R.Watched env cs) (hnone : ∀ x d, ¬R.Watched st.ps st.world x d)
    (hrun : loopRun fuel (kqueueApi kernel).recorded (env.recorded KeventAnswer) (st.record []) cs =
      .ok (st'.record tr)) : KqueueOffers tr := by
  have hinit : R.Inv (st.record []).ps (st.record []).world :=
    ⟨fun h => absurd h (hnone _ _), fun pre o ret post h => by simp [EpLoop.record] at h⟩
  exact ((keeps HE).loopRun hinit (fun f hf _ _ H => H.world (HE.other hf)) hrun).offers

end KqueueReports

end Libep

import Libep.Kqueue

/-!
# The filters of the kqueue engine

`ep_kqueue_mod` disables, and `ep_kqueue_del` deletes, both filters of a descriptor, whether they exist or
not, and the kernel refuses to change a filter that does not exist. Which filters exist depends on all the
masks since the descriptor was registered; the invariant of a run is that these are the filters of the
union of the masks.
-/

namespace Libep

/-- The filters the engine uses. -/
def IsFilter (f : Int16) : Prop := f = evfiltRead ∨ f = evfiltWrite

/-- The filter of a bit of the mask. -/
def Wants (events : UInt32) (f : Int16) : Prop :=
  f = evfiltRead ∧ events &&& epReadable ≠ 0 ∨ f = evfiltWrite ∧ events &&& epWritable ≠ 0

instance (f : Int16) : Decidable (IsFilter f) := inferInstanceAs (Decidable (_ ∨ _))

instance (events : UInt32) (f : Int16) : Decidable (Wants events f) :=
  inferInstanceAs (Decidable (_ ∨ _))

/-- A filter in the kernel. -/
structure Knote where
  enabled : Bool
  udata : UInt64
  deriving DecidableEq

/-- What `kevent(2)` does to the filters of a queue, each named by its descriptor and its kind: `EV_ADD`
creates or updates a filter and enables it; `EV_DISABLE` and `EV_DELETE` fail on a filter that does not
exist, and otherwise succeed. -/
structure KqueueFilters {K : Type} (kernel : KqueueKernel K) where
  filter : K → (kq : Int) → Int × Int16 → Option Knote
  add : ∀ k kq fd f udata timeout, IsFilter f →
    (kernel.kevent_change k kq ⟨fd, f, evAdd, udata⟩ timeout).1 = 0 ∧
      filter (kernel.kevent_change k kq ⟨fd, f, evAdd, udata⟩ timeout).2 kq =
        Function.update (filter k kq) (fd, f) (some ⟨true, udata⟩)
  disable : ∀ k kq fd f udata timeout, IsFilter f → filter k kq (fd, f) ≠ none →
    (kernel.kevent_change k kq ⟨fd, f, evDisable, udata⟩ timeout).1 = 0 ∧
      ∃ n : Knote, n.enabled = false ∧
        filter (kernel.kevent_change k kq ⟨fd, f, evDisable, udata⟩ timeout).2 kq =
          Function.update (filter k kq) (fd, f) (some n)
  disable_none : ∀ k kq fd f udata timeout, IsFilter f → filter k kq (fd, f) = none →
    (kernel.kevent_change k kq ⟨fd, f, evDisable, udata⟩ timeout).1 = -1
  delete : ∀ k kq fd f udata timeout, IsFilter f → filter k kq (fd, f) ≠ none →
    (kernel.kevent_change k kq ⟨fd, f, evDelete, udata⟩ timeout).1 = 0 ∧
      filter (kernel.kevent_change k kq ⟨fd, f, evDelete, udata⟩ timeout).2 kq =
        Function.update (filter k kq) (fd, f) none
  delete_none : ∀ k kq fd f udata timeout, IsFilter f → filter k kq (fd, f) = none →
    (kernel.kevent_change k kq ⟨fd, f, evDelete, udata⟩ timeout).1 = -1

/-! ### What the calls are to do, and when they do it -/

namespace PollCall

/-- The registered descriptors, each with the union of its masks since it was added. -/
abbrev Masks := Int → Option UInt32

/-- The masks after a call. -/
def masks (made : Masks) : PollCall → Masks
  | add fd events _ => Function.update made fd (some events)
  | mod fd events _ => Function.update made fd ((made fd).map (· ||| events))
  | del fd => Function.update made fd none

/-- Adds are of descriptors that are not registered, the other calls of ones that are. -/
def Legal (made : Masks) : PollCall → Prop
  | add fd _ _ => made fd = none
  | mod fd _ _ | del fd => made fd ≠ none

/-- At a `mod` the masks since the `add`, its own included, have both bits; at a `del` the masks before
it have. -/
def BothBits (made : Masks) : PollCall → Prop
  | add _ _ _ => True
  | mod fd events _ => ∀ m ∈ made fd,
    (m ||| events) &&& epReadable ≠ 0 ∧ (m ||| events) &&& epWritable ≠ 0
  | del fd => ∀ m ∈ made fd, m &&& epReadable ≠ 0 ∧ m &&& epWritable ≠ 0

instance (made : Masks) : (c : PollCall) → Decidable (c.Legal made)
  | add _ _ _ => inferInstanceAs (Decidable (_ = none))
  | mod _ _ _ | del _ => inferInstanceAs (Decidable (_ ≠ none))

instance (made : Masks) : (c : PollCall) → Decidable (c.BothBits made)
  | add _ _ _ => .isTrue trivial
  | mod _ _ _ | del _ => inferInstanceAs (Decidable (∀ m ∈ _, _))

/-- Every call of a sequence is legal. -/
def LegalRun : Masks → List PollCall → Prop
  | _, [] => True
  | made, c :: cs => c.Legal made ∧ LegalRun (c.masks made) cs

/-- Every call of a sequence meets `BothBits`. -/
def BothBitsRun : Masks → List PollCall → Prop
  | _, [] => True
  | made, c :: cs => c.BothBits made ∧ BothBitsRun (c.masks made) cs

instance decidableLegalRun : (made : Masks) → (cs : List PollCall) → Decidable (LegalRun made cs)
  | _, [] => .isTrue trivial
  | made, c :: cs =>
    have := decidableLegalRun (c.masks made) cs
    inferInstanceAs (Decidable (_ ∧ _))

instance decidableBothBitsRun :
    (made : Masks) → (cs : List PollCall) → Decidable (BothBitsRun made cs)
  | _, [] => .isTrue trivial
  | made, c :: cs =>
    have := decidableBothBitsRun (c.masks made) cs
    inferInstanceAs (Decidable (_ ∧ _))

end PollCall

namespace KqueueFilters
variable {K : Type} {kernel : KqueueKernel K} (F : KqueueFilters kernel)

/-- The data of an enabled filter. -/
def armed (k : K) (kq : Int) (x : Int × Int16) : Option UInt64 :=
  (F.filter k kq x).bind fun n => if n.enabled then some n.udata else none

/-- A call that returns `ret` keeps the kernel in step. -/
structure InStep (kq : Int) (k : K) (c : PollCall) (ret : Int) (k' : K) : Prop where
  ret : ret = 0
  others : ∀ x, x.1 ≠ c.fd → F.filter k' kq x = F.filter k kq x
  own : match c with
    | .add fd events data | .mod fd events data =>
      ∀ f, F.armed k' kq (fd, f) = if Wants events f then some data else none
    | .del fd => ∀ f, F.filter k' kq (fd, f) = none

/-- Every call of a sequence keeps the kernel in step. -/
def InStepRun : KqueueState → K → List PollCall → Prop
  | _, _, [] => True
  | s, k, c :: cs =>
    match c.exec (kqueueApi kernel) s k with
    | .ok (ret, s', k') => F.InStep s.efd k c ret k' ∧ InStepRun s' k' cs
    | .error _ => False

/-- The filters that exist are those of the masks since each descriptor was registered. -/
def Made (kq : Int) (made : PollCall.Masks) (k : K) : Prop :=
  ∀ fd f, F.filter k kq (fd, f) ≠ none ↔ ∃ m, made fd = some m ∧ Wants m f

end KqueueFilters

theorem Wants.isFilter {events : UInt32} {f : Int16} (h : Wants events f) : IsFilter f :=
  h.imp And.left And.left

theorem wants_read (events : UInt32) : Wants events evfiltRead ↔ events &&& epReadable ≠ 0 := by
  simp [Wants, evfiltRead, evfiltWrite]

theorem wants_write (events : UInt32) : Wants events evfiltWrite ↔ events &&& epWritable ≠ 0 := by
  simp [Wants, evfiltRead, evfiltWrite]

theorem or_and_ne_zero {a b bit : UInt32} :
    (a ||| b) &&& bit ≠ 0 ↔ a &&& bit ≠ 0 ∨ b &&& bit ≠ 0 := by
  have : (a ||| b) &&& bit = a &&& bit ||| b &&& bit := by
    apply UInt32.toBitVec_inj.1
    ext i
    simp [Bool.and_or_distrib_right]
  rw [this, Ne, UInt32.or_eq_zero_iff]
  tauto

/-- Both filters are wanted. -/
theorem forall_wants {m : UInt32} :
    (∀ f, IsFilter f → Wants m f) ↔ m &&& epReadable ≠ 0 ∧ m &&& epWritable ≠ 0 := by
  rw [← wants_read m, ← wants_write m]
  constructor
  · exact fun h => ⟨h _ (.inl rfl), h _ (.inr rfl)⟩
  · rintro ⟨hr, hw⟩ f (rfl | rfl)
    · exact hr
    · exact hw

theorem wants_or {a b : UInt32} {f : Int16} : Wants (a ||| b) f ↔ Wants a f ∨ Wants b f := by
  simp only [Wants, or_and_ne_zero]
  tauto

/-! ### What the engine does to the filters -/

section
variable {K : Type} {kernel : KqueueKernel K} {s : KqueueState} {k k' : K} {fd : Int} {f : Int16}
variable {flags : UInt16} {udata timeout : UInt64} {next : K → Int × K}

theorem keventOr_of_zero (h : (kernel.kevent_change k s.efd ⟨fd, f, flags, udata⟩ timeout).1 = 0) :
    keventOr kernel s k fd f flags udata timeout next =
      next (kernel.kevent_change k s.efd ⟨fd, f, flags, udata⟩ timeout).2 :=
  if_neg (h ▸ by decide)

theorem keventOr_of_neg (h : (kernel.kevent_change k s.efd ⟨fd, f, flags, udata⟩ timeout).1 = -1) :
    (keventOr kernel s k fd f flags udata timeout next).1 = -1 :=
  congrArg Prod.fst (if_pos h)

end

namespace KqueueFilters
variable {K : Type} {kernel : KqueueKernel K} (F : KqueueFilters kernel)
variable (s : KqueueState) (k : K) (fd : Int) (events : UInt32) (data : UInt64)

theorem isFilter_read : IsFilter evfiltRead := .inl rfl

theorem isFilter_write : IsFilter evfiltWrite := .inr rfl

theorem read_ne_write : (fd, evfiltRead) ≠ (fd, evfiltWrite) := fun h => nomatch congrArg Prod.snd h

theorem addFilter_spec {f : Int16} (hf : IsFilter f) (bit : UInt32) (next : K → Int × K) :
    ∃ k', addFilter kernel s k fd events bit f data next = next k' ∧
      F.filter k' s.efd = if events &&& bit ≠ 0 then
        Function.update (F.filter k s.efd) (fd, f) (some ⟨true, data⟩) else F.filter k s.efd := by
  unfold addFilter
  split
  · obtain ⟨hret, hF⟩ := F.add k s.efd fd f data 0 hf
    exact ⟨_, keventOr_of_zero hret, hF⟩
  · exact ⟨k, rfl, rfl⟩

/-- `ep_kqueue_add` creates or updates the filters of the mask. -/
theorem epKqueueAdd_spec : ∃ k', epKqueueAdd kernel s k fd events data = (0, k') ∧
    ∀ x, F.filter k' s.efd x =
      if x.1 = fd ∧ Wants events x.2 then some ⟨true, data⟩ else F.filter k s.efd x := by
  obtain ⟨k₁, h₁, hF₁⟩ := F.addFilter_spec s k fd events data isFilter_read epReadable fun k =>
    addFilter kernel s k fd events epWritable evfiltWrite data fun k => (0, k)
  obtain ⟨k₂, h₂, hF₂⟩ := F.addFilter_spec s k₁ fd events data isFilter_write epWritable fun k => (0, k)
  refine ⟨k₂, h₁.trans h₂, fun ⟨fd', f⟩ => ?_⟩
  rw [hF₂, hF₁]
  have hread := wants_read events
  have hwrite := wants_write events
  by_cases hf : IsFilter f
  · rcases hf with rfl | rfl
    · grind [evfiltRead, evfiltWrite]
    · grind [evfiltRead, evfiltWrite]
  · have hw : ¬Wants events f := fun h => hf h.isFilter
    have hne : (fd', f) ≠ (fd, evfiltRead) := fun h => hf (.inl (congrArg Prod.snd h))
    have hne' : (fd', f) ≠ (fd, evfiltWrite) := fun h => hf (.inr (congrArg Prod.snd h))
    grind

/-- One change of `ep_kqueue_mod`. -/
theorem change_spec {f : Int16} (hf : IsFilter f) {bit : UInt32}
    (hbit : Wants events f ↔ events &&& bit ≠ 0) (timeout : UInt64) :
    let r := kernel.kevent_change k s.efd
      ⟨fd, f, filterFlags events bit, data⟩ timeout
    (Wants events f ∨ F.filter k s.efd (fd, f) ≠ none → r.1 = 0 ∧ ∃ n : Knote,
      (n.enabled ↔ Wants events f) ∧ (Wants events f → n.udata = data) ∧
        F.filter r.2 s.efd = Function.update (F.filter k s.efd) (fd, f) (some n)) ∧
    (¬(Wants events f ∨ F.filter k s.efd (fd, f) ≠ none) → r.1 = -1) := by
  intro r
  by_cases h : Wants events f
  · have hr : r = kernel.kevent_change k s.efd ⟨fd, f, evAdd, data⟩ timeout := by
      simp only [r, filterFlags, if_pos (hbit.1 h)]
    obtain ⟨hret, hF⟩ := F.add k s.efd fd f data timeout hf
    rw [hr]
    refine ⟨fun _ => ⟨hret, _, iff_of_true rfl h, fun _ => rfl, hF⟩, fun h' => absurd (.inl h) h'⟩
  · have hr : r = kernel.kevent_change k s.efd ⟨fd, f, evDisable, data⟩ timeout := by
      simp only [r, filterFlags, if_neg (mt hbit.2 h)]
    rw [hr]
    refine ⟨fun h' => ?_, fun h' => ?_⟩
    · obtain ⟨hret, n, hn, hF⟩ := F.disable k s.efd fd f data timeout hf (h'.resolve_left h)
      exact ⟨hret, n, by simp [hn, h], fun h' => absurd h' h, hF⟩
    · exact F.disable_none k s.efd fd f data timeout hf (not_not.1 fun h'' => h' (.inr h''))

/-- `ep_kqueue_mod`, when every filter exists that is not in the mask. -/
theorem epKqueueMod_ok
    (h : ∀ f, IsFilter f → Wants events f ∨ F.filter k s.efd (fd, f) ≠ none) :
    ∃ k', epKqueueMod kernel s k fd events data = (0, k') ∧
      (∀ x, x.1 ≠ fd ∨ ¬IsFilter x.2 → F.filter k' s.efd x = F.filter k s.efd x) ∧
      ∀ f, IsFilter f → ∃ n, F.filter k' s.efd (fd, f) = some n ∧
        (n.enabled ↔ Wants events f) ∧ (Wants events f → n.udata = data) := by
  obtain ⟨hret, n, hn, hdata, hF⟩ := (F.change_spec s k fd events data isFilter_read
    (wants_read events) 0).1 (h _ isFilter_read)
  have h' := h _ isFilter_write
  rw [← Function.update_of_ne (read_ne_write fd).symm (some n) (F.filter k s.efd), ← hF] at h'
  obtain ⟨hret', n', hn', hdata', hF'⟩ := (F.change_spec s _ fd events data isFilter_write (wants_write events) data).1 h'
  refine ⟨_, (keventOr_of_zero hret).trans (keventOr_of_zero hret'), fun x hx => ?_, fun f hf => ?_⟩
  · rw [hF', hF, Function.update_of_ne, Function.update_of_ne]
    · rintro rfl
      exact hx.elim (fun h => h rfl) fun h => h isFilter_read
    · rintro rfl
      exact hx.elim (fun h => h rfl) fun h => h isFilter_write
  · rw [hF', hF]
    rcases hf with rfl | rfl
    · rw [Function.update_of_ne (read_ne_write fd), Function.update_self]
      exact ⟨n, rfl, hn, hdata⟩
    · rw [Function.update_self]
      exact ⟨n', rfl, hn', hdata'⟩

theorem epKqueueMod_fail
    (h : ¬∀ f, IsFilter f → Wants events f ∨ F.filter k s.efd (fd, f) ≠ none) :
    (epKqueueMod kernel s k fd events data).1 = -1 := by
  obtain ⟨hok, hfail⟩ := F.change_spec s k fd events data isFilter_read
    (wants_read events) 0
  by_cases hr : Wants events evfiltRead ∨ F.filter k s.efd (fd, evfiltRead) ≠ none
  · obtain ⟨hret, n, -, -, hF⟩ := hok hr
    refine (congrArg Prod.fst (keventOr_of_zero hret)).trans (keventOr_of_neg ?_)
    refine (F.change_spec s _ fd events data isFilter_write (wants_write events) data).2 fun hw => h ?_
    rw [hF, Function.update_of_ne (read_ne_write fd).symm] at hw
    rintro f (rfl | rfl)
    · exact hr
    · exact hw
  · exact keventOr_of_neg (hfail hr)

theorem epKqueueDel_ok (h : ∀ f, IsFilter f → F.filter k s.efd (fd, f) ≠ none) :
    ∃ k', epKqueueDel kernel s k fd = (0, k') ∧
      (∀ x, x.1 ≠ fd ∨ ¬IsFilter x.2 → F.filter k' s.efd x = F.filter k s.efd x) ∧
      ∀ f, IsFilter f → F.filter k' s.efd (fd, f) = none := by
  obtain ⟨hret, hF⟩ := F.delete k s.efd fd _ 0 0 isFilter_read (h _ isFilter_read)
  have h' := h _ isFilter_write
  rw [← Function.update_of_ne (read_ne_write fd).symm none (F.filter k s.efd), ← hF] at h'
  obtain ⟨hret', hF'⟩ := F.delete _ s.efd fd _ 0 0 isFilter_write h'
  refine ⟨_, (keventOr_of_zero hret).trans (keventOr_of_zero hret'), fun x hx => ?_, fun f hf => ?_⟩
  · rw [hF', hF, Function.update_of_ne, Function.update_of_ne]
    · rintro rfl
      exact hx.elim (fun h => h rfl) fun h => h isFilter_read
    · rintro rfl
      exact hx.elim (fun h => h rfl) fun h => h isFilter_write
  · rw [hF', hF]
    rcases hf with rfl | rfl
    · rw [Function.update_of_ne (read_ne_write fd), Function.update_self]
    · exact Function.update_self ..

theorem epKqueueDel_fail (h : ¬∀ f, IsFilter f → F.filter k s.efd (fd, f) ≠ none) :
    (epKqueueDel kernel s k fd).1 = -1 := by
  by_cases hr : F.filter k s.efd (fd, evfiltRead) = none
  · exact keventOr_of_neg (F.delete_none k s.efd fd _ 0 0 isFilter_read hr)
  · obtain ⟨hret, hF⟩ := F.delete k s.efd fd _ 0 0 isFilter_read hr
    refine (congrArg Prod.fst (keventOr_of_zero hret)).trans (keventOr_of_neg ?_)
    refine F.delete_none _ s.efd fd _ 0 0 isFilter_write (not_not.1 fun hw => h ?_)
    rw [hF, Function.update_of_ne (read_ne_write fd).symm] at hw
    rintro f (rfl | rfl)
    · exact hr
    · exact hw

/-! ### Steps and runs -/

variable {F s k fd} {made : PollCall.Masks} {c : PollCall} {cs : List PollCall}

namespace Made

theorem eq_none (H : F.Made s.efd made k) (h : made fd = none) (f : Int16) :
    F.filter k s.efd (fd, f) = none := by
  by_contra hne
  obtain ⟨m, hm, -⟩ := (H fd f).1 hne
  rw [h] at hm
  cases hm

theorem ne_none_iff (H : F.Made s.efd made k) {m : UInt32} (h : made fd = some m) (f : Int16) :
    F.filter k s.efd (fd, f) ≠ none ↔ Wants m f := by
  rw [H fd f, h]
  simp

/-- The filters of the other descriptors are still those of their masks. -/
theorem update {k' : K} {v : Option UInt32} (H : F.Made s.efd made k)
    (hother : ∀ x, x.1 ≠ fd → F.filter k' s.efd x = F.filter k s.efd x)
    (hown : ∀ f, F.filter k' s.efd (fd, f) ≠ none ↔ ∃ m, v = some m ∧ Wants m f) :
    F.Made s.efd (Function.update made fd v) k' := by
  intro fd' f
  rcases eq_or_ne fd' fd with rfl | hne
  · rw [Function.update_self]
    exact hown f
  · rw [hother (fd', f) hne, Function.update_of_ne hne]
    exact H fd' f

theorem add (H : F.Made s.efd made k) (h : made fd = none) :
    ∃ k', epKqueueAdd kernel s k fd events data = (0, k') ∧
      F.InStep s.efd k (.add fd events data) 0 k' ∧
      F.Made s.efd (Function.update made fd (some events)) k' := by
  obtain ⟨k', hrun, hF⟩ := F.epKqueueAdd_spec s k fd events data
  have hother : ∀ x, x.1 ≠ fd → F.filter k' s.efd x = F.filter k s.efd x := by
    intro x hx
    rw [hF, if_neg fun h => hx h.1]
  have hown : ∀ f, F.filter k' s.efd (fd, f) =
      if Wants events f then some ⟨true, data⟩ else none := by
    intro f
    rw [hF, H.eq_none h]
    exact if_congr (and_iff_right rfl) rfl rfl
  refine ⟨k', hrun, ⟨rfl, hother, fun f => ?_⟩, H.update hother fun f => ?_⟩
  · rw [armed, hown]
    split <;> rfl
  · rw [hown]
    split <;> simp_all

theorem mod (H : F.Made s.efd made k) {m : UInt32} (hm : made fd = some m)
    (h : ∀ f, IsFilter f → Wants (m ||| events) f) :
    ∃ k', epKqueueMod kernel s k fd events data = (0, k') ∧
      F.InStep s.efd k (.mod fd events data) 0 k' ∧
      F.Made s.efd (Function.update made fd (some (m ||| events))) k' := by
  obtain ⟨k', hrun, hother, hown⟩ := F.epKqueueMod_ok s k fd events data fun f hf => by
    rw [H.ne_none_iff hm]
    exact (wants_or.1 (h f hf)).symm
  have hnone : ∀ f, ¬IsFilter f → F.filter k' s.efd (fd, f) = none := by
    intro f hf
    rw [hother (fd, f) (.inr hf)]
    exact not_not.1 fun hne => hf ((H.ne_none_iff hm f).1 hne).isFilter
  refine ⟨k', hrun, ⟨rfl, fun x hx => hother x (.inl hx), fun f => ?_⟩,
    H.update (fun x hx => hother x (.inl hx)) fun f => ?_⟩
  · unfold armed
    by_cases hf : IsFilter f
    · obtain ⟨n, hn, hen, hdata⟩ := hown f hf
      rw [hn]
      by_cases hw : Wants events f
      · simp [hw, hen.2 hw, hdata hw]
      · simp [hw, mt hen.1 hw]
    · rw [hnone f hf, if_neg fun hw => hf hw.isFilter]
      rfl
  · by_cases hf : IsFilter f
    · obtain ⟨n, hn, -⟩ := hown f hf
      simp [hn, h f hf]
    · rw [hnone f hf]
      simpa using fun hw : Wants (m ||| events) f => hf hw.isFilter

theorem del (H : F.Made s.efd made k) {m : UInt32} (hm : made fd = some m)
    (h : ∀ f, IsFilter f → Wants m f) :
    ∃ k', epKqueueDel kernel s k fd = (0, k') ∧ F.InStep s.efd k (.del fd) 0 k' ∧
      F.Made s.efd (Function.update made fd none) k' := by
  obtain ⟨k', hrun, hother, hown⟩ := F.epKqueueDel_ok s k fd fun f hf => (H.ne_none_iff hm f).2 (h f hf)
  have hnone : ∀ f, F.filter k' s.efd (fd, f) = none := by
    intro f
    by_cases hf : IsFilter f
    · exact hown f hf
    · rw [hother (fd, f) (.inr hf)]
      exact not_not.1 fun hne => hf ((H.ne_none_iff hm f).1 hne).isFilter
  refine ⟨k', hrun, ⟨rfl, fun x hx => hother x (.inl hx), hnone⟩,
    H.update (fun x hx => hother x (.inl hx)) fun f => ?_⟩
  rw [hnone]
  simp

/-- One call keeps the kernel in step exactly if both bits are there. -/
theorem step (H : F.Made s.efd made k) (hlegal : c.Legal made) :
    ∃ ret k', c.exec (kqueueApi kernel) s k = .ok (ret, s, k') ∧
      (F.InStep s.efd k c ret k' ↔ c.BothBits made) ∧
      (c.BothBits made → F.Made s.efd (c.masks made) k') := by
  cases c with
  | add fd events data =>
    obtain ⟨k', hrun, hin, H'⟩ := H.add events data hlegal
    exact ⟨0, k', by simp [PollCall.exec, kqueueApi, hrun], iff_of_true hin trivial, fun _ => H'⟩
  | mod fd events data =>
    obtain ⟨m, hm⟩ := Option.ne_none_iff_exists'.1 hlegal
    have hboth : (PollCall.mod fd events data).BothBits made ↔
        ∀ f, IsFilter f → Wants (m ||| events) f := by
      simp [PollCall.BothBits, hm, forall_wants]
    by_cases h : ∀ f, IsFilter f → Wants (m ||| events) f
    · obtain ⟨k', hrun, hin, H'⟩ := H.mod events data hm h
      refine ⟨0, k', by simp [PollCall.exec, kqueueApi, hrun], iff_of_true hin (hboth.2 h), ?_⟩
      simpa [PollCall.masks, hm] using fun _ => H'
    · have hret := F.epKqueueMod_fail s k fd events data fun h' =>
        h fun f hf => wants_or.2 ((h' f hf).symm.imp_left (H.ne_none_iff hm f).1)
      refine ⟨_, _, rfl, iff_of_false (fun hin => ?_) (mt hboth.1 h), fun h' => absurd (hboth.1 h') h⟩
      cases hret.symm.trans hin.ret
  | del fd =>
    obtain ⟨m, hm⟩ := Option.ne_none_iff_exists'.1 hlegal
    have hboth : (PollCall.del fd).BothBits made ↔ ∀ f, IsFilter f → Wants m f := by
      simp [PollCall.BothBits, hm, forall_wants]
    by_cases h : ∀ f, IsFilter f → Wants m f
    · obtain ⟨k', hrun, hin, H'⟩ := H.del hm h
      exact ⟨0, k', by simp [PollCall.exec, kqueueApi, hrun], iff_of_true hin (hboth.2 h), fun _ => H'⟩
    · have hret := F.epKqueueDel_fail s k fd fun h' =>
        h fun f hf => (H.ne_none_iff hm f).1 (h' f hf)
      refine ⟨_, _, rfl, iff_of_false (fun hin => ?_) (mt hboth.1 h), fun h' => absurd (hboth.1 h') h⟩
      cases hret.symm.trans hin.ret

theorem run (H : F.Made s.efd made k) (hlegal : PollCall.LegalRun made cs) :
    F.InStepRun s k cs ↔ PollCall.BothBitsRun made cs := by
  induction cs generalizing k made with
  | nil => exact Iff.rfl
  | cons c cs ih =>
    obtain ⟨ret, k', hrun, hiff, H'⟩ := H.step hlegal.1
    simp only [InStepRun, hrun, PollCall.BothBitsRun, hiff]
    exact and_congr_right fun h => ih (H' h) hlegal.2

end Made

end KqueueFilters

/-- **The engine keeps the filters in step with the requested events exactly if no call disables or
deletes a filter that was never made**: in any sequence of calls from an empty queue, on descriptors that
are registered as each call wants. -/
theorem kqueue_filters_iff {K : Type} {kernel : KqueueKernel K} (F : KqueueFilters kernel)
    (s : KqueueState) {k : K} (hk : ∀ x, F.filter k s.efd x = none) {cs : List PollCall}
    (hlegal : PollCall.LegalRun (fun _ => none) cs) :
    F.InStepRun s k cs ↔ PollCall.BothBitsRun (fun _ => none) cs :=
  KqueueFilters.Made.run (fun fd f => by simp [hk]) hlegal

/-- A kernel that keeps its filters in a table, and reports nothing. -/
def tableKqueue : KqueueKernel (Int → Int × Int16 → Option Knote) where
  kevent_change k kq c _ :=
    let set (v : Option Knote) := Function.update k kq (Function.update (k kq) (c.ident, c.filter) v)
    if c.flags = evAdd then (0, set (some ⟨true, c.udata⟩))
    else if k kq (c.ident, c.filter) = none then (-1, k)
    else if c.flags = evDisable then (0, set (some ⟨false, c.udata⟩))
    else (0, set none)
  kevent_wait k _ _ _ := ((0, []), k)
  wait_le _ _ _ _ h := absurd h (Int.lt_irrefl 0)

def tableFilters : KqueueFilters tableKqueue where
  filter k := k
  add k kq fd f udata timeout _ := ⟨rfl, by simp [tableKqueue]⟩
  disable k kq fd f udata timeout _ h :=
    ⟨by simp [tableKqueue, evAdd, evDisable, h], ⟨false, udata⟩, rfl,
      by simp [tableKqueue, evAdd, evDisable, h]⟩
  disable_none k kq fd f udata timeout _ h := by simp [tableKqueue, evAdd, evDisable, h]
  delete k kq fd f udata timeout _ h := by simp [tableKqueue, evAdd, evDisable, evDelete, h]
  delete_none k kq fd f udata timeout _ h := by simp [tableKqueue, evAdd, evDelete, h]

/-- The state of the engine after `ep_kqueue_init`. -/
def freshKqueue : KqueueState := (epKqueueInit ⟨0, 0, 0, fun _ => ⟨0, 0, 0, 0⟩⟩ 5 false).2

/-- Both descriptors have had both bits before they are deleted. -/
def bothOps : List PollCall :=
  [.add 3 (epReadable ||| epWritable) 7, .add 4 epReadable 9, .mod 3 epReadable 8,
    .mod 4 epWritable 9, .del 3, .del 4]

theorem kqueue_filters_iff_sample :
    tableFilters.InStepRun freshKqueue (fun _ _ => none) bothOps := by
  apply (kqueue_filters_iff tableFilters freshKqueue (fun _ => rfl) (by decide)).2
  refine ⟨trivial, trivial, ?_, ?_, ?_, ?_, trivial⟩ <;>
  · intro m h
    cases h
    decide

/-- A descriptor that was watched for reading only is deleted. -/
def readOps : List PollCall := [.add 3 epReadable 7, .del 3]

theorem kqueue_del_fails :
    PollCall.LegalRun (fun _ => none) readOps ∧
      ((PollCall.del 3).exec (kqueueApi tableKqueue) freshKqueue
        (epKqueueAdd tableKqueue freshKqueue (fun _ _ => none) 3 epReadable 7).2).map (·.1) = .ok (-1) ∧
      ¬tableFilters.InStepRun freshKqueue (fun _ _ => none) readOps := by
  refine ⟨by decide, by decide, ?_⟩
  intro hrun
  obtain ⟨-, h, -⟩ := hrun
  cases h.ret

end Libep

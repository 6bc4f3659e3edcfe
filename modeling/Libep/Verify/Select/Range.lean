import Libep.Verify.Select.Wait

/-!
# The range the select engine polls

`ep_select_add` does not record the descriptor in `fds`, the set in which `ep_select_del` looks for the
next greatest one. The bound on the descriptors is right in every state of a run exactly if no step
removes the greatest descriptor while others are registered.
-/

namespace Libep

/-- A call that changes the registration. -/
inductive SelectOp where
  | add (fd : Nat) (events : UInt32) (data : UInt64)
  | mod (fd : Nat) (events : UInt32) (data : UInt64)
  | del (fd : Nat)
  deriving DecidableEq

namespace SelectOp

def exec (size : Nat) (s : SelectState) : SelectOp → Res SelectState
  | add fd events data => do return (← epSelectAdd size s fd events data).2
  | mod fd events data => do return (← epSelectMod size s fd events data).2
  | del fd => do return (← epSelectDel size s fd).2

/-- The registered descriptors after a call. -/
def register (reg : Finset Nat) : SelectOp → Finset Nat
  | add fd _ _ => insert fd reg
  | mod _ _ _ => reg
  | del fd => reg.erase fd

/-- Adds are of descriptors that are not registered, the other calls of ones that are. -/
def Legal (size : Nat) (reg : Finset Nat) : SelectOp → Prop
  | add fd _ _ => fd < size ∧ fd ∉ reg
  | mod fd _ _ | del fd => fd < size ∧ fd ∈ reg

/-- The greatest registered descriptor is deleted last. -/
def Safe (reg : Finset Nat) : SelectOp → Prop
  | del fd => (∀ fd' ∈ reg, fd' ≤ fd) → reg.erase fd = ∅
  | _ => True

instance (size : Nat) (reg : Finset Nat) : (op : SelectOp) → Decidable (op.Legal size reg)
  | add _ _ _ | mod _ _ _ | del _ => inferInstanceAs (Decidable (_ ∧ _))

instance (reg : Finset Nat) : (op : SelectOp) → Decidable (op.Safe reg)
  | add _ _ _ | mod _ _ _ => .isTrue trivial
  | del _ => inferInstanceAs (Decidable (_ → _))

end SelectOp

def execSelect (size : Nat) : SelectState → List SelectOp → Res SelectState
  | s, [] => return s
  | s, op :: ops => do execSelect size (← op.exec size s) ops

def registered (reg : Finset Nat) (ops : List SelectOp) : Finset Nat := ops.foldl SelectOp.register reg

/-- `maxfd` is the greatest registered descriptor, or -1. -/
def Greatest (reg : Finset Nat) (maxfd : Int) : Prop :=
  (reg = ∅ ∧ maxfd = -1) ∨ ∃ fd ∈ reg, maxfd = fd ∧ ∀ fd' ∈ reg, fd' ≤ fd

/-- `maxfd` is right, and every watched descriptor among the first `maxfd + 1`. -/
structure InRange (s : SelectState) (reg : Finset Nat) : Prop where
  greatest : Greatest reg s.maxfd
  watched : ∀ fd ∈ s.rfds ∪ s.wfds ∪ s.efds, (fd : Int) < s.maxfd + 1

/-- What every state keeps, whatever `maxfd` is: nothing enters `fds`, and only registered descriptors
are watched. -/
structure Kept (size : Nat) (s : SelectState) (reg : Finset Nat) : Prop where
  fds : s.fds = ∅
  watched : s.rfds ∪ s.wfds ∪ s.efds ⊆ reg
  lt : ∀ fd ∈ reg, fd < size

variable {size : Nat} {s s' : SelectState} {reg : Finset Nat} {op : SelectOp} {ops : List SelectOp}

theorem Kept.inRange (H : Kept size s reg) (h : Greatest reg s.maxfd) : InRange s reg := by
  refine ⟨h, fun fd hfd => ?_⟩
  rcases h with ⟨rfl, -⟩ | ⟨top, -, hmax, hle⟩
  · exact absurd (H.watched hfd) (Finset.notMem_empty fd)
  · have := hle fd (H.watched hfd)
    omega

theorem lastSet_empty (k : Nat) : lastSet ∅ k = -1 := by
  induction k with
  | zero => rfl
  | succ k ih => rw [lastSet, if_neg (Finset.notMem_empty k), ih]

section
variable {fd : Nat} (events bit : UInt32) (set : Finset Nat)

theorem fdSet_eq (h : fd < size) : fdSet size fd set = .ok (insert fd set) :=
  if_pos ⟨Int.natCast_nonneg fd, Int.ofNat_lt.2 h⟩

theorem fdClr_eq (h : fd < size) : fdClr size fd set = .ok (set.erase fd) :=
  if_pos ⟨Int.natCast_nonneg fd, Int.ofNat_lt.2 h⟩

theorem setData_eq (s : SelectState) (data : UInt64) (h : fd < size) :
    setData size s fd data = .ok { s with data := Function.update s.data fd data } :=
  if_pos ⟨Int.natCast_nonneg fd, Int.ofNat_lt.2 h⟩

/-- A set grows by the descriptor at most. -/
theorem addWhen_eq (h : fd < size) :
    ∃ set', addWhen size events bit fd set = .ok set' ∧ set' ⊆ insert fd set := by
  unfold addWhen
  split
  · exact ⟨_, fdSet_eq set h, Finset.Subset.refl _⟩
  · exact ⟨set, rfl, Finset.subset_insert fd set⟩

theorem setTo_eq (h : fd < size) :
    ∃ set', setTo size events bit fd set = .ok set' ∧ set' ⊆ insert fd set := by
  unfold setTo
  split
  · exact ⟨_, fdSet_eq set h, Finset.Subset.refl _⟩
  · exact ⟨_, fdClr_eq set h, (Finset.erase_subset fd set).trans (Finset.subset_insert fd set)⟩

end

/-- The registered descriptors cover the watched sets after each of them grew by the descriptor. -/
private theorem union_subset_insert {fd : Nat} {R W E R' W' E' : Finset Nat} (h : R ∪ W ∪ E ⊆ reg)
    (hR : R' ⊆ insert fd R) (hW : W' ⊆ insert fd W) (hE : E' ⊆ insert fd E) :
    R' ∪ W' ∪ E' ⊆ insert fd reg := by
  obtain ⟨h', hE'⟩ := Finset.union_subset_iff.1 h
  obtain ⟨hR', hW'⟩ := Finset.union_subset_iff.1 h'
  refine Finset.union_subset (Finset.union_subset ?_ ?_) ?_
  · exact hR.trans (Finset.insert_subset_insert fd hR')
  · exact hW.trans (Finset.insert_subset_insert fd hW')
  · exact hE.trans (Finset.insert_subset_insert fd hE')

variable {fd : Nat}

theorem Greatest.insert {m : Int} (H : Greatest reg m) (fd : Nat) :
    Greatest (insert fd reg) (if (fd : Int) > m then fd else m) := by
  right
  rcases H with ⟨rfl, rfl⟩ | ⟨top, htop, rfl, hle⟩
  · refine ⟨fd, Finset.mem_insert_self .., if_pos (by omega), fun fd' h => ?_⟩
    rw [Finset.mem_insert] at h
    exact h.elim Nat.le_of_eq fun h => absurd h (Finset.notMem_empty fd')
  · rcases lt_or_ge (top : Int) fd with hlt | hlt
    · refine ⟨fd, Finset.mem_insert_self .., if_pos hlt, fun fd' h => ?_⟩
      rcases Finset.mem_insert.1 h with rfl | h
      · exact Nat.le_refl _
      · exact Nat.le_trans (hle fd' h) (by omega)
    · refine ⟨top, Finset.mem_insert_of_mem htop, if_neg (not_lt.2 hlt), fun fd' h => ?_⟩
      rcases Finset.mem_insert.1 h with rfl | h
      · omega
      · exact hle fd' h

theorem Greatest.le {m : Int} (H : Greatest reg m) (h : fd ∈ reg) : (fd : Int) ≤ m := by
  rcases H with ⟨rfl, -⟩ | ⟨top, -, rfl, hle⟩
  · exact absurd h (Finset.notMem_empty fd)
  · exact Int.ofNat_le.2 (hle fd h)

/-- `maxfd` after `ep_select_del`. -/
theorem Greatest.erase {m : Int} (H : Greatest reg m) (hfd : fd ∈ reg) :
    Greatest (reg.erase fd) (if (fd : Int) = m then -1 else m) ↔
      ((∀ fd' ∈ reg, fd' ≤ fd) → reg.erase fd = ∅) := by
  have hle := fun {fd'} (h : fd' ∈ reg) => H.le h
  by_cases hm : (fd : Int) = m
  · rw [if_pos hm]
    have hmax : ∀ fd' ∈ reg, fd' ≤ fd := fun fd' h => by have := hle h; omega
    constructor
    · rintro (⟨h, -⟩ | ⟨top, -, h, -⟩) _
      · exact h
      · omega
    · exact fun h => .inl ⟨h hmax, rfl⟩
  · rw [if_neg hm]
    rcases H with ⟨rfl, -⟩ | ⟨top, htop, rfl, hmax⟩
    · exact absurd hfd (Finset.notMem_empty fd)
    · have hne : top ≠ fd := fun h => hm (h ▸ rfl)
      constructor
      · intro _ h
        exact absurd (Nat.le_antisymm (h top htop) (hmax fd hfd)) hne
      · intro _
        exact .inr ⟨top, Finset.mem_erase.2 ⟨hne, htop⟩, rfl,
          fun fd' h => hmax fd' (Finset.mem_of_mem_erase h)⟩

/-- One call. -/
theorem SelectOp.exec_spec (H : Kept size s reg) (hlegal : op.Legal size reg) :
    ∃ s', op.exec size s = .ok s' ∧ Kept size s' (op.register reg) ∧
      (Greatest reg s.maxfd → (Greatest (op.register reg) s'.maxfd ↔ op.Safe reg)) := by
  cases op with
  | add fd events data =>
    obtain ⟨hfd, -⟩ := hlegal
    obtain ⟨R', hR, hRs⟩ := addWhen_eq events epReadable s.rfds hfd
    obtain ⟨W', hW, hWs⟩ := addWhen_eq events epWritable s.wfds hfd
    obtain ⟨E', hE, hEs⟩ := addWhen_eq events epExcept s.efds hfd
    have hrun : exec size s (.add fd events data) = .ok { s with
        rfds := R', wfds := W', efds := E'
        maxfd := if (fd : Int) > s.maxfd then fd else s.maxfd
        data := Function.update s.data fd data } := by
      simp only [exec, epSelectAdd, if_neg (show ¬(fd : Int) ≥ size by omega), hR, hW, hE,
        setData_eq _ data hfd, Res.ok_bind, Res.pure_eq]
    refine ⟨_, hrun, ⟨H.fds, union_subset_insert H.watched hRs hWs hEs, ?_⟩,
      fun h => iff_of_true (h.insert fd) trivial⟩
    exact (Finset.forall_mem_insert ..).2 ⟨hfd, H.lt⟩
  | mod fd events data =>
    obtain ⟨hfd, hreg⟩ := hlegal
    obtain ⟨R', hR, hRs⟩ := setTo_eq events epReadable s.rfds hfd
    obtain ⟨W', hW, hWs⟩ := setTo_eq events epWritable s.wfds hfd
    obtain ⟨E', hE, hEs⟩ := setTo_eq events epExcept s.efds hfd
    have hrun : exec size s (.mod fd events data) = .ok { s with
        rfds := R', wfds := W', efds := E', data := Function.update s.data fd data } := by
      simp only [exec, epSelectMod, if_neg (show ¬(fd : Int) ≥ size by omega), hR, hW, hE,
        setData_eq _ data hfd, Res.ok_bind, Res.pure_eq]
    have hsub := union_subset_insert H.watched hRs hWs hEs
    rw [Finset.insert_eq_of_mem hreg] at hsub
    exact ⟨_, hrun, ⟨H.fds, hsub, H.lt⟩, fun h => iff_of_true h trivial⟩
  | del fd =>
    obtain ⟨hfd, hreg⟩ := hlegal
    have hrun : exec size s (.del fd) = .ok { s with
        fds := ∅, rfds := s.rfds.erase fd, wfds := s.wfds.erase fd, efds := s.efds.erase fd
        maxfd := if (fd : Int) = s.maxfd then -1 else s.maxfd } := by
      simp only [exec, epSelectDel, fdClr_eq _ hfd, H.fds, Finset.erase_empty, Int.toNat_natCast,
        lastSet_empty, Res.ok_bind, Res.pure_eq]
    refine ⟨_, hrun, ⟨rfl, ?_, fun fd' h => H.lt fd' (Finset.mem_of_mem_erase h)⟩,
      fun h => h.erase hreg⟩
    show s.rfds.erase fd ∪ s.wfds.erase fd ∪ s.efds.erase fd ⊆ reg.erase fd
    rw [← Finset.erase_union_distrib, ← Finset.erase_union_distrib]
    exact Finset.erase_subset_erase fd H.watched

/-- A run from a state where `maxfd` is right. -/
theorem inRange_run_iff (H : Kept size s reg) (hmax : Greatest reg s.maxfd)
    (hlegal : ∀ k (hk : k < ops.length), ops[k].Legal size (registered reg (ops.take k))) :
    (∀ k ≤ ops.length, ∃ s', execSelect size s (ops.take k) = .ok s' ∧
        InRange s' (registered reg (ops.take k))) ↔
      ∀ k (hk : k < ops.length), ops[k].Safe (registered reg (ops.take k)) := by
  induction ops generalizing s reg with
  | nil =>
    constructor
    · exact fun _ k hk => absurd hk (Nat.not_lt_zero k)
    · intro _ k _
      exact ⟨s, by simp [execSelect], by simpa [registered] using H.inRange hmax⟩
  | cons op ops ih =>
    obtain ⟨s₁, h₁, H₁, hiff⟩ := op.exec_spec H (hlegal 0 (Nat.succ_pos _))
    have hiff := hiff hmax
    have ih' := fun h => @ih s₁ (op.register reg) H₁ h
      fun k hk => hlegal (k + 1) (Nat.succ_lt_succ hk)
    -- the states after the first are those of the rest of the run
    have hrest : ∀ k, execSelect size s ((op :: ops).take (k + 1)) =
        execSelect size s₁ (ops.take k) := by
      intro k
      simp [execSelect, h₁]
    constructor
    · intro h
      obtain ⟨s', hrun, hin⟩ := h 1 (Nat.succ_le_succ (Nat.zero_le _))
      obtain rfl : s₁ = s' := by simpa [execSelect, h₁] using hrun
      have hsafe := (ih' hin.greatest).1 fun k hk => by
        have := h (k + 1) (Nat.succ_le_succ hk)
        rwa [hrest] at this
      intro k hk
      cases k with
      | zero => exact hiff.1 hin.greatest
      | succ k => exact hsafe k (Nat.lt_of_succ_lt_succ hk)
    · intro hsafe k hk
      have hmax₁ := hiff.2 (hsafe 0 (Nat.succ_pos _))
      cases k with
      | zero => exact ⟨s, rfl, H.inRange hmax⟩
      | succ k =>
        rw [hrest]
        exact (ih' hmax₁).2 (fun k hk => hsafe (k + 1) (Nat.succ_lt_succ hk)) k
          (Nat.le_of_succ_le_succ hk)

theorem Kept.init (s : SelectState) (ee : Nat → SelectEvent) :
    Kept size (epSelectInit s false false ee).2 ∅ :=
  ⟨rfl, Finset.Subset.refl _, nofun⟩

/-- **`maxfd` is the greatest registered descriptor in every state of a run**, and so every watched
descriptor is polled, exactly if no call deletes the greatest descriptor while others are
registered. -/
theorem select_maxfd (s : SelectState) (ee : Nat → SelectEvent)
    (hlegal : ∀ k (hk : k < ops.length), ops[k].Legal size (registered ∅ (ops.take k))) :
    (∀ k ≤ ops.length, ∃ s',
        execSelect size (epSelectInit s false false ee).2 (ops.take k) = .ok s' ∧
          InRange s' (registered ∅ (ops.take k))) ↔
      ∀ k (hk : k < ops.length), ops[k].Safe (registered ∅ (ops.take k)) :=
  inRange_run_iff (.init s ee) (.inl ⟨rfl, rfl⟩) hlegal

/-- Descriptors 3 and 5 are added; the smaller one is deleted before the greater one. -/
def safeOps : List SelectOp :=
  [.add 3 epReadable 0, .add 5 epWritable 0, .mod 5 epReadable 0, .del 3, .del 5]

theorem select_maxfd_sample :
    registered ∅ safeOps = ∅ ∧
      ∀ k ≤ safeOps.length, ∃ s', execSelect 1024 freshSelect (safeOps.take k) = .ok s' ∧
        InRange s' (registered ∅ (safeOps.take k)) :=
  ⟨rfl, (@select_maxfd 1024 safeOps rawSelect staleEvents (by decide)).2 (by decide)⟩

/-- Descriptors 3 and 5 are added, and the greater one is deleted. -/
def lostOps : List SelectOp := [.add 3 epReadable 0, .add 5 epReadable 0, .del 5]

/-- After the deletion `maxfd` is -1, while descriptor 3 is registered. -/
theorem select_maxfd_lost :
    (∀ k (hk : k < lostOps.length), lostOps[k].Legal 1024 (registered ∅ (lostOps.take k))) ∧
      ¬∀ k ≤ lostOps.length, ∃ s', execSelect 1024 freshSelect (lostOps.take k) = .ok s' ∧
        InRange s' (registered ∅ (lostOps.take k)) := by
  refine ⟨by decide, fun h => ?_⟩
  have hsafe := (@inRange_run_iff 1024 freshSelect ∅ lostOps (.init _ _)
    (.inl ⟨rfl, by decide⟩) (by decide)).1 h
  exact absurd (hsafe 2 (by decide)) (by decide)

end Libep

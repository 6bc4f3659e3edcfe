import Libep.Verify.SkipList.Ragged
import Libep.Verify.SkipList.Run

/-!
# Runs with shift

Whole runs of the operations of `skiplist.h`, `skiplist_shift` among them, from `skiplist_init`, against
a stable priority queue that runs alongside. Without deletions the code is that queue
(`skiplist_priority_queue`). A deletion may leave a link behind in a node that is hidden when it runs, and
a later shift brings the link back (`skiplist_removed_reachable`); it does not where no such link is
(`skiplist_removed_unreachable`).
-/

namespace Libep
open Chain SkipList StableList

variable {σ α : Type}

/-- What a user does with a list that is a queue, too. -/
inductive QueueOp (σ α : Type) where
  | base (op : SkipOp σ α)
  | shift

/-- The queue a run should hold, the scores of all nodes, linked or not, and the nodes taken off so
far. -/
structure PrioQueue (σ α : Type) where
  list : List α
  score : α → σ
  removed : List α

namespace PrioQueue

/-- A run inserts nodes that are not linked, with any height, and deletes linked ones; it leaves the scores
of linked nodes alone. -/
def Legal (S : PrioQueue σ α) : QueueOp σ α → Prop
  | .base (.nodeInit a _) | .base (.setScore a _) | .base (.insert a _) => a ∉ S.list
  | .base (.delete a) => a ∈ S.list
  | .base (.extractLte _) | .shift => True

/-- A node that was taken off is not inserted again. -/
def Fresh (S : PrioQueue σ α) : QueueOp σ α → Prop
  | .base (.insert a _) => a ∉ S.removed
  | _ => True

/-- The empty queue over the memory `s`. -/
def init (s : SkipList σ α) : PrioQueue σ α := ⟨[], fun a => (s.node a).score, []⟩

variable [DecidableEq α] [LinearOrder σ]

/-- The queue without the nodes it hands out. -/
def take (S : PrioQueue σ α) (list out : List α) : PrioQueue σ α × List α :=
  ({ S with list, removed := S.removed ++ out }, out)

/-- One operation on the queue, with the nodes it hands out. -/
def step (S : PrioQueue σ α) : QueueOp σ α → PrioQueue σ α × List α
  | .base (.nodeInit a c) | .base (.setScore a c) =>
    ({ S with score := Function.update S.score a c }, [])
  | .base (.insert a _) => ({ S with list := stableInsert S.score a S.list }, [])
  | .base (.delete a) =>
    ({ S with list := S.list.filter (· ≠ a), removed := S.removed ++ [a] }, [])
  | .base (.extractLte c) => S.take (above S.score c S.list) (upTo S.score c S.list)
  | .shift => S.take S.list.tail S.list.head?.toList

/-- A run on the queue, with what each operation hands out. -/
def run : PrioQueue σ α → List (QueueOp σ α) → PrioQueue σ α × List (List α)
  | S, [] => (S, [])
  | S, op :: ops =>
    let (S₁, out) := S.step op
    let (S', outs) := run S₁ ops
    (S', out :: outs)

/-- `P` holds of every operation of the run where it happens. -/
def Along (P : PrioQueue σ α → QueueOp σ α → Prop) : PrioQueue σ α → List (QueueOp σ α) → Prop
  | _, [] => True
  | S, op :: ops => P S op ∧ Along P (S.step op).1 ops

end PrioQueue

section
variable [DecidableEq α] [LinearOrder σ] (level fuel : Nat)

/-- One operation of the code, with the nodes it hands out; a `NULL` of `shift` is none. -/
def QueueOp.exec (s : SkipList σ α) : QueueOp σ α → Res (SkipList σ α × List α)
  | .base op => op.exec level fuel s
  | .shift => do
    let (p, s) ← skiplistShift level s
    return (s, p.toList)

/-- A run of the code, with what each operation hands out. -/
def queueRun : SkipList σ α → List (QueueOp σ α) → Res (SkipList σ α × List (List α))
  | s, [] => return (s, [])
  | s, op :: ops => do
    let (s, out) ← op.exec level fuel s
    let (s, outs) ← queueRun s ops
    return (s, out :: outs)

/-- A deletion happens where no hidden node is linked to the node. -/
def Safe (s : SkipList σ α) : QueueOp σ α → Prop
  | .base (.delete a) => s.Unhidden level a
  | _ => True

/-- Every operation of the run is safe where it happens. -/
def SafeRun : SkipList σ α → List (QueueOp σ α) → Prop
  | _, [] => True
  | s, op :: ops => Safe level s op ∧
    ∀ s' out, op.exec level fuel s = .ok (s', out) → SafeRun s' ops

end

/-! ### One operation -/

/-- The memory `s` holds the queue, every node is allocated, and the scores agree. -/
structure Queued [LinearOrder σ] (level : Nat) (s : SkipList σ α) (S : PrioQueue σ α)
    (p : Nat → Ref α → List α) : Prop where
  ragged : Ragged level s S.list p
  live : ∀ a, s.live a
  key : s.key = S.score

namespace Queued
variable [LinearOrder σ] {level : Nat} {s s' : SkipList σ α} {S : PrioQueue σ α}
  {p p' : Nat → Ref α → List α}

theorem frame (H : Queued level s S p) {W : Nat → Ref α → Prop} (F : Frame s s' W) {L R : List α}
    (HL : Ragged level s' L p') : Queued level s' ⟨L, S.score, R⟩ p' :=
  ⟨HL, fun a => by rw [F.live]; exact H.live a, (funext F.score : s'.key = s.key).trans H.key⟩

variable [DecidableEq α]

/-- A write to a node that is not linked. -/
theorem write (H : Queued level s S p) (hlevel : 0 < level) {a : α} (ha : a ∉ S.list)
    (n : SkipNode σ α) :
    Queued level { s with node := Function.update s.node a n }
      { S with score := Function.update S.score a n.score } p := by
  refine ⟨H.ragged.move hlevel rfl (fun b hb => ?_) fun b _ => H.live b, H.live, ?_⟩
  · apply Function.update_of_ne
    rintro rfl
    exact ha hb
  · funext b
    rcases eq_or_ne b a with rfl | hb
    · simp [SkipList.key]
    · simpa [SkipList.key, hb] using congrFun H.key b

theorem exec (H : Queued level s S p) (hlevel : 0 < level) {op : QueueOp σ α} (hop : S.Legal op)
    (hsafe : Safe level s op) {fuel : Nat} (hf : S.list.length < fuel) :
    ∃ s' p', op.exec level fuel s = .ok (s', (S.step op).2) ∧ Queued level s' (S.step op).1 p' := by
  cases op with
  | base op =>
    cases op with
    | nodeInit a c => exact ⟨_, p, rfl, H.write hlevel hop _⟩
    | setScore a c => exact ⟨_, p, rfl, H.write hlevel hop _⟩
    | insert a hits =>
      obtain ⟨s', p', hrun, H', F⟩ := H.ragged.insert hlevel (H.live a) hop hf hits
      rw [H.key] at H'
      exact ⟨s', p', by simp [QueueOp.exec, SkipOp.exec, hrun, PrioQueue.step], H.frame F H'⟩
    | delete a =>
      obtain ⟨s', p', hrun, H', F⟩ := H.ragged.delete hlevel hop hsafe hf
      exact ⟨s', p', by simp [QueueOp.exec, SkipOp.exec, hrun, PrioQueue.step], H.frame F H'⟩
    | extractLte c =>
      obtain ⟨s', p', hrun, H', hfrom, F⟩ := H.ragged.extractLte hlevel hf c
      rw [H.key] at H' hfrom hrun
      have HS := @frame _ _ _ _ _ _ _ _ _ H _ F _ (S.removed ++ upTo S.score c S.list) H'
      have hout := skiplistForEach_spec hfrom (fun a _ => HS.live a)
        (Nat.lt_of_le_of_lt (List.length_filter_le ..) hf)
      exact ⟨s', p', by simp [QueueOp.exec, SkipOp.exec, hrun, hout, PrioQueue.step, PrioQueue.take], HS⟩
  | shift =>
    obtain ⟨s', p', hrun, H', F⟩ := H.ragged.shift hlevel
    exact ⟨s', p', by simp [QueueOp.exec, hrun, PrioQueue.step, PrioQueue.take], H.frame F H'⟩

end Queued

variable [DecidableEq α] [LinearOrder σ] {level fuel : Nat} {s : SkipList σ α} {S : PrioQueue σ α}
  {p : Nat → Ref α → List α}

theorem PrioQueue.length_step (hS : Sorted S.score S.list) (op : QueueOp σ α) :
    (S.step op).1.list.length ≤ S.list.length + 1 := by
  cases op with
  | base op =>
    cases op with
    | nodeInit | setScore => exact Nat.le_succ _
    | insert a hits => exact Nat.le_of_eq (length_stableInsert hS _)
    | delete a => exact Nat.le_succ_of_le (List.length_filter_le ..)
    | extractLte c => exact Nat.le_succ_of_le (List.length_filter_le ..)
  | shift =>
    refine Nat.le_succ_of_le ?_
    simp [PrioQueue.step, PrioQueue.take]

/-! ### Runs -/

theorem queueRun_spec (hlevel : 0 < level) (ops : List (QueueOp σ α)) (H : Queued level s S p)
    (hops : S.Along PrioQueue.Legal ops) (hsafe : SafeRun level fuel s ops)
    (hf : S.list.length + ops.length < fuel) :
    ∃ s' p', queueRun level fuel s ops = .ok (s', (S.run ops).2) ∧
      Queued level s' (S.run ops).1 p' ∧
      (S.run ops).1.list.length ≤ S.list.length + ops.length := by
  induction ops generalizing s S p with
  | nil => exact ⟨s, p, rfl, H, Nat.le_refl _⟩
  | cons op ops ih =>
    rw [List.length_cons] at hf
    obtain ⟨s₁, p₁, hrun₁, H₁⟩ := H.exec hlevel hops.1 hsafe.1 (by omega : _ < fuel)
    have hlen := PrioQueue.length_step (S := S) (H.key ▸ H.ragged.sorted) op
    obtain ⟨s', p', hrun, H', hlen'⟩ := ih H₁ hops.2 (hsafe.2 _ _ hrun₁) (by omega)
    refine ⟨s', p', by simp [queueRun, hrun₁, hrun, PrioQueue.run], H', ?_⟩
    rw [List.length_cons]
    exact Nat.le_trans hlen' (by omega)

omit [DecidableEq α] in
theorem Queued.init (hs : ∀ a, s.live a) : Queued level (skiplistInit s) (.init s) fun _ _ => [] := by
  refine ⟨⟨rfl, fun i _ x hx => ?_, fun _ _ _ => .refl _, nofun, .nil⟩, hs, rfl⟩
  obtain rfl : x = .header := by simpa [PrioQueue.init] using hx
  rfl

/-- Without deletions every run is safe. -/
theorem safeRun_of_no_delete (ops : List (QueueOp σ α)) (h : ∀ a, .base (.delete a) ∉ ops) :
    SafeRun level fuel s ops := by
  induction ops generalizing s with
  | nil => trivial
  | cons op ops ih =>
    refine ⟨?_, fun s' _ _ => ih fun a ha => h a (List.mem_cons_of_mem _ ha)⟩
    cases op with
    | base op =>
      cases op with
      | delete a => exact absurd List.mem_cons_self (h a)
      | nodeInit | setScore | insert | extractLte => trivial
    | shift => trivial

/-- **Without deletions the skip list with shift is a stable priority queue.** From `skiplist_init` on,
every legal run ends: `shift` hands out the first node of the queue, and nothing exactly when it is empty,
`extract_lte` the nodes up to its bound, and the level-0 chain is the queue, in the order of the scores. -/
theorem skiplist_priority_queue (hlevel : 1 ≤ level) (mem : SkipList σ α) (hmem : ∀ a, mem.live a)
    (ops : List (QueueOp σ α)) (hops : (PrioQueue.init mem).Along PrioQueue.Legal ops)
    (hdelete : ∀ a, .base (.delete a) ∉ ops) (hfuel : ops.length < fuel) :
    let S := ((PrioQueue.init mem).run ops).1
    ∃ s', queueRun level fuel (skiplistInit mem) ops =
        .ok (s', ((PrioQueue.init mem).run ops).2) ∧
      skiplistForEach s' fuel (s'.header 0) = .ok S.list ∧
      Seg Ref.node (s'.next 0) .header S.list none ∧ Sorted S.score S.list := by
  intro S
  obtain ⟨s', p', hrun, H, hlen⟩ := queueRun_spec hlevel ops (.init hmem) hops
    (safeRun_of_no_delete ops hdelete) (show _ < fuel by simpa [PrioQueue.init] using hfuel)
  have hseg := H.ragged.path 0 hlevel _ List.mem_cons_self
  rw [H.ragged.zero] at hseg
  refine ⟨s', hrun, skiplistForEach_spec (seg_iff_from.1 hseg) (fun a _ => H.live a) ?_, hseg, ?_⟩
  · simp only [PrioQueue.init, List.length_nil, Nat.zero_add] at hlen
    exact Nat.lt_of_le_of_lt hlen hfuel
  · have := H.ragged.sorted
    rwa [H.key] at this

/-- A run with equal scores in which shifts hide a node and bring it back, and a node is inserted again. -/
def sampleQueueOps : List (QueueOp Nat Nat) :=
  [.base (.insert 3 0), .base (.insert 1 1), .base (.insert 4 1), .shift, .base (.insert 3 0), .shift,
    .base (.extractLte 0), .shift, .shift]

theorem skiplist_priority_queue_sample :
    ∃ s', queueRun 2 10 (skiplistInit sampleMem) sampleQueueOps =
        .ok (s', [[], [], [], [3], [], [3], [], [1], [4]]) ∧
      skiplistForEach s' 10 (s'.header 0) = .ok [] := by
  obtain ⟨s', hrun, hlist, -, -⟩ := @skiplist_priority_queue Nat Nat _ _ 2 10 (by decide) sampleMem
    (fun _ => rfl) sampleQueueOps (by simp [sampleQueueOps, PrioQueue.Along, PrioQueue.Legal]; decide)
    (by simp [sampleQueueOps]) (by decide)
  exact ⟨s', hrun, hlist⟩

/-! ### Nodes that were removed -/

omit [DecidableEq α] in
/-- What the links lead to from the header is linked. -/
theorem Queued.mem_of_reachable (H : Queued level s S p) (hlevel : 0 < level) {a : α}
    (h : Reachable level s (.node a)) : a ∈ S.list := by
  suffices ∀ x, Reachable level s x → x ∈ Ref.header :: S.list.map Ref.node by
    simpa using this _ h
  intro x hx
  induction hx with
  | header => exact List.mem_cons_self
  | @next x i a _ hi hnext ih =>
    have ha := (H.ragged.path i hi x ih).next_mem List.mem_cons_self hnext
    have := (H.ragged.path_sublist hlevel ih i).subset ha
    exact List.mem_cons_of_mem _ (List.mem_map_of_mem this)

namespace PrioQueue

/-- What was taken off is not linked, and what was inserted is linked or was taken off. -/
structure Account (S : PrioQueue σ α) (inserted : List α) : Prop where
  nodup : S.list.Nodup
  disjoint : ∀ a ∈ S.removed, a ∉ S.list
  linked : ∀ a ∈ inserted, a ∈ S.list ∨ a ∈ S.removed

/-- The node an operation inserts. -/
def inserts : QueueOp σ α → List α
  | .base (.insert a _) => [a]
  | _ => []

namespace Account
variable {l out inserted : List α}

omit [DecidableEq α] [LinearOrder σ] in
/-- The nodes that are handed out and the nodes that stay. -/
theorem take (H : Account S inserted) (hl : l.Sublist S.list) (hdisj : ∀ a ∈ out, a ∉ l)
    (hall : ∀ a ∈ S.list, a ∈ l ∨ a ∈ out) : Account ⟨l, S.score, S.removed ++ out⟩ inserted := by
  refine ⟨H.nodup.sublist hl, fun a ha => ?_, fun a ha => ?_⟩
  · rcases List.mem_append.1 ha with ha | ha
    · exact fun h => H.disjoint a ha (hl.subset h)
    · exact hdisj a ha
  · rcases H.linked a ha with h | h
    · exact (hall a h).imp_right (List.mem_append_right _)
    · exact .inr (List.mem_append_left _ h)

theorem step (H : Account S inserted) {op : QueueOp σ α} (hop : S.Legal op) (hfresh : S.Fresh op) :
    Account (S.step op).1 (inserted ++ inserts op) := by
  cases op with
  | base op =>
    cases op with
    | nodeInit a c => simpa [inserts] using ⟨H.nodup, H.disjoint, H.linked⟩
    | setScore a c => simpa [inserts] using ⟨H.nodup, H.disjoint, H.linked⟩
    | insert a hits =>
      refine ⟨nodup_stableInsert H.nodup hop, fun b hb => ?_, fun b hb => ?_⟩
      · intro h
        rcases mem_stableInsert.1 h with rfl | h
        · exact hfresh hb
        · exact H.disjoint b hb h
      · rcases List.mem_append.1 hb with hb | hb
        · exact (H.linked b hb).imp_left fun h => mem_stableInsert.2 (.inr h)
        · exact .inl (mem_stableInsert.2 (.inl (List.mem_singleton.1 hb)))
    | delete a =>
      simp only [inserts, List.append_nil]
      refine H.take List.filter_sublist (by simp) fun b hb => ?_
      rcases eq_or_ne b a with rfl | hba
      · exact .inr List.mem_cons_self
      · exact .inl (List.mem_filter.2 ⟨hb, by simpa using hba⟩)
    | extractLte c =>
      simp only [inserts, List.append_nil]
      refine H.take List.filter_sublist (fun b hb h => ?_) fun b hb => ?_
      · exact absurd (mem_upTo.1 hb).2 (not_le.2 (mem_above.1 h).2)
      · rcases le_or_gt (S.score b) c with h | h
        · exact .inr (mem_upTo.2 ⟨hb, h⟩)
        · exact .inl (mem_above.2 ⟨hb, h⟩)
  | shift =>
    simp only [inserts, List.append_nil]
    have hnd := H.nodup
    refine H.take (List.tail_sublist _) (fun b hb h => ?_) fun b hb => ?_
    · cases hL : S.list with
      | nil => simp [hL] at h
      | cons r l =>
        simp only [hL, List.head?_cons, Option.toList_some, List.mem_singleton,
          List.tail_cons] at hb h hnd
        exact (List.nodup_cons.1 hnd).1 (hb ▸ h)
    · cases hL : S.list with
      | nil => simp [hL] at hb
      | cons r l =>
        rcases List.mem_cons.1 (hL ▸ hb) with rfl | hb
        · exact .inr (by simp)
        · exact .inl hb

theorem run (H : Account S inserted) {ops : List (QueueOp σ α)}
    (hops : S.Along (fun S op => S.Legal op ∧ S.Fresh op) ops) :
    Account (S.run ops).1 (inserted ++ ops.flatMap inserts) := by
  induction ops generalizing S inserted with
  | nil => simpa [PrioQueue.run] using H
  | cons op ops ih =>
    have := ih (H.step hops.1.1 hops.1.2) hops.2
    rwa [List.append_assoc] at this

end Account

theorem Along.mono {P Q : PrioQueue σ α → QueueOp σ α → Prop} (h : ∀ S op, P S op → Q S op)
    {ops : List (QueueOp σ α)} (H : S.Along P ops) : S.Along Q ops := by
  induction ops generalizing S with
  | nil => trivial
  | cons op ops ih => exact ⟨h S op H.1, ih H.2⟩

end PrioQueue

/-- **Removed nodes stay away when no deletion leaves a link behind.** In every run from `skiplist_init`
that deletes a node only where no hidden node is linked to it, and inserts no removed node again, no node
that was handed out or deleted is reachable, and every other inserted node is on level 0. -/
theorem skiplist_removed_unreachable (hlevel : 1 ≤ level) (mem : SkipList σ α)
    (hmem : ∀ a, mem.live a) (ops : List (QueueOp σ α))
    (hops : (PrioQueue.init mem).Along (fun S op => S.Legal op ∧ S.Fresh op) ops)
    (hsafe : SafeRun level fuel (skiplistInit mem) ops) (hfuel : ops.length < fuel) :
    let S := ((PrioQueue.init mem).run ops).1
    ∃ s', queueRun level fuel (skiplistInit mem) ops =
        .ok (s', ((PrioQueue.init mem).run ops).2) ∧
      (∀ a ∈ S.removed, ¬Reachable level s' (.node a)) ∧
      ∀ a hits, .base (.insert a hits) ∈ ops → a ∉ S.removed → s'.OnLevel 0 a := by
  intro S
  obtain ⟨s', p', hrun, H, -⟩ := queueRun_spec hlevel ops (.init hmem)
    (hops.mono fun _ _ h => h.1) hsafe (show _ < fuel by simpa [PrioQueue.init] using hfuel)
  have A : S.Account (ops.flatMap PrioQueue.inserts) :=
    @PrioQueue.Account.run _ _ _ _ (.init mem) [] ⟨.nil, nofun, nofun⟩ ops hops
  refine ⟨s', hrun, fun a ha h => A.disjoint a ha (H.mem_of_reachable hlevel h), fun a hits ha hr => ?_⟩
  have hmem : a ∈ ops.flatMap PrioQueue.inserts :=
    List.mem_flatMap.2 ⟨_, ha, List.mem_singleton.2 rfl⟩
  apply (H.ragged.mem_iff_onLevel hlevel).1
  rw [H.ragged.zero]
  exact (A.linked a hmem).resolve_right hr

theorem safeRun_cons {s₁ : SkipList σ α} {op : QueueOp σ α} {ops : List (QueueOp σ α)} {out : List α}
    (h : op.exec level fuel s = .ok (s₁, out)) (hop : Safe level s op)
    (H : SafeRun level fuel s₁ ops) : SafeRun level fuel s (op :: ops) := by
  refine ⟨hop, fun s' out' h' => ?_⟩
  rw [h] at h'
  cases h'
  exact H

/-- A run that deletes a hidden node no other node is linked to. -/
def sampleSafeOps : List (QueueOp Nat Nat) :=
  [.base (.insert 0 0), .base (.insert 1 1), .base (.insert 2 1), .shift, .base (.delete 1), .shift]

theorem skiplist_removed_unreachable_sample :
    ∃ s', queueRun 2 7 (skiplistInit sampleMem) sampleSafeOps =
        .ok (s', [[], [], [], [0], [], [2]]) ∧ ¬Reachable 2 s' (.node 1) := by
  have hsafe : SafeRun 2 7 (skiplistInit sampleMem) sampleSafeOps := by
    refine safeRun_cons rfl trivial (safeRun_cons rfl trivial (safeRun_cons rfl trivial
      (safeRun_cons rfl trivial (safeRun_cons rfl ?_ (safeRun_cons rfl trivial trivial)))))
    intro i hi a ha hn
    obtain ⟨l, hl⟩ := ha
    have hmem : ∃ l₂, [1, 2] = l ++ a :: l₂ := by
      refine Seg.exists_append ?_ hl
      exact ⟨rfl, rfl, rfl⟩
    have ha : a ∈ [1, 2] := by
      obtain ⟨l₂, h⟩ := hmem
      simp [h]
    -- neither of the two nodes is linked to 1
    simp only [List.mem_cons, List.not_mem_nil, or_false] at ha
    rcases ha with rfl | rfl <;> rcases i with _ | _ | i <;> first | omega | cases hn
  obtain ⟨s', hrun, hr, -⟩ := @skiplist_removed_unreachable Nat Nat _ _ 2 7 (by decide) sampleMem
    (fun _ => rfl) sampleSafeOps
    (by simp [sampleSafeOps, PrioQueue.Along, PrioQueue.Legal, PrioQueue.Fresh]; decide) hsafe
    (by decide)
  exact ⟨s', hrun, hr 1 (by decide)⟩

/-- The node 1 keeps its link to the deleted node 2, which the second shift gives to the header. -/
def staleOps : List (QueueOp Nat Nat) :=
  [.base (.insert 0 0), .base (.insert 1 1), .base (.insert 2 1), .shift, .base (.delete 2), .shift,
    .base (.insert 5 0)]

/-- A deleted node is reachable again, and a node that is inserted is put behind it. -/
theorem skiplist_removed_reachable :
    (PrioQueue.init sampleMem).Along (fun S op => S.Legal op ∧ S.Fresh op) staleOps ∧
      2 ∈ ((PrioQueue.init sampleMem).run staleOps).1.removed ∧
      ∃ s' outs, queueRun 2 8 (skiplistInit sampleMem) staleOps = .ok (s', outs) ∧
        Reachable 2 s' (.node 2) ∧ ¬s'.OnLevel 0 5 := by
  refine ⟨by simp [staleOps, PrioQueue.Along, PrioQueue.Legal, PrioQueue.Fresh]; decide, by decide, _, _,
    rfl, ?_, ?_⟩
  · exact .next .header (by decide : 1 < 2) rfl
  · rintro ⟨l, hl⟩
    have h : ∃ l₂, ([] : List Nat) = l ++ 5 :: l₂ := by
      refine Seg.exists_append ?_ hl
      exact rfl
    simp at h

end Libep

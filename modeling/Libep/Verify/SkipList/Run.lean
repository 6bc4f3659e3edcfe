import Libep.Verify.SkipList.Rep

/-!
# Runs of the skip list

Whole runs of the operations of `skiplist.h` from `skiplist_init`, against a stable sorted list
that runs alongside. `SkipOp.exec_spec` is the simulation of one operation, `skiplistRun_spec` of a run;
the two results are the refinement (`skiplist_refines`) and the shape of the levels in every state
a run reaches (`skiplist_levels`).
-/

namespace Libep
open Chain SkipList StableList

variable {σ α : Type}

/-- What a user does with a list: `skiplist_node_init`, a write to the score of a node (as
`ep_timer_execute` does before it inserts a node again), and the operations. -/
inductive SkipOp (σ α : Type) where
  | nodeInit (node : α) (score : σ)
  | setScore (node : α) (score : σ)
  | insert (node : α) (hits : Nat)
  | delete (node : α)
  | extractLte (score : σ)

/-- The list a run should hold, and the scores of all nodes, linked or not. -/
structure SkipSpec (σ α : Type) where
  list : List (Entry σ α)
  score : α → σ

namespace SkipSpec

/-- The nodes in the list. -/
def nodes (S : SkipSpec σ α) : List α := S.list.map Entry.node

/-- A run may insert a node that is not linked, with any height, and delete any node; it leaves the
scores of linked nodes alone. -/
def Legal (S : SkipSpec σ α) : SkipOp σ α → Prop
  | .nodeInit a _ | .setScore a _ | .insert a _ => a ∉ S.nodes
  | .delete _ | .extractLte _ => True

variable [DecidableEq α] [LinearOrder σ] (level : Nat)

/-- One operation on the reference list, with the nodes it hands out. -/
def step (S : SkipSpec σ α) : SkipOp σ α → SkipSpec σ α × List α
  | .nodeInit a c | .setScore a c => ({ S with score := Function.update S.score a c }, [])
  | .insert a hits =>
    ({ S with list := stableInsert Entry.score ⟨a, S.score a, min level (hits + 1)⟩ S.list }, [])
  | .delete a => ({ S with list := S.list.filter (·.node ≠ a) }, [])
  | .extractLte c =>
    ({ S with list := above Entry.score c S.list }, (upTo Entry.score c S.list).map Entry.node)

/-- A run on the reference list, with what each operation hands out. -/
def run : SkipSpec σ α → List (SkipOp σ α) → SkipSpec σ α × List (List α)
  | S, [] => (S, [])
  | S, op :: ops =>
    let (S₁, out) := S.step level op
    let (S', outs) := run S₁ ops
    (S', out :: outs)

/-- Every operation of the run is legal where it happens. -/
def LegalRun : SkipSpec σ α → List (SkipOp σ α) → Prop
  | _, [] => True
  | S, op :: ops => S.Legal op ∧ LegalRun (S.step level op).1 ops

instance (S : SkipSpec σ α) : (op : SkipOp σ α) → Decidable (S.Legal op)
  | .nodeInit a _ | .setScore a _ | .insert a _ => inferInstanceAs (Decidable (a ∉ S.nodes))
  | .delete _ | .extractLte _ => .isTrue trivial

instance decidableLegalRun :
    (S : SkipSpec σ α) → (ops : List (SkipOp σ α)) → Decidable (S.LegalRun level ops)
  | _, [] => .isTrue trivial
  | S, op :: ops =>
    have := decidableLegalRun (S.step level op).1 ops
    inferInstanceAs (Decidable (S.Legal op ∧ LegalRun level (S.step level op).1 ops))

/-- The empty list over the memory `s`. -/
def init (s : SkipList σ α) : SkipSpec σ α := ⟨[], fun a => (s.node a).score⟩

end SkipSpec

section
variable [DecidableEq α] [LinearOrder σ] (level fuel : Nat)

/-- One operation of the code; `extract_lte` hands out the chain that starts at its result. -/
def SkipOp.exec (s : SkipList σ α) : SkipOp σ α → Res (SkipList σ α × List α)
  | .nodeInit a c => return (skiplistNodeInit s a c, [])
  | .setScore a c => return (s.setScore a c, [])
  | .insert a hits => do return (← skiplistInsert level fuel s a hits, [])
  | .delete a => do return (← skiplistDelete level fuel s a, [])
  | .extractLte c => do
    let (p, s) ← skiplistExtractLte level fuel s c
    return (s, ← skiplistForEach s fuel p)

/-- A run of the code, with what each operation hands out. -/
def skiplistRun : SkipList σ α → List (SkipOp σ α) → Res (SkipList σ α × List (List α))
  | s, [] => return (s, [])
  | s, op :: ops => do
    let (s, out) ← op.exec level fuel s
    let (s, outs) ← skiplistRun s ops
    return (s, out :: outs)

end

/-- The places that the links of the first `level` levels lead to from the header. -/
inductive Reachable (level : Nat) (s : SkipList σ α) : Ref α → Prop
  | header : Reachable level s .header
  | next : Reachable level s x → i < level → s.next i x = some a → Reachable level s (.node a)

/-! ### One operation -/

theorem skiplistForEach_spec {s : SkipList σ α} {p : Option α} {l : List α} {fuel : Nat}
    (H : From Ref.node (s.next 0) p l none) (hl : ∀ a ∈ l, s.live a) (hf : l.length < fuel) :
    skiplistForEach s fuel p = .ok l := by
  induction l generalizing p fuel with
  | nil =>
    obtain ⟨fuel, rfl⟩ := Nat.exists_eq_succ_of_ne_zero (Nat.ne_of_gt hf)
    cases H
    rfl
  | cons a l ih =>
    obtain ⟨fuel, rfl⟩ := Nat.exists_eq_succ_of_ne_zero (Nat.ne_of_gt (Nat.zero_lt_of_lt hf))
    obtain ⟨rfl, H⟩ := H
    have hrec := ih (seg_iff_from.1 H) (fun b hb => hl b (List.mem_cons_of_mem _ hb))
      (Nat.lt_of_succ_lt_succ hf)
    simp [skiplistForEach, forward_eq (x := .node a) (hl a List.mem_cons_self), hrec]

/-- The memory `s` holds the reference list, every node is allocated, and the scores agree. -/
structure Holds [LinearOrder σ] (level : Nat) (s : SkipList σ α) (S : SkipSpec σ α) : Prop where
  rep : SkipList.Rep level s S.list
  live : ∀ a, s.live a
  score : ∀ a, (s.node a).score = S.score a

namespace Holds
variable [LinearOrder σ] {level : Nat} {s s' : SkipList σ α} {S : SkipSpec σ α}

theorem frame (H : Holds level s S) {W : Nat → Ref α → Prop} (F : Frame s s' W)
    {L : List (Entry σ α)} (HL : SkipList.Rep level s' L) : Holds level s' ⟨L, S.score⟩ :=
  ⟨HL, fun a => by rw [F.live]; exact H.live a, fun a => by rw [F.score]; exact H.score a⟩

variable [DecidableEq α]

/-- A write to a node that is not linked. -/
theorem write (H : Holds level s S) {a : α} (ha : a ∉ S.nodes) (n : SkipNode σ α) :
    Holds level { s with node := Function.update s.node a n }
      { S with score := Function.update S.score a n.score } := by
  have hne : ∀ e ∈ S.list, e.node ≠ a := fun e he h => ha (h ▸ List.mem_map_of_mem he)
  refine ⟨H.rep.move rfl (fun e he => Function.update_of_ne (hne e he) _ _) H.rep.live, H.live,
    fun b => ?_⟩
  rcases eq_or_ne b a with rfl | hb
  · simp
  · simpa [hb] using H.score b

end Holds

variable [DecidableEq α] [LinearOrder σ] {level fuel : Nat} {s : SkipList σ α} {S : SkipSpec σ α}

variable (level) in
theorem SkipSpec.length_step (hS : Sorted Entry.score S.list) (op : SkipOp σ α) :
    (S.step level op).1.list.length ≤ S.list.length + 1 := by
  cases op with
  | nodeInit | setScore => exact Nat.le_succ _
  | insert a hits => exact Nat.le_of_eq (length_stableInsert hS _)
  | delete a => exact Nat.le_succ_of_le (List.length_filter_le ..)
  | extractLte c => exact Nat.le_succ_of_le (List.length_filter_le ..)

variable (level) in
theorem SkipSpec.sorted_step (hS : Sorted Entry.score S.list) (op : SkipOp σ α) :
    Sorted Entry.score (S.step level op).1.list := by
  cases op with
  | nodeInit | setScore => exact hS
  | insert a hits => exact hS.stableInsert _
  | delete a => exact hS.filter
  | extractLte c => exact hS.filter

variable (level) in
theorem SkipSpec.length_run (hS : Sorted Entry.score S.list) (ops : List (SkipOp σ α)) :
    (S.run level ops).1.list.length ≤ S.list.length + ops.length := by
  induction ops generalizing S with
  | nil => exact Nat.le_refl _
  | cons op ops ih =>
    have h1 := SkipSpec.length_step level hS op
    have h2 := ih (SkipSpec.sorted_step level hS op)
    rw [List.length_cons]
    exact Nat.le_trans h2 (by omega)

theorem SkipOp.exec_spec (hlevel : 0 < level) (H : Holds level s S) {op : SkipOp σ α}
    (hop : S.Legal op) (hf : S.list.length + 1 < fuel) :
    ∃ s', op.exec level fuel s = .ok (s', (S.step level op).2) ∧
      Holds level s' (S.step level op).1 := by
  cases op with
  | nodeInit a c => exact ⟨_, rfl, H.write hop _⟩
  | setScore a c => exact ⟨_, rfl, H.write hop _⟩
  | insert a hits =>
    obtain ⟨s', hrun, H', F⟩ := H.rep.insert hlevel (H.live a) hop (by omega : _ < fuel) hits
    rw [H.score] at H'
    exact ⟨s', by simp [SkipOp.exec, hrun, SkipSpec.step], H.frame F H'⟩
  | delete a =>
    obtain ⟨s', hrun, H', F⟩ := H.rep.delete hlevel (H.live a) hf
    exact ⟨s', by simp [SkipOp.exec, hrun, SkipSpec.step], H.frame F H'⟩
  | extractLte c =>
    obtain ⟨s', hrun, H', hfrom, F⟩ := H.rep.extractLte hlevel (by omega : _ < fuel) c
    have HS := H.frame F H'
    have hlen : ((upTo Entry.score c S.list).map Entry.node).length < fuel := by
      rw [List.length_map]
      exact Nat.lt_of_le_of_lt (List.length_filter_le ..) (by omega)
    have hout := skiplistForEach_spec hfrom (fun a _ => HS.live a) hlen
    exact ⟨s', by simp only [SkipOp.exec, hrun, Res.ok_bind, hout]; rfl, HS⟩

/-! ### Runs -/

theorem skiplistRun_spec (hlevel : 0 < level) (ops : List (SkipOp σ α)) (H : Holds level s S)
    (hops : S.LegalRun level ops) (hf : S.list.length + ops.length + 1 < fuel) :
    ∃ s', skiplistRun level fuel s ops = .ok (s', (S.run level ops).2) ∧
      Holds level s' (S.run level ops).1 := by
  induction ops generalizing s S with
  | nil => exact ⟨s, rfl, H⟩
  | cons op ops ih =>
    rw [List.length_cons] at hf
    obtain ⟨s₁, hrun₁, H₁⟩ := SkipOp.exec_spec hlevel H hops.1 (by omega : _ < fuel)
    have hlen := SkipSpec.length_step level H.rep.sorted op
    obtain ⟨s', hrun, H'⟩ := ih H₁ hops.2 (by omega)
    exact ⟨s', by simp [skiplistRun, hrun₁, hrun, SkipSpec.run], H'⟩

omit [DecidableEq α] in
theorem Holds.init (hs : ∀ a, s.live a) : Holds level (skiplistInit s) (.init s) :=
  ⟨⟨fun _ _ => rfl, nofun, nofun, nofun, nofun, .nil⟩, hs, fun _ => rfl⟩

/-- **The skip list refines a stable sorted list.** From `skiplist_init` on, every legal run ends,
with any bound on the loops that exceeds its length by two: each `extract_lte` hands out the chain of the
nodes it takes off the reference list, and the level-0 chain is the reference list. -/
theorem skiplist_refines (hlevel : 1 ≤ level) (mem : SkipList σ α) (hmem : ∀ a, mem.live a)
    (ops : List (SkipOp σ α)) (hops : (SkipSpec.init mem).LegalRun level ops)
    (hfuel : ops.length + 1 < fuel) :
    ∃ s', skiplistRun level fuel (skiplistInit mem) ops =
        .ok (s', ((SkipSpec.init mem).run level ops).2) ∧
      skiplistForEach s' fuel (s'.header 0) =
        .ok ((SkipSpec.init mem).run level ops).1.nodes := by
  obtain ⟨s', hrun, H⟩ := skiplistRun_spec hlevel ops (.init hmem) hops (show _ < fuel by
    simpa [SkipSpec.init] using hfuel)
  have hlen := SkipSpec.length_run level (S := .init mem) .nil ops
  refine ⟨s', hrun, skiplistForEach_spec ?_ (fun a _ => H.live a) ?_⟩
  · exact seg_iff_from.1 (H.rep.chain_zero hlevel)
  · rw [SkipSpec.nodes, List.length_map]
    simp only [SkipSpec.init, List.length_nil] at hlen ⊢
    omega

/-- A memory of nodes with their own addresses as scores. -/
def sampleMem : SkipList Nat Nat := ⟨fun _ => none, fun a => ⟨a % 3, fun _ => none⟩, fun _ => true⟩

/-- A run with equal scores, a deletion among them, and a second insertion of a node taken off. -/
def sampleOps : List (SkipOp Nat Nat) :=
  [.insert 4 1, .insert 1 0, .insert 2 0, .insert 7 3, .delete 1, .extractLte 1, .insert 4 0]

theorem skiplist_refines_sample :
    ∃ s', skiplistRun 2 9 (skiplistInit sampleMem) sampleOps =
        .ok (s', [[], [], [], [], [], [4, 7], []]) ∧
      skiplistForEach s' 9 (s'.header 0) = .ok [4, 2] :=
  skiplist_refines (by decide) sampleMem (fun _ => rfl) sampleOps (by decide)
    (by decide)

/-- The reachable places are the header and the linked nodes. -/
theorem Holds.reachable_iff (H : Holds level s S) (hlevel : 0 < level) {a : α} :
    Reachable level s (.node a) ↔ a ∈ S.nodes := by
  constructor
  · intro h
    suffices ∀ x, Reachable level s x → x ∈ Ref.header :: S.nodes.map Ref.node by
      simpa using this _ h
    intro x hx
    induction hx with
    | header => exact List.mem_cons_self
    | @next x i a _ hi hnext ih =>
      -- a link of a linked node is a link of its level, or nothing
      have h : x ∈ Ref.header :: (nodesAt i S.list).map Ref.node := by
        by_contra h
        have := H.rep.next_eq_none hi ih h
        rw [this] at hnext
        cases hnext
      have := (H.rep.chain i hi).next_mem h hnext
      exact List.mem_cons_of_mem _ (List.mem_map_of_mem (nodesAt_sublist.subset this))
  · intro h
    suffices ∀ (l : List α) (x : Ref α), Reachable level s x → Seg Ref.node (s.next 0) x l none →
        a ∈ l → Reachable level s (.node a) from
      this _ _ .header (H.rep.chain_zero hlevel) h
    intro l
    induction l with
    | nil => intro _ _ _ h; cases h
    | cons b l ih =>
      intro x hx hseg ha
      have hb : Reachable level s (.node b) := hx.next hlevel hseg.1
      rcases List.mem_cons.1 ha with rfl | ha
      · exact hb
      · exact ih _ hb hseg.2 ha

/-- **The levels of the skip list.** In every state a legal run reaches from `skiplist_init`, level `i`
is a chain through exactly the linked nodes with height above `i`, each once and in the order of
level 0, so it is sorted and a sublist of the level below; what the links lead to is exactly what is
linked; and inserting a node and deleting it again restores every link of the header and of the linked
nodes. -/
theorem skiplist_levels (hlevel : 1 ≤ level) (mem : SkipList σ α) (hmem : ∀ a, mem.live a)
    (ops : List (SkipOp σ α)) (hops : (SkipSpec.init mem).LegalRun level ops)
    (hfuel : ops.length + 3 < fuel) :
    ∃ s' outs, skiplistRun level fuel (skiplistInit mem) ops = .ok (s', outs) ∧
      let S := ((SkipSpec.init mem).run level ops).1
      (∀ i, i < level → Seg Ref.node (s'.next i) .header (nodesAt i S.list) none) ∧
      (∀ i, (nodesAt i S.list).Nodup ∧ (nodesAt (i + 1) S.list).Sublist (nodesAt i S.list) ∧
        (nodesAt i S.list).Pairwise fun a b => (s'.node a).score ≤ (s'.node b).score) ∧
      nodesAt 0 S.list = S.nodes ∧
      (∀ a, Reachable level s' (.node a) ↔ a ∈ S.nodes) ∧
      ∀ n, n ∉ S.nodes → ∀ hits, ∃ s₁ s₂, skiplistInsert level fuel s' n hits = .ok s₁ ∧
        skiplistDelete level fuel s₁ n = .ok s₂ ∧
        ∀ i, i < level → ∀ y ∈ Ref.header :: S.nodes.map Ref.node, s₂.next i y = s'.next i y := by
  obtain ⟨s', hrun, H⟩ := skiplistRun_spec hlevel ops (.init hmem) hops (show _ < fuel by
    simp only [SkipSpec.init, List.length_nil]; omega)
  have hlen := SkipSpec.length_run level (S := .init mem) .nil ops
  simp only [SkipSpec.init, List.length_nil, Nat.zero_add] at hlen
  refine ⟨s', _, hrun, H.rep.chain, fun i => ⟨?_, ?_, ?_⟩, nodesAt_zero H.rep.height,
    fun a => H.reachable_iff hlevel, fun n hn hits => ?_⟩
  · exact (H.rep.nodup hlevel).sublist nodesAt_sublist
  · exact nodesAt_succ_sublist
  · exact H.rep.pairwise_nodesAt_of_sublist (.refl _) i
  · obtain ⟨s₁, hins, H₁, F₁⟩ := H.rep.insert hlevel (H.live n) hn (show _ < fuel by
      simp only [SkipSpec.init]; omega) hits
    obtain ⟨s₂, hdel, H₂, -⟩ := H₁.delete hlevel (n := n)
      (by rw [F₁.live]; exact H.live n) (show _ < fuel by
        rw [length_stableInsert H.rep.sorted]; simp only [SkipSpec.init]; omega)
    refine ⟨s₁, s₂, hins, hdel, fun i hi y hy => H.rep.next_unique ?_ hi hy⟩
    have hback := filter_stableInsert_of_neg (p := fun e => e.node ≠ n) H.rep.sorted
      (e := ⟨n, (s'.node n).score, min level (hits + 1)⟩) (by simp)
    rw [hback, List.filter_eq_self.2] at H₂
    · exact H₂
    · intro d hd
      simpa using fun (h : d.node = n) => hn (h ▸ List.mem_map_of_mem hd)

theorem skiplist_levels_sample :
    ∃ s' outs, skiplistRun 2 11 (skiplistInit sampleMem) sampleOps = .ok (s', outs) ∧
      Seg Ref.node (s'.next 0) .header [4, 2] none ∧ Seg Ref.node (s'.next 1) .header [] none := by
  obtain ⟨s', outs, hrun, hchain, -⟩ := @skiplist_levels Nat Nat _ _ 2 11 (by decide)
    sampleMem (fun _ => rfl) sampleOps (by decide) (by decide)
  exact ⟨s', outs, hrun, hchain 0 (by decide), hchain 1 (by decide)⟩

end Libep

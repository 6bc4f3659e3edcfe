import Libep.Theory.Alarms
import Libep.Theory.Lockstep
import Libep.Verify.SkipList.Rep

/-!
# The representation invariant of the timer

`t.Rep A es` says that the memory of `t` holds the alarms `A` in its skip list and, beside it, the
chain of the alarms `es` that `ep_timer_execute` took off the list and has not given their turns.
Every call of the interface runs in lockstep with the call on the alarms, whatever is in the batch.
-/

namespace Libep
open Chain SkipList StableList

namespace Timer

/-- The block `id` is as before. -/
def Same (t t' : Timer) (id : Nat) : Prop :=
  t'.node id = t.node id ∧ t'.sl.node id = t.sl.node id

/-- The chain of the alarms `es`, off the list. -/
structure Batch (t : Timer) (es : List Alarm) : Prop where
  chain : From Ref.node (t.sl.next 0) (es.map Alarm.id).head? (es.map Alarm.id) none
  node : ∀ e ∈ es, t.node e.id = e.toTimerNode
  score : ∀ e ∈ es, (t.sl.node e.id).score = e.deadline

/-- The memory of `t` holds the alarms `A` and the batch `es`. -/
structure Rep (t : Timer) (A : Alarms) (es : List Alarm) : Prop where
  wf : A.WF
  list : ∃ L : List (Entry UInt64 Nat), SkipList.Rep timerLevel t.sl L ∧
    L.map (fun e => (e.node, e.score)) = A.list.map Alarm.place
  node : ∀ e ∈ A.list, t.node e.id = e.toTimerNode
  detached : ∀ e ∈ es, A.Detached e.id
  batch : t.Batch es
  now : t.now = A.now
  brk : t.brk = A.brk
  live : t.sl.live = A.live
  freed : t.freed = A.freed

/-- The block `id` is on the chain of the list. -/
def Listed (t : Timer) (id : Nat) : Prop :=
  ∃ l, Seg Ref.node (t.sl.next 0) .header l none ∧ id ∈ l

variable {t t' : Timer} {A A' : Alarms} {es : List Alarm} {e : Alarm} {id : Nat} {fuel : Nat}

theorem Batch.congr (H : t.Batch es) (h : ∀ e ∈ es, Same t t' e.id) : t'.Batch es where
  chain := H.chain.congr fun y hy => by
    simp only [List.map_map, List.mem_map, Function.comp_apply] at hy
    obtain ⟨e, he, rfl⟩ := hy
    simp [SkipList.next, (h e he).2]
  node e he := by rw [(h e he).1]; exact H.node e he
  score e he := by rw [(h e he).2]; exact H.score e he

/-- The rest of a batch, headed by the link of its first alarm. -/
theorem Batch.tail (H : t.Batch (e :: es)) : t.Batch es where
  chain := by
    have := seg_iff_from.1 H.chain.2
    cases es with
    | nil => exact rfl
    | cons e' es => exact ⟨rfl, this.2⟩
  node e' h := H.node e' (List.mem_cons_of_mem _ h)
  score e' h := H.score e' (List.mem_cons_of_mem _ h)

theorem Batch.next (H : t.Batch (e :: es)) :
    t.sl.next 0 (.node e.id) = (es.map Alarm.id).head? := by
  have := H.chain.2
  cases es with
  | nil => exact this
  | cons e' es => exact this.1

namespace Rep

theorem nodup (H : t.Rep A es) : (es.map Alarm.id).Nodup := H.batch.chain.nodup_nodes

theorem map_node {L : List (Entry UInt64 Nat)}
    (h : L.map (fun e => (e.node, e.score)) = A.list.map Alarm.place) :
    L.map Entry.node = A.ids := by
  have := congrArg (List.map Prod.fst) h
  simpa [Function.comp_def, Alarm.place, Alarms.ids] using this

theorem length_eq {L : List (Entry UInt64 Nat)}
    (h : L.map (fun e => (e.node, e.score)) = A.list.map Alarm.place) :
    L.length = A.list.length := by
  simpa using congrArg List.length h

/-- Filters by what the skip list stores. -/
theorem map_filter {L : List (Entry UInt64 Nat)} {l : List Alarm}
    (h : L.map (fun e => (e.node, e.score)) = l.map Alarm.place) (p : Nat × UInt64 → Bool) :
    (L.filter fun e => p (e.node, e.score)).map (fun e => (e.node, e.score)) =
      (l.filter fun e => p e.place).map Alarm.place := by
  have := congrArg (List.filter p) h
  simpa [List.filter_map, Function.comp_def] using this

theorem chain (H : t.Rep A es) : Seg Ref.node (t.sl.next 0) .header A.ids none := by
  obtain ⟨L, HL, hmap⟩ := H.list
  rw [← map_node hmap]
  exact HL.chain_zero (by decide)

theorem listed (H : t.Rep A es) : t.Listed id ↔ id ∈ A.ids := by
  constructor
  · rintro ⟨l, hl, hid⟩
    rwa [← hl.unique H.chain]
  · exact fun h => ⟨_, H.chain, h⟩

theorem score (H : t.Rep A es) (he : e ∈ A.list) : (t.sl.node e.id).score = e.deadline := by
  obtain ⟨L, HL, hmap⟩ := H.list
  have hmem := List.mem_map_of_mem (f := Alarm.place) he
  rw [← hmap] at hmem
  obtain ⟨d, hd, hplace⟩ := List.mem_map.1 hmem
  have hid : e.id = d.node := (congrArg Prod.fst hplace).symm
  rw [hid, HL.score d hd]
  exact congrArg Prod.snd hplace

/-- `ep_timer_init`, before the first `malloc`. -/
theorem init (hlive : t.sl.live = fun _ => false) (hbrk : t.brk = 0) (hfreed : t.freed = []) :
    (epTimerInit t).Rep (.empty t.now) [] where
  wf := .empty t.now
  list := ⟨[], ⟨fun _ _ => rfl, nofun, nofun, nofun, nofun, .nil⟩, rfl⟩
  node := nofun
  detached := nofun
  batch := ⟨rfl, nofun, nofun⟩
  now := rfl
  brk := hbrk
  live := hlive
  freed := hfreed

/-- Writes outside the list and the batch. -/
theorem move (H : t.Rep A es) (hA : A'.WF) (hlist : A'.list = A.list) (hle : A.brk ≤ A'.brk)
    (hheader : t'.sl.header = t.sl.header) (hnow : t'.now = A'.now) (hbrk : t'.brk = A'.brk)
    (hlive : t'.sl.live = A'.live) (hfreed : t'.freed = A'.freed)
    (h : ∀ id ∈ A.ids ++ es.map Alarm.id, Same t t' id) : t'.Rep A' es := by
  obtain ⟨L, HL, hmap⟩ := H.list
  have hids : A'.ids = A.ids := by rw [Alarms.ids, hlist, Alarms.ids]
  refine ⟨hA, ⟨L, HL.move hheader (fun d hd => ?_) (fun d hd => ?_), by rw [hlist]; exact hmap⟩,
    fun e he => ?_, fun e he => ?_, H.batch.congr fun e he => ?_, hnow, hbrk, hlive, hfreed⟩
  · have hd := List.mem_map_of_mem (f := Entry.node) hd
    rw [map_node hmap] at hd
    exact (h _ (List.mem_append_left _ hd)).2
  · have hd := List.mem_map_of_mem (f := Entry.node) hd
    rw [map_node hmap, ← hids] at hd
    obtain ⟨e, he, hid⟩ := List.mem_map.1 hd
    rw [hlive, ← hid]
    exact hA.live e he
  · rw [hlist] at he
    rw [(h _ (List.mem_append_left _ (List.mem_map_of_mem he))).1]
    exact H.node e he
  · obtain ⟨h1, h2⟩ := H.detached e he
    exact ⟨Nat.lt_of_lt_of_le h1 hle, by rw [hids]; exact h2⟩
  · exact h _ (List.mem_append_right _ (List.mem_map_of_mem he))

/-- `skiplist_insert` of a block that is off the list and off the batch. -/
theorem insert (H : t.Rep A es) (hlive : A.live id) (hid : id ∉ A.ids)
    (hes : id ∉ es.map Alarm.id) (hf : A.brk < fuel) :
    ∃ t', timerInsert fuel t id = .ok t' ∧
      t'.Rep (A.put (t.node id) id (t.sl.node id).score) es := by
  obtain ⟨L, HL, hmap⟩ := H.list
  have hlen : L.length < fuel := by
    rw [length_eq hmap]
    exact Nat.lt_of_le_of_lt H.wf.length_le hf
  have hn : t.sl.live id := by rw [H.live]; exact hlive
  obtain ⟨sl, hrun, HL', F⟩ := HL.insert (by decide) hn (by rw [map_node hmap]; exact hid) hlen
    (t.random 0)
  have hsame : ∀ a, a ≠ id → a ∉ A.ids → sl.node a = t.sl.node a := by
    intro a h1 h2
    apply F.node
    intro i h
    simp only [Touches, map_node hmap, List.mem_cons, List.map_cons, reduceCtorEq, false_or,
      Ref.node.injEq, List.mem_map, exists_eq_right] at h
    exact h.elim h1 h2
  refine ⟨{ t with sl, random := fun i => t.random (i + 1) }, by simp [timerInsert, hrun],
    H.wf.put _ _ hlive hid, ⟨_, HL', ?_⟩, fun e he => ?_, fun e he => ?_,
    H.batch.congr fun e he => ⟨rfl, hsame _ ?_ (H.detached e he).2⟩, H.now, H.brk,
    F.live.trans H.live, H.freed⟩
  · have h1 := map_filter hmap fun p => decide (p.2 ≤ (t.sl.node id).score)
    have h2 := map_filter hmap fun p => decide ((t.sl.node id).score < p.2)
    simp only [stableInsert, upTo, above, List.map_append, List.map_cons, Alarms.put]
    exact congr (congrArg _ h1) (congrArg _ h2)
  · rcases mem_stableInsert.1 he with rfl | he
    · rfl
    · exact H.node e he
  · obtain ⟨h1, h2⟩ := H.detached e he
    refine ⟨h1, fun h => ?_⟩
    rcases Alarms.mem_ids_put.1 h with h | h
    · exact hes (h ▸ List.mem_map_of_mem he)
    · exact h2 h
  · intro h
    exact hes (h ▸ List.mem_map_of_mem he)

/-- `skiplist_delete` of any allocated block. -/
theorem delete (H : t.Rep A es) (hlive : A.live id) (hf : A.brk + 1 < fuel) :
    ∃ sl, skiplistDelete timerLevel fuel t.sl id = .ok sl ∧
      { t with sl }.Rep { A with list := A.list.filter (·.id ≠ id) } es := by
  obtain ⟨L, HL, hmap⟩ := H.list
  have hlen : L.length + 1 < fuel := by
    rw [length_eq hmap]
    exact Nat.lt_of_le_of_lt (Nat.succ_le_succ H.wf.length_le) hf
  have hn : t.sl.live id := by rw [H.live]; exact hlive
  obtain ⟨sl, hrun, HL', F⟩ := HL.delete (by decide) hn hlen
  refine ⟨sl, hrun, H.wf.sublist List.filter_sublist, ⟨_, HL', ?_⟩, fun e he => ?_, fun e he => ?_,
    H.batch.congr fun e he => ⟨rfl, F.node fun i h => ?_⟩, H.now, H.brk,
    F.live.trans H.live, H.freed⟩
  · exact map_filter hmap fun p => decide (p.1 ≠ id)
  · exact H.node e (List.mem_of_mem_filter he)
  · obtain ⟨h1, h2⟩ := H.detached e he
    exact ⟨h1, fun h => h2 ((List.filter_sublist.map _).subset h)⟩
  · simp only [Touches, map_node hmap, List.mem_cons, reduceCtorEq, false_or, List.mem_map,
      Ref.node.injEq, exists_eq_right] at h
    exact (H.detached e he).2 h

/-- `ep__timer_node_destroy`. -/
theorem destroy (H : t.Rep A es) (hid : id ∉ A.ids) :
    Lockstep (fun t' A' => t'.Rep A' es) (epTimerNodeDestroy t id) (A.free id) := by
  by_cases h : A.live id
  · have hwf : A.free id = .ok { A with
        live := Function.update A.live id false
        freed := A.freed ++ [id] } := if_pos h
    rw [epTimerNodeDestroy, H.live, if_pos h, hwf]
    exact H.move (H.wf.free hid hwf) rfl (Nat.le_refl _) rfl H.now H.brk (by rw [← H.live])
      (by rw [← H.freed]) fun _ _ => ⟨rfl, rfl⟩
  · rw [epTimerNodeDestroy, H.live, if_neg h, Alarms.free, if_neg h]
    rfl

/-- `ep_timer_clear`. -/
theorem clear (H : t.Rep A es) (id : Nat) (hf : A.brk + 1 < fuel) :
    Lockstep (fun t' A' => t'.Rep A' es) (epTimerClear fuel t id) (A.clear id) := by
  rw [epTimerClear, H.live]
  split
  · rename_i h
    obtain ⟨sl, hrun, H'⟩ := H.delete h hf
    rw [hrun]
    exact H'.destroy (by simp [Alarms.ids])
  · rename_i h
    rw [Alarms.clear, Alarms.free, if_neg h]
    rfl

/-- `ep_timer_run_after` and `ep_timer_run_every`. -/
theorem start (H : t.Rep A es) (oom : Bool) (period ms : UInt64) (cb arg : Nat)
    (hf : A.brk + 1 < fuel) :
    ∃ t', timerRun fuel t oom period ms cb arg = .ok (if oom then none else some A.brk, t') ∧
      t'.Rep (A.start oom ⟨period, cb, arg⟩ ms) es := by
  cases oom with
  | true => exact ⟨t, rfl, H⟩
  | false =>
    set t₁ : Timer :=
      { t with
        node := Function.update t.node t.brk ⟨period, cb, arg⟩
        sl := skiplistNodeInit { t.sl with live := Function.update t.sl.live t.brk true } t.brk
          (epTimerGettime t + ms)
        brk := t.brk + 1 } with ht₁
    have hes : A.brk ∉ es.map Alarm.id := by
      intro h
      obtain ⟨e, he, hid⟩ := List.mem_map.1 h
      exact Nat.lt_irrefl _ (hid ▸ (H.detached e he).1)
    have H₁ : t₁.Rep A.alloc es := by
      refine H.move H.wf.alloc rfl (Nat.le_succ _) rfl H.now (congrArg _ H.brk) ?_ H.freed
        fun id hid => ?_
      · simp [ht₁, skiplistNodeInit, Alarms.alloc, H.live, H.brk]
      · have hne : id ≠ t.brk := by
          rintro rfl
          rw [H.brk] at hid
          exact (List.mem_append.1 hid).elim H.wf.notMem_brk hes
        exact ⟨Function.update_of_ne hne _ _, Function.update_of_ne hne _ _⟩
    obtain ⟨t', hrun, H'⟩ := H₁.insert (show A.alloc.live A.brk from Function.update_self ..)
      H.wf.notMem_brk hes (show A.alloc.brk < fuel from hf)
    rw [← H.brk] at hrun H'
    refine ⟨t', ?_, ?_⟩
    · show (do let t' ← timerInsert fuel t₁ t.brk; pure (some t.brk, t')) = _
      rw [hrun, H.brk]
      rfl
    · simpa [Alarms.start, ht₁, skiplistNodeInit, epTimerGettime, H.brk, H.now] using H'

/-- Every call keeps the invariant. -/
theorem exec (H : t.Rep A es) (op : TimerOp) (hf : A.brk + 1 < fuel) :
    Lockstep (fun t' A' => t'.Rep A' es) (op.exec fuel t) (A.exec op) := by
  cases op with
  | updatetime tv =>
    exact H.move { H.wf with } rfl (Nat.le_refl _) rfl rfl H.brk H.live H.freed
      fun _ _ => ⟨rfl, rfl⟩
  | runAfter oom ms cb arg =>
    obtain ⟨t', hrun, H'⟩ := H.start oom 0 ms cb arg hf
    simp only [TimerOp.exec, epTimerRunAfter, hrun]
    exact H'
  | runEvery oom ms cb arg =>
    obtain ⟨t', hrun, H'⟩ := H.start oom ms ms cb arg hf
    simp only [TimerOp.exec, epTimerRunEvery, hrun]
    exact H'
  | clear id => exact H.clear id hf

/-- A sequence of calls. -/
theorem execOps_of_lt {ops : List TimerOp} (H : t.Rep A es) (hf : A.brk + ops.length + 1 < fuel) :
    Lockstep (fun t' A' => t'.Rep A' es) (execOps fuel t ops) (A.execOps ops) := by
  induction ops generalizing t A with
  | nil => exact H
  | cons op ops ih =>
    rw [List.length_cons] at hf
    apply (H.exec op (by omega)).bind
    intro t' A' hA' H'
    apply ih H'
    have := Alarms.exec_brk_le hA'
    omega

theorem execOps (ops : List TimerOp) (A : Alarms) :
    ∀ᶠ fuel in Filter.atTop, ∀ t : Timer, t.Rep A es →
      Lockstep (fun t' A' => t'.Rep A' es) (execOps fuel t ops) (A.execOps ops) := by
  filter_upwards [Filter.eventually_gt_atTop (A.brk + ops.length + 1)] with fuel hf t H
  exact H.execOps_of_lt hf

end Rep

end Timer

end Libep

import Libep.TaskQueue
import Libep.Theory.Ring

/-!
# Task queues as rings

What the operations of `list.h` do to a ring, and the invariant `Rep s L` of the task queues: each queue `q`
is a ring through its head and the blocks `L q`, which are allocated and in no other queue.
-/

namespace Libep
open Chain

/-! ### The operations of `list.h` -/

namespace ListMem
variable {β : Type} {m m' m'' : ListMem β} {W W' : List β}

/-- From `m` to `m'` only the links of the places in `W` were written. -/
structure Frame (m m' : ListMem β) (W : List β) : Prop where
  live : m'.live = m.live
  next : ∀ y, y ∉ W → m'.next y = m.next y
  prev : ∀ y, y ∉ W → m'.prev y = m.prev y

/-- A ring elsewhere. -/
theorem Frame.ring (F : Frame m m' W) {h : β} {l : List β} (H : Ring m.next m.prev h l)
    (hW : ∀ y ∈ h :: l, y ∉ W) : Ring m'.next m'.prev h l :=
  H.congr (fun y hy => F.next y (hW y hy)) fun y hy => F.prev y (hW y hy)

theorem getNext_eq {p : β} (h : m.live p) : m.getNext (some p) = .ok (m.next p) := by
  simp [getNext, deref, h]

theorem getNext_dead {p : β} (h : ¬m.live p) : m.getNext (some p) = .error .invalid := by
  simp [getNext, deref, h]

theorem live_of_getNext {p : β} {n : Option β} (h : m.getNext (some p) = .ok n) : m.live p := by
  by_contra hdead
  cases (getNext_dead hdead).symm.trans h

theorem getPrev_eq {p : β} (h : m.live p) : m.getPrev (some p) = .ok (m.prev p) := by
  simp [getPrev, deref, h]

variable [DecidableEq β]

theorem setNext_eq {p : β} (h : m.live p) (v : Option β) :
    m.setNext (some p) v = .ok { m with next := Function.update m.next p v } := by
  simp [setNext, deref, h]

theorem setPrev_eq {p : β} (h : m.live p) (v : Option β) :
    m.setPrev (some p) v = .ok { m with prev := Function.update m.prev p v } := by
  simp [setPrev, deref, h]

end ListMem

section
variable {β : Type} [DecidableEq β] {m : ListMem β} {h a : β} {l l₁ l₂ : List β}
open ListMem

private theorem update_notMem {W : List β} {p y : β} (hp : p ∈ W) (hy : y ∉ W) (f : β → Option β)
    (v : Option β) : Function.update f p v y = f y := by
  apply Function.update_of_ne
  rintro rfl
  exact hy hp

theorem initListHead_spec (hh : m.live h) :
    ∃ m', initListHead m h = .ok m' ∧ Ring m'.next m'.prev h [] ∧ Frame m m' [h] := by
  refine ⟨_, by rw [initListHead, setNext_eq hh, Res.ok_bind, setPrev_eq (by exact hh)], ?_, ?_⟩
  · exact Ring.nil_iff.2 ⟨by simp, by simp⟩
  · refine ⟨rfl, fun y hy => ?_, fun y hy => ?_⟩
    · exact Function.update_of_ne (by simpa using hy) _ _
    · exact Function.update_of_ne (by simpa using hy) _ _

theorem listAddTail_spec (H : Ring m.next m.prev h l) (ha : a ∉ h :: l)
    (hl : ∀ y ∈ a :: h :: l, m.live y) :
    ∃ m', listAddTail m a h = .ok m' ∧ Ring m'.next m'.prev h (l ++ [a]) ∧
      Frame m m' (a :: h :: l) := by
  have hlast : last id h l ∈ h :: l := by simpa using last_mem_cons id h l
  have hp : m.live (last id h l) := hl _ (List.mem_cons_of_mem _ hlast)
  have hh : m.live h := hl h (by simp)
  have ha' : m.live a := hl a (by simp)
  refine ⟨⟨Function.update (Function.update m.next a (some h)) (last id h l) (some a),
    Function.update (Function.update m.prev h (some a)) a (some (last id h l)), m.live⟩, ?_,
    H.addTail ha, rfl, fun y hy => ?_, fun y hy => ?_⟩
  · simp only [listAddTail, listAddBetween, getPrev_eq hh, H.prev_head, Res.ok_bind, setPrev_eq hh]
    rw [setNext_eq (by exact ha'), Res.ok_bind, setPrev_eq (by exact ha'), Res.ok_bind,
      setNext_eq (by exact hp)]
  · exact (update_notMem (List.mem_cons_of_mem _ hlast) hy _ _).trans
      (update_notMem List.mem_cons_self hy _ _)
  · exact (update_notMem List.mem_cons_self hy _ _).trans
      (update_notMem (List.mem_cons_of_mem _ List.mem_cons_self) hy _ _)

theorem listDel_spec (H : Ring m.next m.prev h (l₁ ++ a :: l₂))
    (hl : ∀ y ∈ h :: (l₁ ++ a :: l₂), m.live y) :
    ∃ m', listDel m (some a) = .ok m' ∧ Ring m'.next m'.prev h (l₁ ++ l₂) ∧ m'.next a = none ∧
      Frame m m' (h :: (l₁ ++ a :: l₂)) := by
  have haW : a ∈ h :: (l₁ ++ a :: l₂) := by simp
  have hpW : last id h l₁ ∈ h :: (l₁ ++ a :: l₂) := by
    rw [← List.cons_append]
    exact List.mem_append_left _ (by simpa using last_mem_cons id h l₁)
  have hnW : l₂.headD h ∈ h :: (l₁ ++ a :: l₂) := by
    rcases List.mem_cons.1 (headD_mem h l₂) with e | e
    · rw [e]
      exact List.mem_cons_self
    · exact List.mem_cons_of_mem _ (List.mem_append_right _ (List.mem_cons_of_mem _ e))
  have ha := hl a haW
  have hnd := H.nodup
  rw [← List.cons_append] at hnd
  have hfresh := (List.nodup_cons.1 (List.nodup_middle.1 hnd)).1
  refine ⟨⟨Function.update (Function.update m.next (last id h l₁) (m.next a)) a none,
    Function.update (Function.update m.prev (l₂.headD h) (m.prev a)) a none, m.live⟩, ?_,
    H.del.congr (fun y hy => ?_) fun y hy => ?_, Function.update_self .., rfl, fun y hy => ?_,
    fun y hy => ?_⟩
  · simp only [listDel, listDelBetween, getPrev_eq ha, getNext_eq ha, H.prev_node, H.next_node,
      Res.ok_bind]
    rw [setPrev_eq (hl _ hnW), Res.ok_bind, setNext_eq (by exact hl _ hpW), Res.ok_bind,
      setNext_eq (by exact ha), Res.ok_bind, setPrev_eq (by exact ha)]
  · apply Function.update_of_ne
    rintro rfl
    exact hfresh hy
  · apply Function.update_of_ne
    rintro rfl
    exact hfresh hy
  · exact (update_notMem haW hy _ _).trans (update_notMem hpW hy _ _)
  · exact (update_notMem haW hy _ _).trans (update_notMem hnW hy _ _)

end

/-! ### The queues -/

namespace Tasks
variable {Q : Type}

/-- Each queue `q` is a ring through the blocks `L q`. -/
structure Rep (s : Tasks Q) (L : Q → List Nat) : Prop where
  ring : ∀ q, Ring s.list.next s.list.prev (.head q) ((L q).map .task)
  head : ∀ q, s.list.live (.head q)
  live : ∀ q, ∀ a ∈ L q, s.list.live (.task a)
  lt : ∀ q, ∀ a ∈ L q, a < s.brk
  disjoint : ∀ q q', q ≠ q' → ∀ a ∈ L q, a ∉ L q'

namespace Rep
variable {s : Tasks Q} {L : Q → List Nat} {q : Q} {a : Nat} {l₁ l₂ : List Nat}

theorem nodup (H : Rep s L) (q : Q) : (L q).Nodup := (List.nodup_cons.1 (H.ring q).nodup).2.of_map

/-- The place after the head. -/
theorem next_head (H : Rep s L) (q : Q) :
    s.list.getNext (some (.head q)) = .ok (some (((L q).map .task).headD (.head q))) := by
  rw [ListMem.getNext_eq (H.head q), (H.ring q).next_head]

/-- The place after a block. -/
theorem next_task (H : Rep s L) (hq : L q = l₁ ++ a :: l₂) :
    s.list.getNext (some (.task a)) = .ok (some ((l₂.map .task).headD (.head q))) := by
  have hr := H.ring q
  rw [hq, List.map_append, List.map_cons] at hr
  rw [ListMem.getNext_eq (H.live q a (by simp [hq])), hr.next_node]

theorem brk_fresh (H : Rep s L) (q : Q) : s.brk ∉ L q := fun h => Nat.lt_irrefl _ (H.lt q _ h)

theorem brk_notMem (H : Rep s L) (q : Q) :
    TaskRef.task s.brk ∉ TaskRef.head q :: (L q).map .task := by
  simpa using H.brk_fresh q

/-- The rings of two queues have no place in common. -/
theorem notMem_of_ne (H : Rep s L) {q' : Q} (hq : q ≠ q') {y : TaskRef Q}
    (hy : y ∈ TaskRef.head q' :: (L q').map .task) : y ∉ TaskRef.head q :: (L q).map .task := by
  intro h
  simp only [List.mem_cons, List.mem_map] at h hy
  rcases h with rfl | ⟨a, ha, rfl⟩
  · rcases hy with e | ⟨b, -, e⟩
    · cases e
      exact hq rfl
    · cases e
  · rcases hy with e | ⟨b, hb, e⟩
    · cases e
    · cases e
      exact H.disjoint q q' hq _ ha hb

theorem place_live (H : Rep s L) {y : TaskRef Q} (hy : y ∈ TaskRef.head q :: (L q).map .task) :
    s.list.live y := by
  rcases List.mem_cons.1 hy with rfl | hy
  · exact H.head q
  · obtain ⟨a, ha, rfl⟩ := List.mem_map.1 hy
    exact H.live q a ha

variable [DecidableEq Q]

/-- The queues after a push of the block `b` onto `q`. -/
theorem mem_pushed {q' : Q} {b : Nat} :
    a ∈ Function.update L q (L q ++ [b]) q' ↔ a ∈ L q' ∨ q' = q ∧ a = b := by
  rcases eq_or_ne q' q with rfl | hne
  · simp
  · simp [hne]

/-- `ep_task_queue_push` appends a new block to its queue. -/
theorem push (H : Rep s L) (q : Q) (fn arg : Nat) :
    ∃ s', epTaskQueuePush s q false fn arg = .ok (some s.brk, s') ∧
      Rep s' (Function.update L q (L q ++ [s.brk])) ∧
      s'.cb = Function.update s.cb s.brk ⟨fn, arg⟩ ∧ s'.brk = s.brk + 1 ∧
      s'.list.live = Function.update s.list.live (.task s.brk) true ∧
      ∀ a, a ≠ s.brk → a ∉ L q → s'.list.next (.task a) = s.list.next (.task a) := by
  set m₀ : ListMem (TaskRef Q) :=
    { s.list with live := Function.update s.list.live (.task s.brk) true } with hm₀
  have hlive : ∀ y, s.list.live y → m₀.live y := by
    intro y hy
    rcases eq_or_ne y (.task s.brk) with rfl | h
    · simp [m₀]
    · simpa [m₀, h] using hy
  obtain ⟨m₁, hinit, -, F₁⟩ := initListHead_spec (m := m₀) (h := .task s.brk) (by simp [m₀])
  have hnew : m₁.live (.task s.brk) := by rw [F₁.live]; simp [m₀]
  have hring : ∀ q', Ring m₁.next m₁.prev (.head q') ((L q').map .task) := fun q' =>
    F₁.ring (H.ring q') fun y hy h => H.brk_notMem q' (List.mem_singleton.1 h ▸ hy)
  obtain ⟨m₂, hadd, hring₂, F₂⟩ := listAddTail_spec (hring q) (H.brk_notMem q) (fun y hy => by
    rcases List.mem_cons.1 hy with rfl | hy
    · exact hnew
    · rw [F₁.live]
      exact hlive y (H.place_live hy))
  have hlive₂ : ∀ y, s.list.live y → m₂.live y := fun y hy => by
    rw [F₂.live, F₁.live]
    exact hlive y hy
  refine ⟨{ s with list := m₂, cb := Function.update s.cb s.brk ⟨fn, arg⟩, brk := s.brk + 1 }, ?_,
    ⟨fun q' => ?_, fun q' => hlive₂ _ (H.head q'), fun q' a ha => ?_, fun q' a ha => ?_,
      fun q' q'' hne a ha => ?_⟩, rfl, rfl, F₂.live.trans F₁.live, fun a hne ha => ?_⟩
  · simp only [epTaskQueuePush, Bool.false_eq_true, if_false]
    rw [hinit, Res.ok_bind, hadd]
    rfl
  · rcases eq_or_ne q' q with rfl | hq
    · simpa using hring₂
    · rw [Function.update_of_ne hq]
      refine F₂.ring (hring q') fun y hy h => ?_
      rcases List.mem_cons.1 h with rfl | h
      · exact H.brk_notMem q' hy
      · exact H.notMem_of_ne hq.symm hy h
  · rcases mem_pushed.1 ha with ha | ⟨-, rfl⟩
    · exact hlive₂ _ (H.live q' a ha)
    · show m₂.live _
      rw [F₂.live]
      exact hnew
  · rcases mem_pushed.1 ha with ha | ⟨-, rfl⟩
    · exact Nat.lt_succ_of_lt (H.lt q' a ha)
    · exact Nat.lt_succ_self _
  · -- the new block is in no other queue
    intro ha'
    rcases mem_pushed.1 ha with ha | ⟨rfl, rfl⟩
    · rcases mem_pushed.1 ha' with ha' | ⟨-, rfl⟩
      · exact H.disjoint q' q'' hne a ha ha'
      · exact H.brk_fresh q' ha
    · rcases mem_pushed.1 ha' with ha' | ⟨rfl, -⟩
      · exact H.brk_fresh q'' ha'
      · exact hne rfl
  · have h₁ : m₁.next (.task a) = s.list.next (.task a) := F₁.next _ (by simpa using hne)
    rw [← h₁]
    exact F₂.next _ (by simpa using ⟨hne, ha⟩)

/-- `list_del` of a block of a queue. -/
theorem unlink (H : Rep s L) (hq : L q = l₁ ++ a :: l₂) :
    ∃ m, listDel s.list (some (.task a)) = .ok m ∧ m.live = s.list.live ∧
      Rep { s with list := m } (Function.update L q (l₁ ++ l₂)) ∧ m.next (.task a) = none ∧
      ∀ b, b ∉ L q → m.next (.task b) = s.list.next (.task b) := by
  have hr := H.ring q
  have hp := @place_live _ _ _ q H
  have hmap : (L q).map (TaskRef.task (Q := Q)) = l₁.map .task ++ .task a :: l₂.map .task := by
    rw [hq, List.map_append, List.map_cons]
  rw [hmap] at hr hp
  obtain ⟨m, hdel, hring, hnone, F⟩ := listDel_spec hr fun y hy => hp hy
  have hsub : ∀ q', (Function.update L q (l₁ ++ l₂) q').Sublist (L q') := by
    intro q'
    rcases eq_or_ne q' q with rfl | h
    · rw [Function.update_self, hq]
      exact (List.sublist_cons_self a l₂).append_left l₁
    · rw [Function.update_of_ne h]
  refine ⟨m, hdel, F.live, ⟨fun q' => ?_, fun q' => ?_, fun q' b hb => ?_,
    fun q' b hb => H.lt q' b ((hsub q').subset hb),
    fun q' q'' hne b hb h => H.disjoint q' q'' hne b ((hsub q').subset hb) ((hsub q'').subset h)⟩,
    hnone, fun b hb => F.next _ ?_⟩
  · rcases eq_or_ne q' q with rfl | h
    · rw [Function.update_self, List.map_append]
      exact hring
    · rw [Function.update_of_ne h]
      refine F.ring (H.ring q') fun y hy => ?_
      rw [← hmap]
      exact H.notMem_of_ne h.symm hy
  · show m.live _
    rw [F.live]
    exact H.head q'
  · show m.live _
    rw [F.live]
    exact H.live q' b ((hsub q').subset hb)
  · rw [← hmap]
    simpa using hb

/-- The queues without one of their blocks. -/
theorem unlinked (H : Rep s L) (hq : L q = l₁ ++ a :: l₂) :
    Function.update L q (l₁ ++ l₂) = fun q' => (L q').filter (· ≠ a) := by
  funext q'
  rcases eq_or_ne q' q with rfl | hne
  · have hnd := H.nodup q'
    rw [hq] at hnd
    rw [Function.update_self, hq, filter_ne_middle hnd]
  · rw [Function.update_of_ne hne, List.filter_eq_self.2]
    intro b hb
    have hne : b ≠ a := fun e => H.disjoint q q' hne.symm a (by simp [hq]) (e ▸ hb)
    simpa using hne

/-- `free` of a block of no queue. -/
theorem free (H : Rep s L) (ha : ∀ q, a ∉ L q) (hlive : s.list.live (.task a)) :
    ∃ s', s.free a = .ok s' ∧ Rep s' L ∧ s'.cb = s.cb ∧ s'.brk = s.brk := by
  refine ⟨{ s with
      list := { s.list with live := Function.update s.list.live (.task a) false }
      freed := s.freed ++ [a] }, by rw [Tasks.free, if_pos hlive],
    ⟨H.ring, fun q => ?_, fun q b hb => ?_, H.lt, H.disjoint⟩, rfl, rfl⟩
  · show Function.update s.list.live (.task a) false (.head q) = true
    rw [Function.update_of_ne (by simp)]
    exact H.head q
  · show Function.update s.list.live (.task a) false (.task b) = true
    rw [Function.update_of_ne]
    · exact H.live q b hb
    · intro e
      cases e
      exact ha q hb

end Rep

/-- The one queue of `s` holds the tasks `l`. -/
structure Holds (s : Tasks Unit) (l : List TaskCall) : Prop where
  rep : Rep s fun _ => l.map TaskCall.id
  cb : ∀ t ∈ l, s.cb t.id = ⟨t.fn, t.arg⟩

namespace Holds
variable {s : Tasks Unit} {l l₁ l₂ : List TaskCall} {t : TaskCall} {log : TaskLog}

theorem ring (H : Holds s l) :
    Ring s.list.next s.list.prev (.head ()) (l.map fun t => .task t.id) := by
  have := H.rep.ring ()
  rwa [List.map_map] at this

theorem nodup (H : Holds s l) : (l.map TaskCall.id).Nodup := H.rep.nodup ()

theorem lt (H : Holds s l) (ht : t ∈ l) : t.id < s.brk :=
  H.rep.lt () t.id (List.mem_map_of_mem ht)

/-- The place a run starts at. -/
def first (l : List TaskCall) : TaskRef Unit := (l.map fun t => .task t.id).headD (.head ())

theorem next_head (H : Holds s l) :
    s.list.getNext (some (.head ())) = .ok (some (first l)) := by
  have := H.rep.next_head ()
  rwa [List.map_map] at this

theorem next_task (H : Holds s (l₁ ++ t :: l₂)) :
    s.list.getNext (some (.task t.id)) = .ok (some (first l₂)) := by
  have := H.rep.next_task (q := ()) (a := t.id) (by rw [List.map_append, List.map_cons])
  rwa [List.map_map] at this

/-- `ep_task_queue_push`. -/
theorem push (H : Holds s l) (fn arg : Nat) :
    ∃ s', epTaskQueuePush s () false fn arg = .ok (some s.brk, s') ∧
      Holds s' (l ++ [⟨s.brk, fn, arg⟩]) ∧ s'.brk = s.brk + 1 ∧
      s'.list.live = Function.update s.list.live (.task s.brk) true := by
  obtain ⟨s', hrun, H', hcb, hbrk, hlive, -⟩ := H.rep.push () fn arg
  refine ⟨s', hrun, ⟨?_, fun t ht => ?_⟩, hbrk, hlive⟩
  · have hL : (fun _ : Unit => (l ++ [(⟨s.brk, fn, arg⟩ : TaskCall)]).map TaskCall.id) =
        Function.update (fun _ => l.map TaskCall.id) () (l.map TaskCall.id ++ [s.brk]) := by
      funext u
      simp
    rw [hL]
    exact H'
  · rw [hcb]
    rcases List.mem_append.1 ht with ht | ht
    · rw [Function.update_of_ne (Nat.ne_of_lt (H.lt ht))]
      exact H.cb t ht
    · rw [List.mem_singleton.1 ht, Function.update_self]

theorem pushTask (H : Holds s l) (p : Push) :
    ∃ s' new, Libep.pushTask () (s, log) p =
        .ok (s', { log with pushed := log.pushed ++ new }) ∧ Holds s' (l ++ new) ∧
      new = (if p.oom then [] else [⟨s.brk, p.fn, p.arg⟩]) ∧ s'.brk = s.brk + new.length ∧
      ∀ y, s.list.live y → s'.list.live y := by
  cases hp : p.oom with
  | true =>
    exact ⟨s, [], by simp [Libep.pushTask, epTaskQueuePush, hp], by simpa using H, rfl, rfl, fun _ h => h⟩
  | false =>
    obtain ⟨s', hrun, H', hbrk, hlive⟩ := H.push p.fn p.arg
    refine ⟨s', [⟨s.brk, p.fn, p.arg⟩], by simp [Libep.pushTask, hp, hrun], H', rfl, hbrk, fun y hy => ?_⟩
    rw [hlive]
    rcases eq_or_ne y (.task s.brk) with rfl | h
    · simp
    · rwa [Function.update_of_ne h]

/-- `list_del` of a task of the queue. -/
theorem unlink (H : Holds s (l₁ ++ t :: l₂)) :
    ∃ m, listDel s.list (some (.task t.id)) = .ok m ∧ m.live = s.list.live ∧
      Holds { s with list := m } (l₁ ++ l₂) := by
  obtain ⟨m, hdel, hlive, H', -⟩ := H.rep.unlink (q := ()) (a := t.id)
    (show _ = l₁.map TaskCall.id ++ t.id :: l₂.map TaskCall.id by rw [List.map_append, List.map_cons])
  refine ⟨m, hdel, hlive, ⟨?_, fun u hu => H.cb u ?_⟩⟩
  · have hL : (fun _ : Unit => (l₁ ++ l₂).map TaskCall.id) = Function.update
        (fun _ => (l₁ ++ t :: l₂).map TaskCall.id) () (l₁.map TaskCall.id ++ l₂.map TaskCall.id) := by
      funext u
      simp
    rw [hL]
    exact H'
  · exact ((List.sublist_cons_self t l₂).append_left l₁).subset hu

/-- `list_del` of the first task, whose callback is called next. -/
theorem take (H : Holds s (t :: l)) :
    ∃ m, listDel s.list (some (.task t.id)) = .ok m ∧ m.live (.task t.id) ∧
      Tasks.call { s with list := m } t.id = .ok t ∧ Holds { s with list := m } l := by
  obtain ⟨m, hdel, hlive, H'⟩ := @unlink s [] l t H
  have ht : m.live (.task t.id) := by
    rw [hlive]
    exact H.rep.live () t.id (by simp)
  have hcb := H.cb t List.mem_cons_self
  exact ⟨m, hdel, ht, by rw [Tasks.call, if_pos ht, hcb], H'⟩

/-- `free` of a block that is not in the queue. -/
theorem free (H : Holds s l) {a : Nat} (ha : a ∉ l.map TaskCall.id) (hlive : s.list.live (.task a)) :
    ∃ s', s.free a = .ok s' ∧ Holds s' l ∧ s'.brk = s.brk := by
  obtain ⟨s', hfree, H', hcb, hbrk⟩ := H.rep.free (fun _ => ha) hlive
  exact ⟨s', hfree, ⟨H', fun t ht => by rw [hcb]; exact H.cb t ht⟩, hbrk⟩

/-- `ep_task_cancel` of a task of the queue. -/
theorem cancel (H : Holds s (l₁ ++ t :: l₂)) :
    ∃ s', epTaskCancel s t.id = .ok s' ∧ Holds s' (l₁ ++ l₂) ∧ s'.brk = s.brk ∧
      s'.list.live = Function.update s.list.live (.task t.id) false := by
  obtain ⟨m, hdel, hlive, H'⟩ := H.unlink
  have hnd := H.nodup
  rw [List.map_append, List.map_cons] at hnd
  have hfresh := (List.nodup_cons.1 (List.nodup_middle.1 hnd)).1
  rw [← List.map_append] at hfresh
  have ht : m.live (.task t.id) := by
    rw [hlive]
    exact H.rep.live () t.id (by simp)
  obtain ⟨s', hfree, H'', hbrk⟩ := H'.free hfresh ht
  refine ⟨s', by rw [epTaskCancel, hdel, Res.ok_bind, hfree], H'', hbrk, ?_⟩
  have hfree' : Tasks.free { s with list := m } t.id = .ok _ := if_pos ht
  cases hfree.symm.trans hfree'
  rw [← hlive]

/-- `ep_task_cancel` of a block of the queue. -/
theorem cancel_mem (H : Holds s l) {id : Nat} (hid : id ∈ l.map TaskCall.id) :
    ∃ s', epTaskCancel s id = .ok s' ∧ Holds s' (l.filter (·.id ≠ id)) ∧ s'.brk = s.brk ∧
      s'.list.live = Function.update s.list.live (.task id) false := by
  obtain ⟨t, ht, rfl⟩ := List.mem_map.1 hid
  obtain ⟨l₁, l₂, rfl⟩ := List.append_of_mem ht
  rw [filter_key_ne H.nodup]
  exact H.cancel

end Holds

end Tasks

end Libep

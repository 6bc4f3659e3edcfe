import Libep.Timer
import Libep.Theory.StableList

/-!
# Alarms

What a timer list is for, without the memory it lives in: a list of alarms in the order of their
deadlines, and among equal deadlines in the order they were put in. A call of `execute` takes the
due alarms off the list before any callback runs, and gives them their turns one by one.
-/

namespace Libep
open StableList

/-- A scheduled timer; `stamp` numbers the insertions into the list. -/
structure Alarm extends TimerNode where
  id : Nat
  deadline : UInt64
  stamp : Nat
  deriving DecidableEq

namespace Alarm

def firing (e : Alarm) : Firing := ⟨e.id, e.cb, e.arg⟩

/-- What the skip list stores of an alarm. -/
def place (e : Alarm) : Nat × UInt64 := (e.id, e.deadline)

/-- In the order of deadlines, ties in the order of insertion. -/
def Before (e e' : Alarm) : Prop :=
  e.deadline < e'.deadline ∨ e.deadline = e'.deadline ∧ e.stamp < e'.stamp

end Alarm

/-- The alarms of a timer, its clock, and the names in use. -/
structure Alarms where
  list : List Alarm
  now : UInt64
  /-- The name of the next timer. -/
  brk : Nat
  live : Nat → Bool
  /-- The names of the destroyed timers, in order. -/
  freed : List Nat
  stamp : Nat

namespace Alarms

/-- No alarms, before any name is given out. -/
def empty (now : UInt64) : Alarms := ⟨[], now, 0, fun _ => false, [], 0⟩

def ids (A : Alarms) : List Nat := A.list.map Alarm.id

/-- Put an alarm in its place in the list. -/
def put (A : Alarms) (n : TimerNode) (id : Nat) (deadline : UInt64) : Alarms :=
  { A with
    list := stableInsert Alarm.deadline ⟨n, id, deadline, A.stamp⟩ A.list
    stamp := A.stamp + 1 }

def alloc (A : Alarms) : Alarms :=
  { A with live := Function.update A.live A.brk true, brk := A.brk + 1 }

def free (A : Alarms) (id : Nat) : Res Alarms :=
  if A.live id then
    .ok { A with live := Function.update A.live id false, freed := A.freed ++ [id] }
  else .error .invalid

/-- A new timer. -/
def start (A : Alarms) (oom : Bool) (n : TimerNode) (ms : UInt64) : Alarms :=
  if oom then A else A.alloc.put n A.brk (A.now + ms)

def clear (A : Alarms) (id : Nat) : Res Alarms :=
  free { A with list := A.list.filter (·.id ≠ id) } id

def exec (A : Alarms) : TimerOp → Res Alarms
  | .updatetime tv => .ok { A with now := tv.ms }
  | .runAfter oom ms cb arg => .ok (A.start oom ⟨0, cb, arg⟩ ms)
  | .runEvery oom ms cb arg => .ok (A.start oom ⟨ms, cb, arg⟩ ms)
  | .clear id => A.clear id

def execOps (A : Alarms) : List TimerOp → Res Alarms
  | [] => .ok A
  | op :: ops => do execOps (← A.exec op) ops

/-- An interval is put back in the list, a one-shot destroyed. -/
def finish (A : Alarms) (e : Alarm) : Res Alarms :=
  if A.live e.id then
    if e.ms > 0 then .ok (A.put e.toTimerNode e.id (e.deadline + e.ms)) else A.free e.id
  else .error .invalid

/-- The turn of an alarm whose callback makes the calls `ops`. -/
def turn (A : Alarms) (ops : List TimerOp) (e : Alarm) : Res Alarms :=
  if A.live e.id then do (← A.execOps ops).finish e else .error .invalid

/-- The turns of the alarms `es`, the first of which is the `k`-th of the call. -/
def turns (script : Nat → List TimerOp) (A : Alarms) : (k : Nat) → List Alarm → Res Alarms
  | _, [] => .ok A
  | k, e :: es => do turns script (← A.turn (script k) e) (k + 1) es

/-- The turns a call with limit `max_times` gives when `n` alarms are due. -/
def limit (max_times : Int32) (n : Nat) : Nat :=
  if max_times < 0 then n else min n (max 1 max_times.toInt.toNat)

def due (A : Alarms) (now : UInt64) : List Alarm := upTo Alarm.deadline now A.list

/-- The alarms that get a turn. -/
def batch (A : Alarms) (now : UInt64) (max_times : Int32) : List Alarm :=
  (A.due now).take (limit max_times (A.due now).length)

/-- The alarms without the due ones. -/
def detach (A : Alarms) (now : UInt64) : Alarms :=
  { A with list := above Alarm.deadline now A.list }

def execute (A : Alarms) (script : Nat → List TimerOp) (now : UInt64) (max_times : Int32) :
    Res Alarms :=
  (A.detach now).turns script 0 (A.batch now max_times)

def execStep (A : Alarms) : TimerStep → Res (Alarms × TimerLog)
  | .call op => do return (← A.exec op, [])
  | .execute now max_times script => do
    return (← A.execute script now max_times, [(now, (A.batch now max_times).map Alarm.firing)])

def execSteps : Alarms → List TimerStep → Res (Alarms × TimerLog)
  | A, [] => .ok (A, [])
  | A, s :: steps => do
    let (A, log) ← A.execStep s
    let (A, log') ← execSteps A steps
    return (A, log ++ log')

/-! ### Well-formedness -/

/-- The list is in order, and names are used once. -/
structure WF (A : Alarms) : Prop where
  nodup : A.ids.Nodup
  live : ∀ e ∈ A.list, A.live e.id
  lt : ∀ id, A.live id → id < A.brk
  before : A.list.Pairwise Alarm.Before
  stamp : ∀ e ∈ A.list, e.stamp < A.stamp
  freed_lt : ∀ id ∈ A.freed, id < A.brk
  freed_dead : ∀ id ∈ A.freed, A.live id = false
  freed_nodup : A.freed.Nodup

/-- A name given out that is not in the list: of a destroyed timer, or of one in a batch. -/
def Detached (A : Alarms) (id : Nat) : Prop := id < A.brk ∧ id ∉ A.ids

variable {A A' : Alarms} {n : TimerNode} {id id' : Nat} {d : UInt64} {op : TimerOp} {e : Alarm}

@[simp] theorem mem_ids_put : id' ∈ (A.put n id d).ids ↔ id' = id ∨ id' ∈ A.ids := by
  simp [put, ids, eq_comm]

theorem free_eq_ok : A.free id = .ok A' ↔ A.live id ∧
    { A with live := Function.update A.live id false, freed := A.freed ++ [id] } = A' := by
  unfold free
  split <;> simp_all

theorem WF.empty (now : UInt64) : (empty now).WF :=
  ⟨.nil, nofun, nofun, .nil, nofun, nofun, nofun, .nil⟩

namespace WF

theorem sorted (H : A.WF) : Sorted Alarm.deadline A.list :=
  H.before.imp fun h => h.elim le_of_lt fun h => le_of_eq h.1

theorem lt_of_mem (H : A.WF) (h : id ∈ A.ids) : id < A.brk := by
  obtain ⟨e, he, rfl⟩ := List.mem_map.1 h
  exact H.lt _ (H.live e he)

theorem length_le (H : A.WF) : A.list.length ≤ A.brk := by
  have hsub : A.ids ⊆ List.range A.brk := fun id h => List.mem_range.2 (H.lt_of_mem h)
  simpa [ids] using (List.subperm_of_subset H.nodup hsub).length_le

theorem eq_of_id_eq (H : A.WF) {e e' : Alarm} (he : e ∈ A.list) (he' : e' ∈ A.list)
    (h : e.id = e'.id) : e = e' :=
  List.inj_on_of_nodup_map H.nodup he he' h

theorem put (H : A.WF) (n : TimerNode) (d : UInt64) (hlive : A.live id) (hid : id ∉ A.ids) :
    (A.put n id d).WF := by
  set e : Alarm := ⟨n, id, d, A.stamp⟩ with he
  have hperm := stableInsert_perm H.sorted e
  refine ⟨?_, fun e' h => ?_, H.lt, ?_, fun e' h => ?_, H.freed_lt, H.freed_dead, H.freed_nodup⟩
  · refine ((hperm.map Alarm.id).nodup_iff).2 (List.nodup_cons.2 ⟨hid, H.nodup⟩)
  · rcases mem_stableInsert.1 h with rfl | h
    · exact hlive
    · exact H.live e' h
  · refine List.pairwise_append.2 ⟨H.before.filter _, List.pairwise_cons.2 ⟨?_, H.before.filter _⟩, ?_⟩
    · exact fun e' h => .inl (mem_above.1 h).2
    · intro e₁ h₁ e₂ h₂
      obtain ⟨h₁, hle⟩ := mem_upTo.1 h₁
      rcases List.mem_cons.1 h₂ with rfl | h₂
      · rcases lt_or_eq_of_le hle with h | h
        · exact .inl h
        · exact .inr ⟨h, H.stamp e₁ h₁⟩
      · exact .inl (lt_of_le_of_lt hle (mem_above.1 h₂).2)
  · rcases mem_stableInsert.1 h with rfl | h
    · exact Nat.lt_succ_self _
    · exact Nat.lt_succ_of_lt (H.stamp e' h)

/-- A part of the list. -/
theorem sublist (H : A.WF) {l : List Alarm} (h : l.Sublist A.list) : { A with list := l }.WF where
  nodup := H.nodup.sublist (h.map _)
  live e he := H.live e (h.subset he)
  lt := H.lt
  before := H.before.sublist h
  stamp e he := H.stamp e (h.subset he)
  freed_lt := H.freed_lt
  freed_dead := H.freed_dead
  freed_nodup := H.freed_nodup

theorem alloc (H : A.WF) : A.alloc.WF := by
  refine ⟨H.nodup, fun e he => ?_, fun id h => ?_, H.before, H.stamp, fun id h => ?_, fun id h => ?_,
    H.freed_nodup⟩
  · have := H.lt _ (H.live e he)
    simp [Alarms.alloc, Nat.ne_of_lt this, H.live e he]
  · rcases Nat.lt_or_ge id A.brk with h' | h'
    · exact Nat.lt_succ_of_lt h'
    · by_contra hne
      have hid : id ≠ A.brk := by rintro rfl; exact hne (Nat.lt_succ_self _)
      simp only [Alarms.alloc, Function.update_of_ne hid] at h
      exact absurd (H.lt id h) (Nat.not_lt.2 h')
  · exact Nat.lt_succ_of_lt (H.freed_lt id h)
  · simp only [Alarms.alloc, Function.update_of_ne (Nat.ne_of_lt (H.freed_lt id h))]
    exact H.freed_dead id h

theorem notMem_brk (H : A.WF) : A.brk ∉ A.ids := fun h => Nat.lt_irrefl _ (H.lt_of_mem h)

theorem start (H : A.WF) (oom : Bool) (n : TimerNode) (ms : UInt64) : (A.start oom n ms).WF := by
  cases oom with
  | true => exact H
  | false => exact H.alloc.put n _ (Function.update_self ..) H.notMem_brk

theorem free (H : A.WF) (hid : id ∉ A.ids) (h : A.free id = .ok A') : A'.WF := by
  obtain ⟨hl, rfl⟩ := free_eq_ok.1 h
  refine ⟨H.nodup, fun e he => ?_, fun id' h => ?_, H.before, H.stamp, fun id' h => ?_,
    fun id' h => ?_, ?_⟩
  · have hne : e.id ≠ id := fun h => hid (h ▸ List.mem_map_of_mem he)
    simpa [hne] using H.live e he
  · rcases eq_or_ne id' id with rfl | hne
    · simp at h
    · exact H.lt id' (by simpa [hne] using h)
  · rcases List.mem_append.1 h with h | h
    · exact H.freed_lt id' h
    · rw [List.mem_singleton.1 h]; exact H.lt id hl
  · rcases eq_or_ne id' id with rfl | hne
    · simp
    · simp only [List.mem_append, List.mem_singleton, hne, or_false] at h
      simpa [hne] using H.freed_dead id' h
  · refine List.nodup_append.2 ⟨H.freed_nodup, List.nodup_singleton _, ?_⟩
    rintro a ha b hb rfl
    rw [List.mem_singleton.1 hb] at ha
    rw [H.freed_dead id ha] at hl
    cases hl

theorem clear (H : A.WF) (h : A.clear id = .ok A') : A'.WF := by
  refine (H.sublist List.filter_sublist).free ?_ h
  simp [ids]

end WF

/-- A call gives out at most one name. -/
theorem exec_brk_le (h : A.exec op = .ok A') : A'.brk ≤ A.brk + 1 := by
  cases op with
  | updatetime tv => cases h; exact Nat.le_succ _
  | runAfter oom ms cb arg =>
    cases h
    cases oom
    · exact Nat.le_refl _
    · exact Nat.le_succ _
  | runEvery oom ms cb arg =>
    cases h
    cases oom
    · exact Nat.le_refl _
    · exact Nat.le_succ _
  | clear id =>
    obtain ⟨-, rfl⟩ := free_eq_ok.1 h
    exact Nat.le_succ _

end Alarms

end Libep

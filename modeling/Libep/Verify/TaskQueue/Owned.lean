import Libep.Verify.TaskQueue.Rep

/-!
# What callbacks do to the queues

A live block outside the queues, as that of a task that is running, has no successor; so `ep_task_cancel`
faults on it. Whatever tasks a callback pushes and cancels, when it returns each queue holds its tasks that
are still allocated, in the same order, and new ones behind them. `epTaskQueueRun_leaves` says what such
callbacks leave in a queue that is run.
-/

namespace Libep
open Chain

namespace Tasks
variable {Q : Type}

/-- Queues, with no other blocks that could be unlinked. -/
structure Owned (s : Tasks Q) (L : Q → List Nat) : Prop extends Rep s L where
  detached : ∀ a, s.list.live (.task a) → (∀ q, a ∉ L q) → s.list.next (.task a) = none

/-- Pushes and cancellations take the queues from `L` to `L'`. -/
structure Edits (s s' : Tasks Q) (L L' : Q → List Nat) : Prop where
  brk : s.brk ≤ s'.brk
  live : ∀ a < s.brk, s'.list.live (.task a) → s.list.live (.task a)
  lists : ∀ q, ∃ new, L' q = (L q).filter (fun a => s'.list.live (.task a)) ++ new ∧
    ∀ a ∈ new, s.brk ≤ a

namespace Edits
variable {s s' s'' : Tasks Q} {L L' L'' : Q → List Nat}

theorem refl (H : Rep s L) : Edits s s L L :=
  ⟨Nat.le_refl _, fun _ _ h => h, fun q => ⟨[], by
    rw [List.append_nil, List.filter_eq_self.2 fun a ha => H.live q a ha], nofun⟩⟩

theorem trans (H : Rep s L) (E : Edits s s' L L') (E' : Edits s' s'' L' L'') : Edits s s'' L L'' := by
  refine ⟨Nat.le_trans E.brk E'.brk,
    fun a ha h => E.live a ha (E'.live a (Nat.lt_of_lt_of_le ha E.brk) h), fun q => ?_⟩
  obtain ⟨new, hL, hnew⟩ := E.lists q
  obtain ⟨new', hL', hnew'⟩ := E'.lists q
  refine ⟨new.filter (fun a => s''.list.live (.task a)) ++ new', ?_, fun a ha => ?_⟩
  · rw [hL', hL, List.filter_append, List.filter_filter, List.append_assoc]
    refine congrArg (· ++ _) (List.filter_congr fun a ha => ?_)
    -- what is allocated in the end was so in between
    have hlt := Nat.lt_of_lt_of_le (H.lt q a ha) E.brk
    cases h : s''.list.live (.task a) with
    | false => rfl
    | true => rw [E'.live a hlt h]; rfl
  · rcases List.mem_append.1 ha with ha | ha
    · exact hnew a (List.mem_of_mem_filter ha)
    · exact Nat.le_trans E.brk (hnew' a ha)

/-- A block that was in no queue is in none. -/
theorem notMem (E : Edits s s' L L') {a : Nat} (ha : ∀ q, a ∉ L q) (hlt : a < s.brk) (q : Q) :
    a ∉ L' q := by
  obtain ⟨new, hL, hnew⟩ := E.lists q
  rw [hL, List.mem_append, not_or]
  exact ⟨fun h => ha q (List.mem_of_mem_filter h), fun h => Nat.not_le.2 hlt (hnew a h)⟩

end Edits

namespace Owned
variable {s s' : Tasks Q} {L : Q → List Nat} {q : Q} {a : Nat} {l₁ l₂ : List Nat} [DecidableEq Q]

/-- `list_del` of a block of a queue. -/
theorem unlink (H : Owned s L) (hq : L q = l₁ ++ a :: l₂) :
    ∃ m, listDel s.list (some (.task a)) = .ok m ∧ m.live = s.list.live ∧
      Owned { s with list := m } fun q' => (L q').filter (· ≠ a) := by
  obtain ⟨m, hdel, hlive, H', hnone, hnext⟩ := H.toRep.unlink hq
  rw [H.toRep.unlinked hq] at H'
  refine ⟨m, hdel, hlive, H', fun b hb hb' => ?_⟩
  show m.next (.task b) = none
  rcases eq_or_ne b a with rfl | hne
  · exact hnone
  · have hnot : ∀ q', b ∉ L q' := fun q' h => hb' q' (List.mem_filter.2 ⟨h, by simpa using hne⟩)
    rw [hnext b (hnot q)]
    apply H.detached b _ hnot
    rw [← hlive]
    exact hb

/-- `free` of a block of no queue. -/
theorem free (H : Owned s L) (ha : ∀ q, a ∉ L q) (h : s.free a = .ok s') :
    Owned s' L ∧ s'.list.live = Function.update s.list.live (.task a) false ∧ s'.brk = s.brk := by
  rw [Tasks.free] at h
  split at h
  · next hlive =>
    obtain ⟨s₁, hfree, H', -⟩ := H.toRep.free ha hlive
    rw [Tasks.free, if_pos hlive] at hfree
    cases h
    cases hfree
    refine ⟨⟨H', fun b hb hb' => H.detached b ?_ hb'⟩, rfl, rfl⟩
    replace hb : Function.update s.list.live (.task a) false (.task b) = true := hb
    rcases eq_or_ne b a with rfl | hne
    · simp at hb
    · rwa [Function.update_of_ne (by simpa using hne)] at hb
  · cases h

/-- `ep_task_queue_push`. -/
theorem push (H : Owned s L) {oom : Bool} {fn arg : Nat} {ret : Option Nat}
    (h : epTaskQueuePush s q oom fn arg = .ok (ret, s')) : ∃ L', Owned s' L' ∧ Edits s s' L L' := by
  cases oom with
  | true =>
    rw [epTaskQueuePush, if_pos rfl] at h
    cases h
    exact ⟨L, H, .refl H.toRep⟩
  | false =>
    obtain ⟨s₁, hpush, H', -, hbrk, hlive, hnext⟩ := H.toRep.push q fn arg
    rw [hpush] at h
    cases h
    have hold : ∀ a, a ≠ s.brk → s'.list.live (.task a) = s.list.live (.task a) := by
      intro a ha
      rw [hlive, Function.update_of_ne (by simpa using ha)]
    refine ⟨_, ⟨H', fun b hb hb' => ?_⟩, by omega, fun a ha hb => ?_, fun q' => ?_⟩
    · have hne : b ≠ s.brk := fun e => hb' q (Rep.mem_pushed.2 (.inr ⟨rfl, e⟩))
      have hnot : ∀ q', b ∉ L q' := fun q' h => hb' q' (Rep.mem_pushed.2 (.inl h))
      rw [hnext b hne (hnot q)]
      apply H.detached b _ hnot
      rw [← hold b hne]
      exact hb
    · rwa [hold a (Nat.ne_of_lt ha)] at hb
    · have hfilter : (L q').filter (fun a => s'.list.live (.task a)) = L q' := by
        refine List.filter_eq_self.2 fun a ha => ?_
        rw [hold a (Nat.ne_of_lt (H.lt q' a ha))]
        exact H.live q' a ha
      rw [hfilter]
      rcases eq_or_ne q' q with rfl | hq'
      · exact ⟨[s.brk], by rw [Function.update_self], by simp⟩
      · exact ⟨[], by rw [Function.update_of_ne hq', List.append_nil], by simp⟩

/-- `ep_task_cancel`, which faults on a block of no queue. -/
theorem cancel (H : Owned s L) (h : epTaskCancel s a = .ok s') :
    ∃ L', Owned s' L' ∧ Edits s s' L L' := by
  obtain ⟨m, hdel, hfree⟩ := Res.bind_eq_ok.1 h
  by_cases hmem : ∃ q, a ∈ L q
  · obtain ⟨q, hmem⟩ := hmem
    obtain ⟨l₁, l₂, hq⟩ := List.append_of_mem hmem
    obtain ⟨m', hdel', hlive, H'⟩ := H.unlink hq
    cases hdel.symm.trans hdel'
    obtain ⟨H'', hlive', hbrk⟩ := H'.free (fun _ => by simp) hfree
    have hlive'' : ∀ b, s'.list.live (.task b) = (s.list.live (.task b) && decide (b ≠ a)) := by
      intro b
      rw [hlive', ← hlive]
      rcases eq_or_ne b a with rfl | hne
      · simp
      · simp [hne]
    refine ⟨_, H'', Nat.le_of_eq hbrk.symm, fun b _ hb => ?_, fun q' => ⟨[], ?_, nofun⟩⟩
    · rw [hlive''] at hb
      exact (Bool.and_eq_true _ _ ▸ hb).1
    · rw [List.append_nil]
      refine List.filter_congr fun b hb => ?_
      rw [hlive'', H.live q' b hb, Bool.true_and]
  · rw [not_exists] at hmem
    obtain ⟨p, hprev, hdel⟩ := Res.bind_eq_ok.1 hdel
    obtain ⟨n, hnext, hdel⟩ := Res.bind_eq_ok.1 hdel
    have hlive := ListMem.live_of_getNext hnext
    rw [ListMem.getNext_eq hlive, H.detached a hlive hmem] at hnext
    cases hnext
    cases hdel

end Owned

/-- The first task of a queue stays the first while it is allocated. -/
theorem Edits.first {s s' : Tasks Q} {L L' : Q → List Nat} (E : Edits s s' L L') {q : Q} {u : Nat}
    {l : List Nat} (hq : L q = u :: l) (hu : s'.list.live (.task u)) :
    ((L' q).map .task).headD (.head q) = TaskRef.task u := by
  obtain ⟨new, hL', -⟩ := E.lists q
  rw [hL', hq]
  simp [hu]

end Tasks

/-! ### What a run leaves -/

section
variable {Q W : Type} [DecidableEq Q] {q : Q} {call : TaskCall → Tasks Q × W → Res (Tasks Q × W)}
  {P : W → Nat → Prop} {s s' : Tasks Q} {w w' : W} {L : Q → List Nat} {k fuel : Nat}
  {pos n : Option (TaskRef Q)}

/-- Callbacks push and cancel; what a callback finds in the queue `q`, when it is called with the queue
empty, has the property `P` of the worlds. -/
def Leaves (q : Q) (call : TaskCall → Tasks Q × W → Res (Tasks Q × W)) (P : W → Nat → Prop) : Prop :=
  ∀ c s w s' w' L, call c (s, w) = .ok (s', w') → s.Owned L →
    ∃ L', s'.Owned L' ∧ s.Edits s' L L' ∧ (L q = [] → ∀ a ∈ L' q, P w' a)

theorem runLoop_leaves (hcall : Leaves q call P) (H : s.Owned L) (hn : s.list.getNext pos = .ok n)
    (hpos : pos = some (((L q).map .task).headD (.head q)) ∨
      pos = some (.head q) ∧ ∀ a ∈ L q, P w a)
    (h : runLoop q call k (s, w) pos n = .ok (s', w')) :
    ∃ L', s'.Owned L' ∧ ∀ a ∈ L' q, P w' a := by
  induction k generalizing s w L pos n with
  | zero => cases h
  | succ k ih =>
    rw [runLoop] at h
    split at h
    · next hhead =>
      cases h
      refine ⟨L, H, ?_⟩
      rcases hpos with hpos | ⟨-, hP⟩
      · cases hL : L q with
        | nil => nofun
        | cons a l =>
          rw [hhead, hL] at hpos
          cases hpos
      · exact hP
    · next hhead =>
      replace hpos := hpos.resolve_right fun h => hhead h.1
      cases hL : L q with
      | nil =>
        rw [hL] at hpos
        exact absurd hpos hhead
      | cons a l =>
        obtain rfl : pos = some (.task a) := by rw [hpos, hL]; rfl
        obtain ⟨m, hdel, -, H₁⟩ := H.unlink (show L q = [] ++ a :: l from hL)
        rw [hdel] at h
        simp only [Res.ok_bind, taskEntry, Res.bind_eq_ok] at h
        obtain ⟨c, -, ⟨s₂, w₂⟩, hrun, s₃, hfree, n', hn', h⟩ := h
        obtain ⟨L₂, H₂, E, hP⟩ := hcall _ _ _ _ _ _ hrun H₁
        have ha := E.notMem (fun _ => by simp) (H.lt q a (by simp [hL]))
        obtain ⟨H₃, hlive₃, -⟩ := H₂.free ha hfree
        have hnd := H.nodup q
        rw [hL, List.nodup_cons] at hnd
        have hrest : (L q).filter (· ≠ a) = l := by
          rw [hL, List.filter_cons_of_neg (by simp), List.filter_eq_self.2]
          intro b hb
          have hne : b ≠ a := fun e => hnd.1 (e ▸ hb)
          simpa using hne
        refine ih H₃ hn' ?_ h
        rw [H.toRep.next_task (show L q = [] ++ a :: l from hL)] at hn
        cases hn
        cases l with
        | nil =>
          right
          exact ⟨rfl, hP hrest⟩
        | cons u l =>
          left
          -- the next task is still there, or its link could not be read
          have hu := ListMem.live_of_getNext hn'
          have hne : u ≠ a := fun e => hnd.1 (e ▸ List.mem_cons_self)
          rw [hlive₃, Function.update_of_ne (by simpa using hne)] at hu
          exact congrArg some (E.first hrest hu).symm

/-- **What a run leaves** was pushed by callbacks that were called with the queue empty. -/
theorem epTaskQueueRun_leaves (hcall : Leaves q call P) (H : s.Owned L)
    (h : epTaskQueueRun q call fuel (s, w) = .ok (s', w')) : ∃ L', s'.Owned L' ∧ ∀ a ∈ L' q, P w' a := by
  obtain ⟨pos, hpos, h⟩ := Res.bind_eq_ok.1 h
  obtain ⟨n, hn, h⟩ := Res.bind_eq_ok.1 h
  rw [H.toRep.next_head q] at hpos
  cases hpos
  exact runLoop_leaves hcall H hn (.inl rfl) h

/-- What every callback keeps, `ep_task_queue_run_keep` does. -/
theorem runKeepLoop_keeps {I : Tasks Q → W → Prop}
    (hcall : ∀ c s w s' w', call c (s, w) = .ok (s', w') → I s w → I s' w') (hI : I s w)
    (h : runKeepLoop q call k (s, w) pos = .ok (s', w')) : I s' w' := by
  induction k generalizing s w pos with
  | zero => cases h
  | succ k ih =>
    rw [runKeepLoop] at h
    split at h
    · cases h
      exact hI
    · simp only [Res.bind_eq_ok] at h
      obtain ⟨_, -, c, -, ⟨s₁, w₁⟩, hrun, _, -, h⟩ := h
      exact ih (hcall _ _ _ _ _ hrun hI) h

end

end Libep

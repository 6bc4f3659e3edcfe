import Libep.Epoll
import Libep.Theory.Drain
import Libep.Verify.Ep.Turn

/-!
# What `ep_iterate` delivers on the epoll engine

The events not delivered yet are the entries of the buffer below `ready`. A call that finds some
delivers one and does nothing else; a call that finds none makes a turn and delivers the last event of
the batch it gets. So the calls of a run drain the batches of `epoll_wait` one by one.
-/

namespace Libep

variable {K : Type} {kernel : EpollKernel K} {s s' : EpollState} {out : Out}

/-! ### The buffer -/

/-- The entries below `n`, the last one first. -/
def entriesBelow (ee : Nat → EpollEvent) : Nat → List EpollEvent
  | 0 => []
  | n + 1 => ee n :: entriesBelow ee n

namespace EpollState

/-- The events that are not delivered yet, in the order of delivery. -/
def pending (s : EpollState) : List EpollEvent := entriesBelow s.ee s.ready.toNat

/-- The entries of the pending events lie in the buffer. -/
def InBounds (s : EpollState) : Prop := 0 < s.ready → s.ready ≤ s.sz

end EpollState

open EpollState

/-- The engine after the wait. -/
def EpollState.waited (s : EpollState) (o : WaitOutcome) : EpollState :=
  { s with ready := o.ret, ee := storeEvents o.events s.ee }

/-- Store an event through the pointers of a fetch. -/
def Out.deliver (out : Out) (e : EpollEvent) : Out := out.store (epollBits e.events) e.data

theorem epEpollFetch_empty (h : s.ready ≤ 0) : epEpollFetch s out = .ok (0, s, out) :=
  if_neg (Int.not_lt.2 h)

/-- A fetch delivers the first pending event. -/
theorem epEpollFetch_pending (H : s.InBounds) (h : 0 < s.ready) :
    ∃ e s', epEpollFetch s out = .ok (s.ready, s', out.deliver e) ∧ s.pending = e :: s'.pending ∧
      s'.InBounds := by
  obtain ⟨n, hn⟩ := Int.eq_succ_of_zero_lt h
  have hn' : s.ready - 1 = n := by omega
  refine ⟨s.ee n, { s with ready := s.ready - 1 }, ?_, ?_, fun _ => ?_⟩
  · rw [epEpollFetch, if_pos h, if_pos (show s.ready - 1 < s.sz by have := H h; omega), hn',
      Int.toNat_natCast]
    rfl
  · simp only [pending, hn']
    rw [hn]
    rfl
  · have := H h
    simp only
    omega

/-! ### One call -/

variable {fuel : Nat} {env : Env EpollState K} {st st' : EpLoop EpollState WaitOutcome K}
variable {waittime : Int32} {ret : Int} {out' : Out}

/-- What the pointers point to after a call that got the batch `l`. -/
def Out.deliverLast (out : Out) (l : List EpollEvent) : Out := (l.getLast?.map out.deliver).getD out

/-- A call that delivered `e`, one of `n` pending events, and did nothing else. -/
structure Handed (e : EpollEvent) (n : Nat) (r : Report WaitOutcome) : Prop where
  ret : r.ret = n
  out : r.out' = r.out.deliver e
  obs : r.obs = []

/-- A call that made a turn, got the batch `l` and delivered the last of its events. -/
def Refilled (l : List EpollEvent) (r : Report WaitOutcome) : Prop :=
  ∃ (cs : List EpCall) (timeout : Int32) (o : WaitOutcome),
    r.obs = cs.map .call ++ [.wait timeout o] ∧ o.events = l ∧ r.ret = o.ret ∧
      r.out' = r.out.deliverLast l

theorem WaitOutcome.ret_pos_iff {o : WaitOutcome} : 0 < o.ret ↔ 0 < o.events.length := by
  cases o with
  | fail e => exact iff_of_false (by simp only [ret]; omega) (Nat.lt_irrefl 0)
  | batch l => exact Int.ofNat_lt

/-- A wait that a call made, with the answer of the kernel. -/
def Report.Waited (r : Report WaitOutcome) (o : WaitOutcome) : Prop :=
  ∃ timeout, .wait timeout o ∈ r.obs

theorem Refilled.waited {l : List EpollEvent} {r : Report WaitOutcome} (H : Refilled l r) :
    ∃ o, r.Waited o ∧ o.events = l := by
  obtain ⟨cs, timeout, o, hobs, hl, -⟩ := H
  exact ⟨o, ⟨timeout, by simp [hobs]⟩, hl⟩

/-- A call that waited got the batch of the answer. -/
theorem Drains.refilled {reports : List (Report WaitOutcome)} {p : List EpollEvent}
    {r : Report WaitOutcome} {o : WaitOutcome} {i : Nat} (H : Drains Handed Refilled p reports)
    (hr : reports[i]? = some r) (h : r.Waited o) :
    (∃ cs : List EpCall, ∃ timeout, r.obs = cs.map .call ++ [.wait timeout o]) ∧ r.ret = o.ret ∧
      r.out' = r.out.deliverLast o.events ∧
      Drains Handed Refilled o.events.reverse.tail (reports.drop (i + 1)) := by
  obtain ⟨timeout, hmem⟩ := h
  rcases H.cases_getElem hr with ⟨e, n, h⟩ | ⟨l, ⟨cs, timeout', o', hobs, rfl, hret, hout⟩, hrest⟩
  · rw [h.obs] at hmem
    cases hmem
  · obtain ⟨-, rfl⟩ : timeout = timeout' ∧ o = o' := by simpa [hobs] using hmem
    exact ⟨⟨cs, timeout', hobs⟩, hret, hout, hrest⟩

/-- A kernel that gives the answers of a list, cut to what the buffer holds, and then fails. -/
def scriptedKernel : EpollKernel (List WaitOutcome) where
  epoll_ctl k _ _ _ _ := (0, k)
  epoll_wait k _ maxevents _ :=
    match k with
    | [] => (.fail 0, [])
    | .fail e :: k => (.fail e, k)
    | .batch l :: k => (.batch (l.take maxevents.toNat), k)
  wait_le k _ maxevents _ h := by
    rcases k with _ | ⟨⟨e⟩ | ⟨l⟩, k⟩
    · cases h
    · exact absurd (WaitOutcome.ret_pos_iff.1 h) (Nat.lt_irrefl 0)
    · simp only [WaitOutcome.ret, List.length_take] at h ⊢
      omega

/-- The clock stands still; the callback of the function 1 calls `ep_nexttick` for itself, and the
others do nothing. -/
def quietEnv : Env EpollState (List WaitOutcome) where
  gettimeofday k := (⟨0, 0⟩, k)
  callback c st :=
    match c with
    | .task _ ⟨_, 1, arg⟩ => ([.nexttick false 1 arg], st.world)
    | _ => ([], st.world)

/-- The loop before its initialisation, and the answers of the kernel. -/
def rawLoop (world : List WaitOutcome) : EpState EpollState (List WaitOutcome) where
  ps := ⟨0, 0, 0, fun _ => ⟨0, 0⟩⟩
  tasks :=
    { list := ⟨fun _ => none, fun _ => none, fun p => p = .head .nexttick ∨ p = .head .everytick⟩
      cb := fun _ => ⟨0, 0⟩, brk := 0, freed := [] }
  timer := ⟨⟨fun _ => none, fun _ => ⟨0, fun _ => none⟩, fun _ => false⟩, 0, fun _ => ⟨0, 0, 0⟩, 0, [],
    fun _ => 0⟩
  world

/-- The loop after `ep_init`. -/
def freshLoop (world : List WaitOutcome) : EpLoop EpollState WaitOutcome (List WaitOutcome) where
  toEpState :=
    ((epInit (epEpollInit · 3 false) (rawLoop world)).toOption.getD (0, rawLoop world)).2
  log := []

/-- A failure, an answer without events and two batches. -/
def fourAnswers : List WaitOutcome :=
  [.fail 3, .batch [], .batch [⟨epollIn, 10⟩, ⟨epollOut, 11⟩], .batch [⟨epollHup, 12⟩]]

end Libep

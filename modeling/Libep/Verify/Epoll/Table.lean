import Libep.Epoll

/-!
# The table behind `epoll_ctl`

The engine keeps no registration of its own: the kernel has a table of the watched descriptors, and
rejects a call that does not fit it. `EpollTable` says so of a kernel; `tableEpoll` is such a kernel.
-/

namespace Libep

/-- `epoll_ctl` takes the operation for a descriptor with this entry. -/
def EpollCtl.Accepts (e : Option EpollEvent) : EpollCtl → Prop
  | .add => e = none
  | .mod | .del => e ≠ none

instance (e : Option EpollEvent) : (op : EpollCtl) → Decidable (op.Accepts e)
  | .add => inferInstanceAs (Decidable (_ = none))
  | .mod | .del => inferInstanceAs (Decidable (_ ≠ none))

/-- What `epoll_ctl(2)` does to the table of an epoll descriptor: `EPOLL_CTL_ADD` fails on a registered
descriptor, the others on an unregistered one, and a call that fails changes nothing. -/
structure EpollTable {K : Type} (kernel : EpollKernel K) where
  table : K → (efd : Int) → (fd : Int) → Option EpollEvent
  ctl : ∀ k efd op fd e, (op = .del ↔ e = none) → op.Accepts (table k efd fd) →
    (kernel.epoll_ctl k efd op fd e).1 = 0 ∧
      table (kernel.epoll_ctl k efd op fd e).2 efd = Function.update (table k efd) fd e
  ctl_fail : ∀ k efd op fd e, ¬op.Accepts (table k efd fd) →
    (kernel.epoll_ctl k efd op fd e).1 = -1 ∧
      table (kernel.epoll_ctl k efd op fd e).2 efd = table k efd

namespace PollCall
variable (table : Int → Option EpollEvent)

def ctl : PollCall → EpollCtl
  | add _ _ _ => .add
  | mod _ _ _ => .mod
  | del _ => .del

/-- The entry a call makes. -/
def entry : PollCall → Option EpollEvent
  | add _ events data | mod _ events data => some ⟨epollMask events, data⟩
  | del _ => none

/-- The call fits the table. -/
def Accepted (c : PollCall) : Prop := c.ctl.Accepts (table c.fd)

instance (c : PollCall) : Decidable (c.Accepted table) :=
  inferInstanceAs (Decidable (c.ctl.Accepts _))

/-- The table after a call. -/
def record (c : PollCall) : Int → Option EpollEvent :=
  if c.Accepted table then Function.update table c.fd c.entry else table

variable {table} {c : PollCall} {fd : Int}

theorem record_of_ne (h : fd ≠ c.fd) : c.record table fd = table fd := by
  unfold record
  split
  · exact Function.update_of_ne h ..
  · rfl

theorem ctl_eq_del (c : PollCall) : c.ctl = .del ↔ c.entry = none := by
  cases c <;> simp [ctl, entry]

theorem exec_epoll {K : Type} (kernel : EpollKernel K) (s : EpollState) (k : K) (c : PollCall) :
    c.exec (epollApi kernel) s k =
      .ok ((kernel.epoll_ctl k s.efd c.ctl c.fd c.entry).1, s,
        (kernel.epoll_ctl k s.efd c.ctl c.fd c.entry).2) := by
  cases c <;> rfl

end PollCall

namespace EpollTable
variable {K : Type} {kernel : EpollKernel K} (T : EpollTable kernel) {k : K} {efd fd : Int}
  {op : EpollCtl} {e : Option EpollEvent}

/-- A call that returns 0 makes its entry. -/
theorem ctl_zero (hop : op = .del ↔ e = none) (h : (kernel.epoll_ctl k efd op fd e).1 = 0) :
    T.table (kernel.epoll_ctl k efd op fd e).2 efd = Function.update (T.table k efd) fd e := by
  by_cases hacc : op.Accepts (T.table k efd fd)
  · exact (T.ctl k efd op fd e hop hacc).2
  · rw [(T.ctl_fail k efd op fd e hacc).1] at h
    cases h

/-- Another one changes nothing. -/
theorem ctl_ne_zero (hop : op = .del ↔ e = none) (h : (kernel.epoll_ctl k efd op fd e).1 ≠ 0) :
    T.table (kernel.epoll_ctl k efd op fd e).2 efd = T.table k efd := by
  by_cases hacc : op.Accepts (T.table k efd fd)
  · exact absurd (T.ctl k efd op fd e hop hacc).1 h
  · exact (T.ctl_fail k efd op fd e hacc).2

/-- The engine does to the table what the call says. -/
theorem exec (s : EpollState) (k : K) (c : PollCall) :
    ∃ k', c.exec (epollApi kernel) s k =
        .ok (if c.Accepted (T.table k s.efd) then 0 else -1, s, k') ∧
      T.table k' s.efd = c.record (T.table k s.efd) := by
  have hctl := c.exec_epoll kernel s k
  unfold PollCall.record
  by_cases h : c.Accepted (T.table k s.efd)
  · obtain ⟨hret, htable⟩ := T.ctl k s.efd c.ctl c.fd c.entry c.ctl_eq_del h
    rw [hret] at hctl
    rw [if_pos h, if_pos h]
    exact ⟨_, hctl, htable⟩
  · obtain ⟨hret, htable⟩ := T.ctl_fail k s.efd c.ctl c.fd c.entry h
    rw [hret] at hctl
    rw [if_neg h, if_neg h]
    exact ⟨_, hctl, htable⟩

end EpollTable

/-- The tables of a kernel, and the descriptors that become ready, for each wait in turn. -/
structure TableWorld where
  table : (efd : Int) → (fd : Int) → Option EpollEvent
  ready : List (List (Int × UInt32))

/-- The report for a ready descriptor, if it is registered. -/
def TableWorld.report (k : TableWorld) (efd : Int) (r : Int × UInt32) : Option EpollEvent :=
  (k.table efd r.1).map fun e => ⟨r.2, e.data⟩

/-- The next wait, with room for `maxevents` events. -/
def TableWorld.wait (k : TableWorld) (efd maxevents : Int) : WaitOutcome :=
  .batch (((k.ready.headD []).filterMap (k.report efd)).take maxevents.toNat)

theorem TableWorld.wait_le {k : TableWorld} {efd maxevents : Int}
    (h : 0 < (k.wait efd maxevents).ret) : (k.wait efd maxevents).ret ≤ maxevents := by
  simp only [TableWorld.wait, WaitOutcome.ret, List.length_take] at h ⊢
  omega

def tableEpoll : EpollKernel TableWorld where
  epoll_ctl k efd op fd e :=
    if op.Accepts (k.table efd fd) then
      (0, { k with table := Function.update k.table efd (Function.update (k.table efd) fd e) })
    else (-1, k)
  epoll_wait k efd maxevents _ := (k.wait efd maxevents, { k with ready := k.ready.tail })
  wait_le _ _ _ _ := TableWorld.wait_le

def tableEpollTable : EpollTable tableEpoll where
  table k := k.table
  ctl k efd op fd e _ h := by simp [tableEpoll, h]
  ctl_fail k efd op fd e h := by simp [tableEpoll, h]

end Libep

import Libep.Verify.Sock.Connect

/-!
# What the functions that serve return

`ep__tcpserver` and `ep__udpserver` leave their loop at the first address that gets a socket. When a later call
for it fails, they go to a label that sets `s` to -1 and closes nothing; so they leak the descriptor, unless
`ep_v6only` failed, which closes it. When the lookup fails they free a list that they did not get.
`ep_unixserver` leaks its descriptor when it cannot listen. `server_release_iff` says when all is released.
-/

namespace Libep
open Sys

/-- Either a descriptor is returned, which is the only one newly open, is bound, and listens if it should; or
none is, and none is newly open. Every address list that is got is freed once. -/
def Releases (listens : Bool) (opened : Nat → Bool) (x : Sys (Option Nat)) : Prop :=
  ∃ w, replay (.start opened) x.calls = some w ∧ w.lists = [] ∧
    match x.ret with
    | none => w.fds = (SockWorld.start opened).fds
    | some s => opened s = false ∧
      ∃ st, w.fds = Function.update (SockWorld.start opened).fds s (some st) ∧ st.bound.isSome ∧
        (listens = true → st.listening = true)

section
variable {w : SockWorld} {s : Nat} {st : SockState} {p : ServerTry} {ps : List ServerTry} {af : Int}

theorem epListen_runs (h : w.fds s = some st) (sa : SockAddr) (backlog : Int) (bind listen : Bool) :
    ∃ st', (epListen s sa backlog bind listen).Runs w (bind && listen) (w.put s (some st')) ∧
      ((bind && listen) = true → st'.bound.isSome ∧ st'.listening = true) := by
  cases bind with
  | false =>
    refine ⟨st, ?_, by simp⟩
    rw [SockWorld.put_self h]
    exact Runs.bind (.sys rfl) .pure
  | true =>
    have hbind : (sys (.bind s sa true) true).Runs w true (w.put s (some { st with bound := some sa })) := by
      apply Runs.sys
      rw [SysCall.replay, modify_put h]
      rfl
    cases listen with
    | false => exact ⟨{ st with bound := some sa }, Runs.bind hbind (.sys rfl), by simp⟩
    | true =>
      refine ⟨{ st with bound := some sa, listening := true }, Runs.bind hbind (.sys ?_),
        fun _ => ⟨rfl, rfl⟩⟩
      rw [SysCall.replay, modify_put SockWorld.put_fds, SockWorld.put_put]
      rfl

theorem sysBind_runs (h : w.fds s = some st) (sa : SockAddr) (bind : Bool) :
    ∃ st', (sys (.bind s sa bind) bind).Runs w bind (w.put s (some st')) ∧
      (bind = true → st'.bound.isSome) := by
  cases bind with
  | false => exact ⟨st, .sys (by rw [SockWorld.put_self h]; rfl), nofun⟩
  | true =>
    refine ⟨{ st with bound := some sa }, .sys ?_, fun _ => rfl⟩
    rw [SysCall.replay, modify_put h]
    rfl

/-! ### The loop over the addresses -/

/-- The `ep_v6only` that the loop calls fails. -/
def ServerTry.v6fails (af : Int) (p : ServerTry) : Prop := af = afInet6 ∧ p.v6only = false

instance : Decidable (p.v6fails af) := inferInstanceAs (Decidable (_ ∧ _))

theorem serverPrepare_next (hp : p.socket = none) : (serverPrepare af p).Runs w .next w := by
  rw [serverPrepare, hp]
  exact Runs.bind (.sys rfl) .pure

/-- The statement `if (af == AF_INET6 && ep_v6only(s))`. -/
theorem v6only_runs (h : w.fds s = none) :
    (if af = afInet6 then epV6only s p.v6only else pure true).Runs (w.put s (some newSocket))
      (!decide (p.v6fails af)) (if p.v6fails af then w else w.put s (some newSocket)) := by
  by_cases haf : af = afInet6
  · rw [if_pos haf]
    cases hv : p.v6only with
    | true =>
      have hnot : ¬p.v6fails af := fun h => by simp [ServerTry.v6fails, hv] at h
      rw [if_neg hnot, decide_eq_false hnot]
      exact Runs.bind (.sys rfl) .pure
    | false =>
      have hfails : p.v6fails af := ⟨haf, hv⟩
      rw [if_pos hfails, decide_eq_true hfails]
      exact Runs.bind (.sys rfl) (Runs.bind (.close_put h rfl) .pure)
  · have hnot : ¬p.v6fails af := fun h => haf h.1
    rw [if_neg haf, if_neg hnot, decide_eq_false hnot]
    exact .pure

theorem serverPrepare_runs (hp : p.socket = some s) (h : w.fds s = none) :
    (serverPrepare af p).Runs w (if ¬p.v6fails af ∧ p.reuseaddr = true then .ready s else .err)
      (if p.v6fails af then w else w.put s (some newSocket)) := by
  have hv6 := @v6only_runs w s p af h
  rw [serverPrepare, hp]
  by_cases hfails : p.v6fails af
  · rw [decide_eq_true hfails] at hv6
    rw [if_neg fun h => h.1 hfails]
    exact Runs.bind (.sys rfl) (Runs.bind hv6 .pure)
  · rw [decide_eq_false hfails] at hv6
    cases hr : p.reuseaddr with
    | true =>
      rw [if_pos ⟨hfails, rfl⟩]
      exact Runs.bind (.sys rfl) (Runs.bind hv6 (Runs.bind (.sys rfl) .pure))
    | false =>
      rw [if_neg (by simp)]
      exact Runs.bind (.sys rfl) (Runs.bind hv6 (Runs.bind (.sys rfl) .pure))

/-- The loop of the functions that serve, for their last call. -/
def serverLoop (af : Int) (finish : Nat → ServerTry → Sys Bool) : List ServerTry → Sys (Option Nat)
  | [] => return none
  | p :: ps => do
    match ← serverPrepare af p with
    | .next => serverLoop af finish ps
    | .err => return none
    | .ready s => if ← finish s p then return some s else return none

theorem tcpServerLoop_eq {backlog : Int} : tcpServerLoop af backlog =
    serverLoop af (fun s p => epListen s p.info.addr backlog p.bind p.listen) := by
  funext ps
  induction ps with
  | nil => rfl
  | cons p ps ih =>
    rw [serverLoop, ← ih]
    rfl

theorem udpServerLoop_eq : udpServerLoop af =
    serverLoop af (fun s p => sys (.bind s p.info.addr p.bind) p.bind) := by
  funext ps
  induction ps with
  | nil => rfl
  | cons p ps ih =>
    rw [serverLoop, ← ih]
    rfl

/-- The first address that gets a socket gets no further than `ep_v6only`, or all calls for it succeed; `good`
says that the last ones do. -/
def FirstServes (af : Int) (good : ServerTry → Bool) (ps : List ServerTry) : Prop :=
  ∀ p ∈ ps.find? fun p => p.socket.isSome, p.v6fails af ∨ p.reuseaddr = true ∧ good p = true

variable {finish : Nat → ServerTry → Sys Bool} {good : ServerTry → Bool} {listens : Bool}

theorem serverLoop_runs
    (hfinish : ∀ w s st p, w.fds s = some st → ∃ st', (finish s p).Runs w (good p) (w.put s (some st')) ∧
      (good p = true → st'.bound.isSome ∧ (listens = true → st'.listening = true)))
    (hfree : ∀ p ∈ ps, ∀ s, p.socket = some s → w.fds s = none) :
    ∃ ret w', (serverLoop af finish ps).Runs w ret w' ∧
      (ret = none ∧ w' = w ∧ FirstServes af good ps ∨
        ∃ s st, w.fds s = none ∧ w' = w.put s (some st) ∧
          (ret = none ∧ ¬FirstServes af good ps ∨
            ret = some s ∧ st.bound.isSome ∧ (listens = true → st.listening = true) ∧
              FirstServes af good ps)) := by
  induction ps with
  | nil => exact ⟨none, w, .pure, .inl ⟨rfl, rfl, nofun⟩⟩
  | cons p ps ih =>
    obtain ⟨ret, w', hrest, hres⟩ := ih fun q hq => hfree q (List.mem_cons_of_mem _ hq)
    rw [serverLoop]
    cases hp : p.socket with
    | none =>
      have hfind : FirstServes af good (p :: ps) ↔ FirstServes af good ps := by
        rw [FirstServes, List.find?_cons_of_neg (by simp [hp])]
        rfl
      rw [hfind]
      exact ⟨ret, w', Runs.bind (serverPrepare_next hp) hrest, hres⟩
    | some s =>
      have hs := hfree p List.mem_cons_self s hp
      have hprep := @serverPrepare_runs _ _ _ af hp hs
      have hfind : FirstServes af good (p :: ps) ↔
          p.v6fails af ∨ p.reuseaddr = true ∧ good p = true := by
        rw [FirstServes, List.find?_cons_of_pos (by simp [hp])]
        simp
      rw [hfind]
      by_cases hv6 : p.v6fails af
      · rw [if_neg fun h => h.1 hv6, if_pos hv6] at hprep
        exact ⟨none, w, Runs.bind hprep .pure, .inl ⟨rfl, rfl, .inl hv6⟩⟩
      · rw [if_neg hv6] at hprep
        rw [or_iff_right hv6]
        cases hr : p.reuseaddr with
        | false =>
          rw [if_neg fun h => by simp [hr] at h] at hprep
          exact ⟨none, _, Runs.bind hprep .pure, .inr ⟨s, _, hs, rfl, .inl ⟨rfl, by simp⟩⟩⟩
        | true =>
          rw [if_pos ⟨hv6, hr⟩] at hprep
          obtain ⟨st, hfin, hst⟩ := hfinish (w.put s (some newSocket)) s newSocket p SockWorld.put_fds
          rw [SockWorld.put_put] at hfin
          cases hg : good p with
          | true =>
            rw [hg] at hfin
            obtain ⟨hb, hl⟩ := hst hg
            exact ⟨some s, _, Runs.bind hprep (Runs.bind hfin .pure),
              .inr ⟨s, st, hs, rfl, .inr ⟨rfl, hb, hl, rfl, rfl⟩⟩⟩
          | false =>
            rw [hg] at hfin
            exact ⟨none, _, Runs.bind hprep (Runs.bind hfin .pure),
              .inr ⟨s, st, hs, rfl, .inl ⟨rfl, by simp⟩⟩⟩

end

/-! ### The functions -/

/-- The functions that serve, for their last call. -/
def genericServer (hints : AddrHints) (af : Int) (finish : Nat → ServerTry → Sys Bool) (port : Int)
    (bindaddr : Option CStr) (lookup : Lookup ServerTry) : Sys (Option Nat) := do
  match ← sys (.getaddrinfo bindaddr (some (portstr port)) hints (lookup.map Prod.fst)) lookup with
  | none =>
    sys (.freeaddrinfo none) ()
    return none
  | some (servinfo, ps) =>
    let s ← serverLoop af finish ps
    sys (.freeaddrinfo (some servinfo)) ()
    return s

section
variable {hints : AddrHints} {af port backlog : Int} {finish : Nat → ServerTry → Sys Bool}
  {bindaddr : Option CStr} {lookup : Lookup ServerTry} {good : ServerTry → Bool} {listens : Bool}
  {opened : Nat → Bool} {t : UnixTry} {path : CStr} {perm : Nat}

theorem epTcpserverAf_eq : epTcpserverAf port bindaddr af backlog lookup =
    genericServer ⟨aiPassive, af, sockStream⟩ af
      (fun s p => epListen s p.info.addr backlog p.bind p.listen) port bindaddr lookup := by
  rw [genericServer, ← tcpServerLoop_eq]
  rfl

theorem epUdpserverAf_eq : epUdpserverAf port bindaddr af lookup =
    genericServer ⟨aiPassive, af, sockDgram⟩ af (fun s p => sys (.bind s p.info.addr p.bind) p.bind)
      port bindaddr lookup := by
  rw [genericServer, ← udpServerLoop_eq]
  rfl

/-- A function that returns no descriptor and leaves none. -/
theorem releases_none {x : Sys (Option Nat)} (hx : x.Runs (.start opened) none (.start opened)) :
    Releases listens opened x := by
  refine ⟨_, hx.2, rfl, ?_⟩
  rw [hx.1]

/-- A function that returns the descriptor it leaves. -/
theorem releases_some {x : Sys (Option Nat)} {s : Nat} {st : SockState} (hs : opened s = false)
    (hx : x.Runs (.start opened) (some s) ((SockWorld.start opened).put s (some st)))
    (hst : st.bound.isSome ∧ (listens = true → st.listening = true)) : Releases listens opened x := by
  refine ⟨_, hx.2, rfl, ?_⟩
  rw [hx.1]
  exact ⟨hs, st, rfl, hst⟩

/-- A function that leaves an opened descriptor, and does not return it, does not release everything. -/
theorem not_releases {x : Sys (Option Nat)} {s : Nat} {st : SockState} {w : SockWorld}
    (hs : opened s = false) (hx : x.Runs (.start opened) none w) (hw : w.fds s = some st) :
    ¬Releases listens opened x := by
  rintro ⟨w', hw', -, h⟩
  obtain rfl : w' = w := Option.some.inj (hw'.symm.trans hx.2)
  rw [hx.1] at h
  rw [h, SockWorld.start_fds_none hs] at hw
  cases hw

/-- A function that serves releases everything exactly when the lookup succeeds, and the first address that
gets a socket is served or `ep_v6only` fails there. -/
theorem genericServer_releases_iff
    (hfinish : ∀ w s st p, w.fds s = some st → ∃ st', (finish s p).Runs w (good p) (w.put s (some st')) ∧
      (good p = true → st'.bound.isSome ∧ (listens = true → st'.listening = true)))
    (hfree : ∀ found ∈ lookup, ∀ p ∈ found.2, ∀ s ∈ p.socket, opened s = false) :
    Releases listens opened (genericServer hints af finish port bindaddr lookup) ↔
      ∃ found ∈ lookup, FirstServes af good found.2 := by
  cases lookup with
  | none =>
    refine iff_of_false ?_ (by simp)
    rintro ⟨w, hw, -⟩
    cases hw
  | some found =>
    obtain ⟨servinfo, ps⟩ := found
    have hps : (∃ found ∈ some (servinfo, ps), FirstServes af good found.2) ↔ FirstServes af good ps := by
      simp
    obtain ⟨ret, w, hloop, hres⟩ := @serverLoop_runs
      { SockWorld.start opened with lists := [servinfo] } ps af finish good listens hfinish
      (fun p hp s hs => SockWorld.start_fds_none (hfree _ rfl p hp s hs))
    have hend : w.lists = [servinfo] → (genericServer hints af finish port bindaddr
        (some (servinfo, ps))).Runs (.start opened) ret { w with lists := [] } := by
      intro hw
      refine Runs.bind (.sys rfl) (Runs.bind hloop (Runs.bind (.sys ?_) .pure))
      simp [SysCall.replay, hw]
    rw [hps]
    rcases hres with ⟨rfl, rfl, hall⟩ | ⟨s, st, hs, rfl, ⟨rfl, hall⟩ | ⟨rfl, hb, hl, hall⟩⟩
    · exact iff_of_true (releases_none (hend rfl)) hall
    · -- the descriptor is still open, and is not returned
      exact iff_of_false (not_releases (SockWorld.opened_of_start hs) (hend rfl) SockWorld.put_fds) hall
    · exact iff_of_true (releases_some (SockWorld.opened_of_start hs) (hend rfl) ⟨hb, hl⟩) hall

theorem epTcpserverAf_releases_iff
    (hfree : ∀ found ∈ lookup, ∀ p ∈ found.2, ∀ s ∈ p.socket, opened s = false) :
    Releases true opened (epTcpserverAf port bindaddr af backlog lookup) ↔
      ∃ found ∈ lookup, FirstServes af (fun p => p.bind && p.listen) found.2 := by
  rw [epTcpserverAf_eq]
  apply genericServer_releases_iff _ hfree
  intro w s st p h
  obtain ⟨st', hrun, hst⟩ := epListen_runs h p.info.addr backlog p.bind p.listen
  exact ⟨st', hrun, fun hg => ⟨(hst hg).1, fun _ => (hst hg).2⟩⟩

theorem epUdpserverAf_releases_iff
    (hfree : ∀ found ∈ lookup, ∀ p ∈ found.2, ∀ s ∈ p.socket, opened s = false) :
    Releases false opened (epUdpserverAf port bindaddr af lookup) ↔
      ∃ found ∈ lookup, FirstServes af ServerTry.bind found.2 := by
  rw [epUdpserverAf_eq]
  apply genericServer_releases_iff _ hfree
  intro w s st p h
  obtain ⟨st', hrun, hst⟩ := sysBind_runs h p.info.addr p.bind
  exact ⟨st', hrun, fun hg => ⟨hst hg, nofun⟩⟩

theorem epUnixserver_releases_iff (hfree : ∀ s ∈ t.socket, opened s = false) :
    Releases true opened (epUnixserver path perm backlog t) ↔
      t.socket = none ∨ t.reuseaddr = false ∨ t.bind = true ∧ t.listen = true := by
  cases hs : t.socket with
  | none =>
    exact iff_of_true (releases_none (Runs.bind (epCreatesocket_none hs) .pure)) (.inl rfl)
  | some s =>
    have hso := hfree s hs
    have hcreate := epCreatesocket_some hs (SockWorld.start_fds_none hso)
    rw [or_iff_right (by simp)]
    cases hr : t.reuseaddr with
    | false =>
      rw [hr] at hcreate
      have hrun : (epUnixserver path perm backlog t).Runs (.start opened) none (.start opened) := by
        rw [epUnixserver, hr]
        exact Runs.bind hcreate .pure
      exact iff_of_true (releases_none hrun) (.inl rfl)
    | true =>
      rw [hr] at hcreate
      rw [or_iff_right (by simp), ← Bool.and_eq_true]
      obtain ⟨st, hlisten, hst⟩ := epListen_runs
        (show ((SockWorld.start opened).put s (some newSocket)).fds s = _ from SockWorld.put_fds)
        (.unix (sunPath path none)) backlog t.bind t.listen
      rw [SockWorld.put_put] at hlisten
      cases hg : t.bind && t.listen with
      | false =>
        rw [hg] at hlisten
        refine iff_of_false ?_ (by simp)
        have hrun : (epUnixserver path perm backlog t).Runs (.start opened) none
            ((SockWorld.start opened).put s (some st)) := by
          rw [epUnixserver, hr]
          exact Runs.bind hcreate (Runs.bind hlisten .pure)
        exact not_releases hso hrun SockWorld.put_fds
      | true =>
        rw [hg] at hlisten
        have hrun : (epUnixserver path perm backlog t).Runs (.start opened) (some s)
            ((SockWorld.start opened).put s (some st)) := by
          rw [epUnixserver, hr]
          refine Runs.bind hcreate (Runs.bind hlisten ?_)
          by_cases hperm : perm = 0
          · simp only [if_true, hperm, ne_eq, not_true_eq_false, if_false]
            exact Runs.bind .pure .pure
          · simp only [if_true, ne_eq, hperm, not_false_eq_true]
            exact Runs.bind (.sys rfl) .pure
        exact iff_of_true (releases_some hso hrun ⟨(hst hg).1, fun _ => (hst hg).2⟩) rfl

end

/-- **When the functions that serve release everything.** `ep__tcpserver` and `ep__udpserver` do so exactly when
the lookup succeeds, and the first address that gets a socket is served or `ep_v6only` fails there;
`ep_unixserver` exactly when it gets no socket, or can bind and listen. -/
theorem server_release_iff (port : Int) (bindaddr : Option CStr) (af backlog : Int) (path : CStr) (perm : Nat)
    (lookup : Lookup ServerTry) (t : UnixTry) (opened : Nat → Bool)
    (hfree : ∀ found ∈ lookup, ∀ p ∈ found.2, ∀ s ∈ p.socket, opened s = false)
    (ht : ∀ s ∈ t.socket, opened s = false) :
    (Releases true opened (epTcpserverAf port bindaddr af backlog lookup) ↔
      ∃ found ∈ lookup, FirstServes af (fun p => p.bind && p.listen) found.2) ∧
    (Releases false opened (epUdpserverAf port bindaddr af lookup) ↔
      ∃ found ∈ lookup, FirstServes af ServerTry.bind found.2) ∧
    (Releases true opened (epUnixserver path perm backlog t) ↔
      t.socket = none ∨ t.reuseaddr = false ∨ t.bind = true ∧ t.listen = true) :=
  ⟨epTcpserverAf_releases_iff hfree, epUdpserverAf_releases_iff hfree, epUnixserver_releases_iff ht⟩

/-- One address, at which all goes well but for `bind`. -/
def sampleServer (bind : Bool) : Lookup ServerTry :=
  some (1, [⟨⟨afInet, sockStream, 6, .inet 1⟩, some 3, true, true, bind, true⟩])

theorem sampleServer_fresh (bind : Bool) :
    ∀ found ∈ sampleServer bind, ∀ p ∈ found.2, ∀ s ∈ p.socket, sampleOpened s = false := by
  simp [sampleServer, sampleOpened]

theorem server_release_iff_sample :
    Releases true sampleOpened (epTcpserverAf 80 none afInet 5 (sampleServer true)) :=
  (server_release_iff 80 none afInet 5 ['p'] 0 _ ⟨none, true, .ok, true, true⟩ sampleOpened
    (sampleServer_fresh true) nofun).1.2 (by simp [sampleServer, FirstServes])

/-- The address is in use: the descriptor 3 stays open. The lookup fails: an address list is freed that was
not got. A Unix socket that cannot be bound stays open. -/
theorem server_not_released :
    ¬Releases true sampleOpened (epTcpserverAf 80 none afInet 5 (sampleServer false)) ∧
      ¬Releases false sampleOpened (epUdpserverAf 80 none afInet none) ∧
      ¬Releases true sampleOpened (epUnixserver ['p'] 0 5 ⟨some 3, true, .ok, false, true⟩) ∧
      (epTcpserverAf 80 none afInet 5 (sampleServer false)).ret = none ∧
      (epUdpserverAf 80 none afInet none).calls =
        [.getaddrinfo none (some ['8', '0']) ⟨aiPassive, afInet, sockDgram⟩ none, .freeaddrinfo none] := by
  refine ⟨?_, ?_, ?_, rfl, rfl⟩
  · rw [epTcpserverAf_releases_iff (sampleServer_fresh false)]
    simp [sampleServer, FirstServes, ServerTry.v6fails, afInet, afInet6]
  · have hnone : ∀ found ∈ (none : Lookup ServerTry), ∀ p ∈ found.2, ∀ s ∈ p.socket,
        sampleOpened s = false := by simp
    rw [epUdpserverAf_releases_iff hnone]
    simp
  · rw [epUnixserver_releases_iff (by simp [sampleOpened])]
    simp

end Libep

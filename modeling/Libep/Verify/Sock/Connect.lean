import Libep.Verify.Sock.Replay

/-!
# What the functions that connect return

`ep_generictcpconnect` and `ep_genericudpconnect` are one loop for two notions of an accepted connection.
Whatever the calls return, they close what they do not return and free the lists they get: `connect_no_leak`.
But a descriptor that could not be bound to the source leaves them, too, and `ep_genericunixconnect` returns
descriptors that it closed: `connect_usable_iff`.
-/

namespace Libep
open Sys

/-! ### The statements before `connect` -/

section
variable {w : SockWorld} {s : Nat} {st : SockState} {hints : AddrHints} {source : Option CStr}
  {nonblock : Bool} {p : ConnectTry} {bs : List BindTry}

theorem modify_put {ok : Bool} {f : SockState → SockState} (h : w.fds s = some st) :
    w.modify s ok f = if ok then w.put s (some (f st)) else w := by
  simp [SockWorld.modify, h]

theorem or_oNonblock (flags : Nat) : (flags ||| oNonblock) &&& oNonblock = oNonblock := by
  apply Nat.eq_of_testBit_eq
  intro i
  cases h : oNonblock.testBit i <;> simp [h]

theorem epNonblock_runs (h : w.fds s = some st) (hst : st.nonblock = false) (getfl : Option Nat)
    (setfl : Bool) :
    (epNonblock s getfl setfl).Runs w (getfl.isSome && setfl)
      (w.put s (some { st with nonblock := getfl.isSome && setfl })) := by
  have hself : w.put s (some { st with nonblock := false }) = w := by
    apply SockWorld.put_self
    rw [h, ← hst]
  cases getfl with
  | none =>
    refine Runs.bind (.sys rfl) ?_
    simp only [Option.isSome_none, Bool.false_and, hself]
    exact .pure
  | some flags =>
    refine Runs.bind (.sys rfl) (.sys ?_)
    rw [SysCall.replay, modify_put h, or_oNonblock]
    cases setfl with
    | true => rfl
    | false =>
      simp only [Bool.and_false, hself]
      rfl

/-- The address the descriptor is bound to: the first one that it can be bound to. -/
def boundTo (bs : List BindTry) : Option SockAddr := (bs.find? BindTry.bind).map BindTry.addr

theorem bindLoop_runs (h : w.fds s = some st) (hst : st.bound = none) :
    (bindLoop s bs).Runs w (boundTo bs).isSome (w.put s (some { st with bound := boundTo bs })) := by
  induction bs with
  | nil =>
    have hself : w.put s (some { st with bound := none }) = w := by
      apply SockWorld.put_self
      rw [h, ← hst]
    rw [boundTo, List.find?_nil, Option.map_none, hself]
    exact .pure
  | cons b bs ih =>
    cases hb : b.bind with
    | true =>
      rw [boundTo, List.find?_cons_of_pos hb, bindLoop, hb]
      refine Runs.bind (.sys ?_) .pure
      rw [SysCall.replay, modify_put h]
      rfl
    | false =>
      rw [boundTo, List.find?_cons_of_neg (by simp [hb]), bindLoop, hb]
      exact Runs.bind (.sys rfl) ih

/-- Where the statements `if (source) { .. }` lead. -/
def bindPc (source : Option CStr) (s : Nat) (p : ConnectTry) : ConnectPc :=
  match source, p.source with
  | none, _ => .connect s
  | some _, none => .err s
  | some _, some (_, bs) => if (boundTo bs).isSome then .connect s else .ret s

/-- The address the descriptor is bound to before `connect`. -/
def boundOf (source : Option CStr) (p : ConnectTry) : Option SockAddr :=
  source.bind fun _ => p.source.bind fun found => boundTo found.2

theorem connectBind_runs (h : w.fds s = some st) (hst : st.bound = none) :
    (connectBind hints source s p).Runs w (bindPc source s p)
      (w.put s (some { st with bound := boundOf source p })) := by
  have hself : w.put s (some { st with bound := none }) = w := by
    apply SockWorld.put_self
    rw [h, ← hst]
  cases source with
  | none =>
    show Runs _ _ _ (w.put s (some { st with bound := none }))
    rw [hself]
    exact .pure
  | some source =>
    cases hp : p.source with
    | none =>
      simp only [connectBind, bindPc, boundOf, hp, Option.bind_some, Option.bind_none, hself]
      exact Runs.bind (.sys rfl) .pure
    | some found =>
      obtain ⟨l, bs⟩ := found
      simp only [connectBind, bindPc, boundOf, hp, Option.bind_some]
      refine Runs.bind (.sys rfl) (Runs.bind (@bindLoop_runs { w with lists := l :: w.lists } _ _ _ h hst)
        (Runs.bind (.sys ?_) .pure))
      simp [SysCall.replay, SockWorld.put]

/-- The options of the descriptor can be set. -/
def ConnectTry.options (nonblock : Bool) (p : ConnectTry) : Bool :=
  p.reuseaddr && (!nonblock || (p.getfl.isSome && p.setfl))

/-- Where the statements for one address lead. -/
def preparePc (source : Option CStr) (nonblock : Bool) (p : ConnectTry) : ConnectPc :=
  match p.socket with
  | none => .next
  | some s => if p.options nonblock then bindPc source s p else .err s

/-- What is known of the descriptor before `connect`. -/
def prepared (source : Option CStr) (nonblock : Bool) (p : ConnectTry) : SockState :=
  { newSocket with nonblock, bound := boundOf source p }

theorem connectPrepare_next (hp : p.socket = none) :
    (connectPrepare hints source nonblock p).Runs w .next w := by
  rw [connectPrepare, hp]
  exact Runs.bind (.sys rfl) .pure

theorem connectPrepare_runs (hp : p.socket = some s) :
    ∃ st, (connectPrepare hints source nonblock p).Runs w (preparePc source nonblock p)
        (w.put s (some st)) ∧ st.mine ∧
      (p.options nonblock = true → st = prepared source nonblock p) := by
  have hnew : (w.put s (some newSocket)).fds s = some newSocket := SockWorld.put_fds
  rw [connectPrepare, preparePc, ConnectTry.options, hp]
  cases hr : p.reuseaddr with
  | false =>
    refine ⟨newSocket, ?_, rfl, nofun⟩
    exact Runs.bind (.sys rfl) (Runs.bind (.sys rfl) .pure)
  | true =>
    cases nonblock with
    | false =>
      refine ⟨{ newSocket with bound := boundOf source p }, ?_, rfl, fun _ => rfl⟩
      refine Runs.bind (.sys rfl) (Runs.bind (.sys rfl) ?_)
      have := @connectBind_runs _ _ _ hints source p hnew rfl
      rwa [SockWorld.put_put] at this
    | true =>
      have hnb := epNonblock_runs hnew rfl p.getfl p.setfl
      rw [SockWorld.put_put] at hnb
      cases hok : p.getfl.isSome && p.setfl with
      | false =>
        rw [hok] at hnb
        exact ⟨_, Runs.bind (.sys rfl) (Runs.bind (.sys rfl) (Runs.bind hnb .pure)), rfl, nofun⟩
      | true =>
        rw [hok] at hnb
        refine ⟨prepared source true p, ?_, rfl, fun _ => rfl⟩
        refine Runs.bind (.sys rfl) (Runs.bind (.sys rfl) (Runs.bind hnb ?_))
        have := @connectBind_runs (w.put s (some { newSocket with nonblock := true })) s
          { newSocket with nonblock := true } hints source p SockWorld.put_fds rfl
        rwa [SockWorld.put_put] at this

end

/-! ### The loop over the addresses of the host -/

/-- The loop of the functions that connect, for the results of `connect` that they accept. -/
def connectLoop (accept : SysRet → Bool) (hints : AddrHints) (source : Option CStr) (nonblock : Bool) :
    List ConnectTry → (s : Option Nat) → Sys (Option Nat)
  | [], s => connectErr s
  | p :: ps, _ => do
    match ← connectPrepare hints source nonblock p with
    | .next => connectLoop accept hints source nonblock ps none
    | .err s => connectErr (some s)
    | .ret s => return some s
    | .connect s =>
      if accept (← sys (.connect s p.info.addr p.connect) p.connect) then return some s
      else
        sysClose s
        connectLoop accept hints source nonblock ps none

/-- The results of `connect` that `ep_generictcpconnect` accepts. -/
def tcpAccepts (nonblock : Bool) : SysRet → Bool
  | .ok => true
  | .fail errno => decide (errno = einprogress) && nonblock

/-- The results of `connect` that `ep_genericudpconnect` accepts. -/
def udpAccepts : SysRet → Bool
  | .ok => true
  | .fail _ => false

section
variable {accept : SysRet → Bool} {hints : AddrHints} {source : Option CStr} {nonblock : Bool}
  {p : ConnectTry} {ps : List ConnectTry} {s : Option Nat} {w : SockWorld}

theorem tcpConnectLoop_eq : tcpConnectLoop hints source nonblock =
    connectLoop (tcpAccepts nonblock) hints source nonblock := by
  funext ps s
  induction ps generalizing s with
  | nil => rfl
  | cons p ps ih =>
    rw [tcpConnectLoop, connectLoop]
    congr 1
    funext pc
    cases pc with
    | next => exact ih none
    | err s | ret s => rfl
    | connect s =>
      dsimp only
      congr 1
      funext r
      cases r with
      | ok => rfl
      | fail errno => by_cases he : errno = einprogress <;> cases nonblock <;> simp [tcpAccepts, he, ih]

theorem udpConnectLoop_eq : udpConnectLoop hints source nonblock =
    connectLoop udpAccepts hints source nonblock := by
  funext ps s
  induction ps generalizing s with
  | nil => rfl
  | cons p ps ih =>
    rw [udpConnectLoop, connectLoop]
    congr 1
    funext pc
    cases pc with
    | next => exact ih none
    | err s | ret s => rfl
    | connect s =>
      dsimp only
      congr 1
      funext r
      cases r with
      | ok => rfl
      | fail errno => simp [udpAccepts, ih]

/-- The statements for the address come to the lookup of the source, if there is one, and it succeeds. -/
def ConnectTry.Reaches (source : Option CStr) (nonblock : Bool) (p : ConnectTry) : Prop :=
  p.socket.isSome ∧ p.options nonblock = true ∧ (source.isSome → p.source.isSome)

/-- At every address of the host that the loop comes to, the descriptor can be bound to one of the addresses
of the source, if there is one and they are looked up. -/
def BindsReached (accept : SysRet → Bool) (source : Option CStr) (nonblock : Bool) :
    List ConnectTry → Prop
  | [] => True
  | p :: ps => (p.Reaches source nonblock → source.isSome → (boundOf source p).isSome) ∧
    (p.socket = none ∨ p.Reaches source nonblock ∧ accept p.connect = false →
      BindsReached accept source nonblock ps)

/-- The descriptor is a connection: `connect` was called on it with a result that is accepted, when it was
bound to one of the addresses `addrs` if there is a source, and it is non-blocking if that is asked for. -/
def SockState.Usable (accept : SysRet → Bool) (source : Option CStr) (nonblock : Bool)
    (addrs : List SockAddr) (st : SockState) : Prop :=
  ∃ r bound, st.conn = some (r, bound) ∧ accept r = true ∧ (nonblock = true → st.nonblock = true) ∧
    (source.isSome → ∃ a ∈ addrs, bound = some a)

theorem preparePc_err {s : Nat} (hp : p.socket = some s) (h : ¬p.Reaches source nonblock) :
    preparePc source nonblock p = .err s := by
  rw [preparePc, hp]
  cases ho : p.options nonblock with
  | false => rfl
  | true =>
    cases source with
    | none => exact absurd ⟨by simp [hp], ho, nofun⟩ h
    | some source =>
      cases hsrc : p.source with
      | none => simp [bindPc, hsrc]
      | some found => exact absurd ⟨by simp [hp], ho, fun _ => by simp [hsrc]⟩ h

theorem preparePc_reaches {s : Nat} (hp : p.socket = some s) (h : p.Reaches source nonblock) :
    preparePc source nonblock p =
      if source.isSome = true → (boundOf source p).isSome = true then .connect s else .ret s := by
  obtain ⟨-, ho, hsrc⟩ := h
  rw [preparePc, hp]
  simp only [ho, if_true]
  cases source with
  | none => simp [bindPc]
  | some source =>
    obtain ⟨found, hfound⟩ := Option.isSome_iff_exists.1 (hsrc rfl)
    simp [bindPc, boundOf, hfound]

/-! What `BindsReached` says, by where the statements for the first address lead. -/

theorem bindsReached_next (hp : p.socket = none) :
    BindsReached accept source nonblock (p :: ps) ↔ BindsReached accept source nonblock ps := by
  have hnot : ¬p.Reaches source nonblock := by
    rintro ⟨h, -⟩
    simp [hp] at h
  exact ⟨fun h => h.2 (.inl hp), fun h => ⟨fun h' => absurd h' hnot, fun _ => h⟩⟩

theorem bindsReached_err (hp : p.socket ≠ none) (h : ¬p.Reaches source nonblock) :
    BindsReached accept source nonblock (p :: ps) :=
  ⟨fun h' => absurd h' h, fun h' => h'.elim (fun e => absurd e hp) fun e => absurd e.1 h⟩

theorem bindsReached_connected (hp : p.socket ≠ none)
    (hbound : source.isSome → (boundOf source p).isSome) (hacc : accept p.connect = true) :
    BindsReached accept source nonblock (p :: ps) := by
  refine ⟨fun _ => hbound, fun h => ?_⟩
  rcases h with h | h
  · exact absurd h hp
  · rw [hacc] at h
    cases h.2

theorem bindsReached_refused (h : p.Reaches source nonblock)
    (hbound : source.isSome → (boundOf source p).isSome) (hacc : accept p.connect = false) :
    BindsReached accept source nonblock (p :: ps) ↔ BindsReached accept source nonblock ps :=
  ⟨fun h' => h'.2 (.inr ⟨h, hacc⟩), fun h' => ⟨fun _ => hbound, fun _ => h'⟩⟩

/-- A call of `connect` on the prepared descriptor. -/
theorem connect_runs {s : Nat} : (sys (.connect s p.info.addr p.connect) p.connect).Runs
    (w.put s (some (prepared source nonblock p))) p.connect
    (w.put s (some { prepared source nonblock p with conn := some (p.connect, boundOf source p) })) := by
  apply Runs.sys
  rw [SysCall.replay, modify_put SockWorld.put_fds, SockWorld.put_put]
  rfl

/-- What the loop returns, and the world it leaves: all is closed, or the descriptor it returns is open. -/
def ConnectLeaves (accept : SysRet → Bool) (source : Option CStr) (nonblock : Bool) (addrs : List SockAddr)
    (ps : List ConnectTry) (w w' : SockWorld) (ret : Option Nat) : Prop :=
  ret = none ∧ w' = w ∧ BindsReached accept source nonblock ps ∨
    ∃ s st, ret = some s ∧ w.fds s = none ∧ w' = w.put s (some st) ∧ st.mine ∧
      (st.Usable accept source nonblock addrs ↔ BindsReached accept source nonblock ps)

/-- The rest of the loop. -/
theorem connectLoop_runs {addrs : List SockAddr}
    (hfree : ∀ p ∈ ps, ∀ s, p.socket = some s → w.fds s = none)
    (haddrs : ∀ p ∈ ps, ∀ a, boundOf source p = some a → a ∈ addrs) :
    ∃ ret w', (connectLoop accept hints source nonblock ps none).Runs w ret w' ∧
      ConnectLeaves accept source nonblock addrs ps w w' ret := by
  induction ps with
  | nil => exact ⟨none, w, .pure, .inl ⟨rfl, rfl, trivial⟩⟩
  | cons p ps ih =>
    have ih := ih (fun q hq => hfree q (List.mem_cons_of_mem _ hq))
      fun q hq => haddrs q (List.mem_cons_of_mem _ hq)
    obtain ⟨ret, w', hrest, hres⟩ := ih
    rw [connectLoop]
    cases hp : p.socket with
    | none =>
      refine ⟨ret, w', Runs.bind (connectPrepare_next hp) hrest, ?_⟩
      rw [ConnectLeaves, bindsReached_next hp]
      exact hres
    | some s =>
      have hs := hfree p List.mem_cons_self s hp
      have hne : p.socket ≠ none := by simp [hp]
      obtain ⟨st, hprep, hmine, hst⟩ := @connectPrepare_runs w s hints source nonblock p hp
      by_cases hreach : p.Reaches source nonblock
      · rw [preparePc_reaches hp hreach] at hprep
        obtain rfl := hst hreach.2.1
        split at hprep
        · rename_i hbound
          cases hacc : accept p.connect with
          | true =>
            refine ⟨some s, _, Runs.bind hprep (Runs.bind connect_runs ?_),
              .inr ⟨s, { prepared source nonblock p with conn := some (p.connect, boundOf source p) }, rfl,
                hs, rfl, rfl, iff_of_true ?_ (bindsReached_connected hne hbound hacc)⟩⟩
            · rw [hacc]
              exact .pure
            · refine ⟨p.connect, boundOf source p, rfl, hacc, id, fun h => ?_⟩
              obtain ⟨a, ha⟩ := Option.isSome_iff_exists.1 (hbound h)
              exact ⟨a, haddrs p List.mem_cons_self a ha, ha⟩
          | false =>
            refine ⟨ret, w', Runs.bind hprep (Runs.bind connect_runs ?_), ?_⟩
            · rw [hacc]
              exact Runs.bind (.close_put hs rfl) hrest
            · rw [ConnectLeaves, bindsReached_refused hreach hbound hacc]
              exact hres
        · -- the descriptor is returned without `connect`
          rename_i hbound
          refine ⟨some s, _, Runs.bind hprep .pure, .inr ⟨s, _, rfl, hs, rfl, hmine, ?_⟩⟩
          refine iff_of_false ?_ fun h => hbound (h.1 hreach)
          rintro ⟨r, b, hconn, -⟩
          cases hconn
      · rw [preparePc_err hp hreach] at hprep
        exact ⟨none, w, Runs.bind hprep (Runs.bind (.close_put hs hmine) .pure),
          .inl ⟨rfl, rfl, bindsReached_err hne hreach⟩⟩

end

/-! ### The functions -/

/-- The functions that connect, for the results of `connect` that they accept. -/
def genericConnect (accept : SysRet → Bool) (hints : AddrHints) (host : CStr) (port : Int)
    (source : Option CStr) (nonblock : Bool) (lookup : Lookup ConnectTry) : Sys (Option Nat) := do
  match ← sys (.getaddrinfo (some host) (some (portstr port)) hints (lookup.map Prod.fst)) lookup with
  | none => return none
  | some (servinfo, ps) =>
    let s ← connectLoop accept hints source nonblock ps none
    sys (.freeaddrinfo (some servinfo)) ()
    return s

/-- The kernel hands out descriptors that are not open. -/
def FreshSockets (opened : Nat → Bool) (lookup : Lookup ConnectTry) : Prop :=
  ∀ found ∈ lookup, ∀ p ∈ found.2, ∀ s ∈ p.socket, opened s = false

/-- All addresses that are found for the source. -/
def sourceAddrs (lookup : Lookup ConnectTry) : List SockAddr :=
  (lookup.toList.flatMap Prod.snd).flatMap fun p =>
    (p.source.toList.flatMap Prod.snd).map BindTry.addr

/-- No descriptor is left open but the one that is returned, none is closed that the function did not open,
and every address list it gets is freed once. -/
def LeakFree (opened : Nat → Bool) (x : Sys (Option Nat)) : Prop :=
  ∃ w, replay (.start opened) x.calls = some w ∧ w.lists = [] ∧
    match x.ret with
    | none => w.fds = (SockWorld.start opened).fds
    | some s => opened s = false ∧
      ∃ st, w.fds = Function.update (SockWorld.start opened).fds s (some st)

/-- A descriptor that is returned is open, and a connection. -/
def UsableResult (accept : SysRet → Bool) (source : Option CStr) (nonblock : Bool)
    (addrs : List SockAddr) (opened : Nat → Bool) (x : Sys (Option Nat)) : Prop :=
  ∀ s, x.ret = some s → ∃ w st, replay (.start opened) x.calls = some w ∧ w.fds s = some st ∧
    st.Usable accept source nonblock addrs

section
variable {accept : SysRet → Bool} {hints : AddrHints} {host : CStr} {port : Int}
  {source : Option CStr} {nonblock : Bool} {lookup : Lookup ConnectTry} {opened : Nat → Bool}

theorem epGenerictcpconnect_eq : epGenerictcpconnect host port source nonblock lookup =
    genericConnect (tcpAccepts nonblock) ⟨0, afUnspec, sockStream⟩ host port source nonblock lookup := by
  rw [genericConnect, ← tcpConnectLoop_eq]
  rfl

theorem epGenericudpconnect_eq : epGenericudpconnect host port source nonblock lookup =
    genericConnect udpAccepts ⟨0, afUnspec, sockDgram⟩ host port source nonblock lookup := by
  rw [genericConnect, ← udpConnectLoop_eq]
  rfl

theorem boundTo_mem {bs : List BindTry} {a : SockAddr} (h : boundTo bs = some a) :
    a ∈ bs.map BindTry.addr := by
  obtain ⟨b, hb, rfl⟩ := Option.map_eq_some_iff.1 h
  exact List.mem_map_of_mem (List.mem_of_find?_eq_some hb)

theorem boundOf_mem {found : Nat × List ConnectTry} (hfound : lookup = some found) {p : ConnectTry}
    (hp : p ∈ found.2) {a : SockAddr} (h : boundOf source p = some a) : a ∈ sourceAddrs lookup := by
  obtain ⟨-, -, h⟩ := Option.bind_eq_some_iff.1 h
  obtain ⟨found', hfound', h⟩ := Option.bind_eq_some_iff.1 h
  simp only [sourceAddrs, hfound, Option.toList_some, List.flatMap_singleton, List.mem_flatMap]
  refine ⟨p, hp, ?_⟩
  rw [hfound', Option.toList_some, List.flatMap_singleton]
  exact boundTo_mem h

/-- What a function that connects returns, and where it leaves the descriptors and the lists. -/
theorem genericConnect_runs (hfree : FreshSockets opened lookup) :
    ∃ ret w, (genericConnect accept hints host port source nonblock lookup).Runs (.start opened) ret w ∧
      w.lists = [] ∧
      (ret = none ∧ w.fds = (SockWorld.start opened).fds ∧
          (∀ found ∈ lookup, BindsReached accept source nonblock found.2) ∨
        ∃ s st, ret = some s ∧ opened s = false ∧
          w.fds = Function.update (SockWorld.start opened).fds s (some st) ∧
          (st.Usable accept source nonblock (sourceAddrs lookup) ↔
            ∀ found ∈ lookup, BindsReached accept source nonblock found.2)) := by
  cases lookup with
  | none =>
    refine ⟨none, _, Runs.bind (.sys rfl) .pure, rfl, .inl ⟨rfl, rfl, nofun⟩⟩
  | some found =>
    obtain ⟨servinfo, ps⟩ := found
    have hps : (∀ found ∈ some (servinfo, ps), BindsReached accept source nonblock found.2) ↔
        BindsReached accept source nonblock ps := by simp
    have hstart : ∀ s, opened s = false → (SockWorld.start opened).fds s = none :=
      fun _ => SockWorld.start_fds_none
    obtain ⟨ret, w, hrun, hres⟩ := @connectLoop_runs accept hints source nonblock ps
      { SockWorld.start opened with lists := [servinfo] } (sourceAddrs (some (servinfo, ps)))
      (fun p hp s hs => hstart s (hfree _ rfl p hp s hs)) (fun p hp a ha => boundOf_mem rfl hp ha)
    have hfinish : w.lists = [servinfo] → (genericConnect accept hints host port source nonblock
        (some (servinfo, ps))).Runs (.start opened) ret { w with lists := [] } := by
      intro hw
      refine Runs.bind (.sys rfl) (Runs.bind hrun (Runs.bind (.sys ?_) .pure))
      simp [SysCall.replay, hw]
    rw [hps]
    rcases hres with ⟨rfl, rfl, hall⟩ | ⟨s, st, rfl, hs, rfl, hmine, hiff⟩
    · exact ⟨none, _, hfinish rfl, rfl, .inl ⟨rfl, rfl, hall⟩⟩
    · exact ⟨some s, _, hfinish rfl, rfl, .inr ⟨s, st, rfl, SockWorld.opened_of_start hs, rfl, hiff⟩⟩

theorem genericConnect_leakFree (hfree : FreshSockets opened lookup) :
    LeakFree opened (genericConnect accept hints host port source nonblock lookup) := by
  obtain ⟨ret, w, hrun, hlists, hres⟩ := @genericConnect_runs accept hints host port source nonblock _ _ hfree
  refine ⟨w, hrun.2, hlists, ?_⟩
  rw [hrun.1]
  rcases hres with ⟨rfl, hfds, -⟩ | ⟨s, st, rfl, hs, hfds, -⟩
  · exact hfds
  · exact ⟨hs, st, hfds⟩

theorem genericConnect_usable_iff (hfree : FreshSockets opened lookup) :
    UsableResult accept source nonblock (sourceAddrs lookup) opened
        (genericConnect accept hints host port source nonblock lookup) ↔
      ∀ found ∈ lookup, BindsReached accept source nonblock found.2 := by
  obtain ⟨ret, w, hrun, -, hres⟩ := @genericConnect_runs accept hints host port source nonblock _ _ hfree
  rcases hres with ⟨rfl, -, hall⟩ | ⟨s, st, rfl, hs, hfds, hiff⟩
  · refine iff_of_true (fun s h => ?_) hall
    rw [hrun.1] at h
    cases h
  · rw [← hiff]
    have hst : w.fds s = some st := by rw [hfds, Function.update_self]
    constructor
    · intro h
      obtain ⟨w', st', hw', hst', hus⟩ := h s hrun.1
      obtain rfl : w' = w := Option.some.inj (hw'.symm.trans hrun.2)
      obtain rfl : st' = st := Option.some.inj (hst'.symm.trans hst)
      exact hus
    · intro hus s' hs'
      obtain rfl : s' = s := Option.some.inj (hs'.symm.trans hrun.1)
      exact ⟨w, st, hrun.2, hst, hus⟩

end

/-- **The functions that connect leak nothing.** Whatever the lookups and the calls return, for any
descriptors that are open before, with and without a source and `nonblock`. -/
theorem connect_no_leak (host : CStr) (port : Int) (source : Option CStr) (nonblock : Bool)
    (lookup : Lookup ConnectTry) (opened : Nat → Bool) (hfree : FreshSockets opened lookup) :
    LeakFree opened (epGenerictcpconnect host port source nonblock lookup) ∧
      LeakFree opened (epGenericudpconnect host port source nonblock lookup) := by
  rw [epGenerictcpconnect_eq, epGenericudpconnect_eq]
  exact ⟨genericConnect_leakFree hfree, genericConnect_leakFree hfree⟩

/-- One address of the host, at which all goes well but for the binds to the one address of the source, of
which `bind` says how it ends. -/
def sampleLookup (bind : Bool) : Lookup ConnectTry :=
  some (1, [⟨⟨afInet, sockStream, 6, .inet 1⟩, some 3, true, some 2, true, some (2, [⟨.inet 2, bind⟩]), .ok⟩])

/-- The three standard descriptors. -/
def sampleOpened (s : Nat) : Bool := s < 3

theorem sampleLookup_fresh (bind : Bool) : FreshSockets sampleOpened (sampleLookup bind) := by
  simp [FreshSockets, sampleLookup, sampleOpened]

theorem connect_no_leak_sample :
    LeakFree sampleOpened (epGenerictcpconnect ['h'] 80 (some ['s']) true (sampleLookup false)) ∧
      LeakFree sampleOpened (epGenericudpconnect ['h'] 80 (some ['s']) true (sampleLookup false)) :=
  connect_no_leak ['h'] 80 (some ['s']) true _ sampleOpened (sampleLookup_fresh false)

/-! ### Unix sockets -/

section
variable {w : SockWorld} {s : Nat} {t : UnixTry} {path : CStr} {nonblock : Bool} {last : Option Char}
  {opened : Nat → Bool}

theorem epCreatesocket_none (h : t.socket = none) :
    (epCreatesocket afLocal t.socket t.reuseaddr).Runs w none w := by
  rw [h]
  exact Runs.bind (.sys rfl) .pure

theorem epCreatesocket_some (h : t.socket = some s) (hs : w.fds s = none) :
    (epCreatesocket afLocal t.socket t.reuseaddr).Runs w (if t.reuseaddr then some s else none)
      (if t.reuseaddr then w.put s (some newSocket) else w) := by
  rw [h]
  cases hr : t.reuseaddr with
  | true => exact Runs.bind (.sys rfl) (Runs.bind (.sys rfl) .pure)
  | false =>
    exact Runs.bind (.sys rfl) (Runs.bind (.sys rfl) (Runs.bind (.close_put hs rfl) .pure))

/-- What `ep_genericunixconnect` returns when it has a socket: the descriptor, which it closed unless
`connect` succeeded. -/
theorem epGenericunixconnect_runs (h : t.socket = some s) (hr : t.reuseaddr = true)
    (hs : w.fds s = none) :
    (epGenericunixconnect path nonblock last t).Runs w (some s)
      (if nonblock = false ∧ t.connect = .ok then
        w.put s (some { newSocket with conn := some (.ok, none) }) else w) := by
  have hcreate := epCreatesocket_some h hs
  rw [hr] at hcreate
  have hconn : (sys (.connect s (.unix (sunPath path last)) t.connect) t.connect).Runs
      (w.put s (some newSocket)) t.connect
      (w.put s (some { newSocket with conn := some (t.connect, none) })) := by
    apply Runs.sys
    rw [SysCall.replay, modify_put SockWorld.put_fds, SockWorld.put_put]
    rfl
  rw [epGenericunixconnect, hr]
  cases nonblock with
  | true => exact Runs.bind hcreate (Runs.bind (.close_put hs rfl) .pure)
  | false =>
    cases hc : t.connect with
    | ok =>
      rw [hc] at hconn
      exact Runs.bind hcreate (Runs.bind hconn .pure)
    | fail errno =>
      rw [hc] at hconn
      exact Runs.bind hcreate (Runs.bind hconn (Runs.bind (.close_put hs rfl) .pure))

/-- When there is no socket, it returns -1. -/
theorem epGenericunixconnect_none (h : t.socket = none ∨ t.reuseaddr = false) :
    (epGenericunixconnect path nonblock last t).ret = none := by
  cases hs : t.socket with
  | none => simp [epGenericunixconnect, epCreatesocket, sys, hs]
  | some s =>
    have hr : t.reuseaddr = false := by simpa [hs] using h
    simp [epGenericunixconnect, epCreatesocket, epReuseaddrEnable, sys, hs, hr]

theorem epGenericunixconnect_usable_iff (hfree : ∀ s ∈ t.socket, opened s = false) :
    UsableResult (tcpAccepts nonblock) none nonblock [] opened (epGenericunixconnect path nonblock last t) ↔
      t.socket = none ∨ t.reuseaddr = false ∨ nonblock = false ∧ t.connect = .ok := by
  by_cases hnone : t.socket = none ∨ t.reuseaddr = false
  · refine iff_of_true (fun s h => ?_) (hnone.imp_right .inl)
    rw [epGenericunixconnect_none hnone] at h
    cases h
  · rw [not_or, Bool.not_eq_false] at hnone
    obtain ⟨s, hs⟩ := Option.ne_none_iff_exists'.1 hnone.1
    have hfds := SockWorld.start_fds_none (hfree s hs)
    have hrun := @epGenericunixconnect_runs _ _ _ path nonblock last hs hnone.2 hfds
    rw [or_iff_right hnone.1, hnone.2, or_iff_right (by simp)]
    by_cases hok : nonblock = false ∧ t.connect = .ok
    · rw [if_pos hok] at hrun
      refine iff_of_true (fun s' h => ?_) hok
      obtain rfl : s' = s := Option.some.inj (h.symm.trans hrun.1)
      refine ⟨_, _, hrun.2, SockWorld.put_fds, .ok, none, rfl, rfl, fun h => ?_, nofun⟩
      rw [hok.1] at h
      cases h
    · rw [if_neg hok] at hrun
      refine iff_of_false (fun h => ?_) hok
      obtain ⟨w, st, hw, hst, -⟩ := h s hrun.1
      obtain rfl : w = .start opened := Option.some.inj (hw.symm.trans hrun.2)
      rw [hfds] at hst
      cases hst

end

/-- **When a descriptor that is returned is a connection.** For `ep_generictcpconnect` and
`ep_genericudpconnect`, exactly when at every address of the host that they come to, the descriptor can be
bound to an address of the source; for `ep_genericunixconnect`, exactly when it gets no socket, or `nonblock` is
not set and `connect` succeeds. -/
theorem connect_usable_iff (host path : CStr) (port : Int) (source : Option CStr) (nonblock : Bool)
    (lookup : Lookup ConnectTry) (last : Option Char) (t : UnixTry) (opened : Nat → Bool)
    (hfree : FreshSockets opened lookup) (ht : ∀ s ∈ t.socket, opened s = false) :
    (UsableResult (tcpAccepts nonblock) source nonblock (sourceAddrs lookup) opened
        (epGenerictcpconnect host port source nonblock lookup) ↔
      ∀ found ∈ lookup, BindsReached (tcpAccepts nonblock) source nonblock found.2) ∧
    (UsableResult udpAccepts source nonblock (sourceAddrs lookup) opened
        (epGenericudpconnect host port source nonblock lookup) ↔
      ∀ found ∈ lookup, BindsReached udpAccepts source nonblock found.2) ∧
    (UsableResult (tcpAccepts nonblock) none nonblock [] opened (epGenericunixconnect path nonblock last t) ↔
      t.socket = none ∨ t.reuseaddr = false ∨ nonblock = false ∧ t.connect = .ok) := by
  rw [epGenerictcpconnect_eq, epGenericudpconnect_eq]
  exact ⟨genericConnect_usable_iff hfree, genericConnect_usable_iff hfree,
    epGenericunixconnect_usable_iff ht⟩

theorem connect_usable_iff_sample :
    UsableResult (tcpAccepts true) (some ['s']) true (sourceAddrs (sampleLookup true)) sampleOpened
      (epGenerictcpconnect ['h'] 80 (some ['s']) true (sampleLookup true)) :=
  (connect_usable_iff ['h'] ['p'] 80 (some ['s']) true _ none ⟨none, true, .ok, true, true⟩ sampleOpened
    (sampleLookup_fresh true) nofun).1.2 (by simp [sampleLookup, BindsReached, boundOf, boundTo])

/-- The descriptor 3 cannot be bound to the source: it is returned, and `connect` was not called. With
`nonblock` set, `ep_genericunixconnect` returns the descriptor 3 and closes it. -/
theorem connect_not_usable :
    FreshSockets sampleOpened (sampleLookup false) ∧
      ¬UsableResult (tcpAccepts false) (some ['s']) false (sourceAddrs (sampleLookup false)) sampleOpened
        (epGenerictcpconnect ['h'] 80 (some ['s']) false (sampleLookup false)) ∧
      ¬UsableResult (tcpAccepts true) none true [] sampleOpened
        (epGenericunixconnect ['p'] true none ⟨some 3, true, .ok, true, true⟩) ∧
      (epGenerictcpconnect ['h'] 80 (some ['s']) false (sampleLookup false)).ret = some 3 ∧
      (epGenericunixconnect ['p'] true none ⟨some 3, true, .ok, true, true⟩).ret = some 3 := by
  refine ⟨sampleLookup_fresh false, ?_, ?_, rfl, rfl⟩
  · rw [epGenerictcpconnect_eq, genericConnect_usable_iff (sampleLookup_fresh false)]
    simp [sampleLookup, BindsReached, boundOf, boundTo, ConnectTry.Reaches, ConnectTry.options]
  · rw [epGenericunixconnect_usable_iff (by simp [sampleOpened])]
    simp

end Libep

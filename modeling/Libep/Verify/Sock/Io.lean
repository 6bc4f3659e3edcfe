import Libep.SockIo

/-!
# What `ep_read` and `ep_write` transfer

The loops are the same but for what follows a failure: `ep_write` leaves, and `ep_read` adds the -1 to its
total and to its cursor and goes on. `ep_write_sends` is the law of the one, `ep_read_iff` says when it is
that of the other.
-/

namespace Libep

/-! ### The law of a transfer -/

/-- The calls of a transfer of `count` bytes, from `total` on: each asks for all that is missing, where the
last one ended; nothing follows a call that failed or moved nothing, and otherwise the calls end with the
last byte. -/
def Transfer (count : Int) : (total : Int) → List IoCall → Prop
  | total, [] => total = count
  | total, c :: cs => total ≠ count ∧ c.buf = total ∧ c.count = count - total ∧
    if 0 < c.ret then Transfer count (total + c.ret) cs else cs = []

/-- The call moves bytes inside `buf[0..count)` only. -/
def IoCall.Inside (count : Int) (c : IoCall) : Prop := 0 ≤ c.buf ∧ 0 ≤ c.count ∧ c.buf + c.count ≤ count

/-- The calls, from the `k`-th on, are for `fd`; each returns what the kernel answers to it, and moves the bytes
`data`. -/
def Answered (fd : Int) (o : Nat → Option Nat) (data : Nat → IoCall → List UInt8) (k : Nat)
    (calls : List IoCall) : Prop :=
  ∀ j c, calls[j]? = some c → c.fd = fd ∧ c.ret = ioRet (o (k + j)) ∧ c.data = data (k + j) c

/-- The bytes the calls move. -/
def moved (calls : List IoCall) : List UInt8 := calls.flatMap IoCall.data

/-- A transfer of `t` bytes returns -1 exactly when a call failed, and `t` otherwise. -/
def Returns (ret : Int) (t : Nat) (calls : List IoCall) : Prop :=
  (ret = -1 ↔ ∃ c ∈ calls, c.ret = -1) ∧ (ret ≠ -1 → ret = t)

/-! ### Outcomes -/

/-- The bytes moved by the first `k` calls. -/
def done (o : Nat → Option Nat) (k : Nat) : Nat := ((List.range k).map fun j => (o j).getD 0).sum

/-- A transfer of `count` bytes comes to its `k`-th call: the calls before moved something, and not
everything. -/
def Going (o : Nat → Option Nat) (count k : Nat) : Prop :=
  (∀ j < k, (o j).getD 0 ≠ 0) ∧ ∀ j ≤ k, done o j ≠ count

/-- No call moves more than it is asked for. -/
def LegalIo (o : Nat → Option Nat) (count : Nat) : Prop :=
  ∀ k, Going o count k → done o k + (o k).getD 0 ≤ count

section
variable {o : Nat → Option Nat} {count k fuel n : Nat}

theorem done_succ : done o (k + 1) = done o k + (o k).getD 0 := by
  simp [done, List.range_succ]

/-- The loop stands before its `k`-th call, or at its end. -/
def Came (o : Nat → Option Nat) (count k : Nat) : Prop :=
  (∀ j < k, (o j).getD 0 ≠ 0) ∧ (∀ j < k, done o j ≠ count) ∧ done o k ≤ count

theorem Came.zero : Came o count 0 := ⟨nofun, nofun, Nat.zero_le _⟩

theorem Came.going (H : Came o count k) (h : done o k ≠ count) : Going o count k :=
  ⟨H.1, fun j hj => (Nat.lt_or_eq_of_le hj).elim (H.2.1 j) fun e => e ▸ h⟩

/-- Only the calls up to the first that moves nothing matter. -/
theorem LegalIo.of_le (hn : (o n).getD 0 = 0) (h : ∀ k ≤ n, done o k + (o k).getD 0 ≤ count) :
    LegalIo o count :=
  fun k hk => h k (Nat.le_of_not_lt fun hlt => hk.1 n hlt hn)

theorem Came.succ (H : Came o count k) (ho : LegalIo o count) (h : done o k ≠ count)
    (hn : (o k).getD 0 ≠ 0) : Came o count (k + 1) := by
  refine ⟨fun j hj => ?_, fun j hj => (H.going h).2 j (by omega), ?_⟩
  · rcases Nat.lt_or_eq_of_le (Nat.le_of_lt_succ hj) with hj | rfl
    · exact H.1 j hj
    · exact hn
  · rw [done_succ]
    exact ho k (H.going h)

end

/-! ### One call -/

section
variable {o : Nat → Option Nat} {fd : Int} {count k fuel t : Nat} {mem : List UInt8} {c : IoCall}
  {cs : List IoCall} {ret : Int}

theorem sysWrite_eq {n : Option Nat} (h : t + n.getD 0 ≤ mem.length) :
    sysWrite mem t n = .ok ((mem.drop t).take (n.getD 0)) := by
  unfold sysWrite
  by_cases hn : n.getD 0 = 0
  · simp [hn]
  · simp only [hn, if_false]
    rw [if_pos ⟨Int.natCast_nonneg t, by exact_mod_cast h⟩]
    rfl

theorem sysRead_eq {bs : Option (List UInt8)} (h : t + (bs.getD []).length ≤ mem.length) :
    sysRead mem t bs = .ok (mem.take t ++ bs.getD [] ++ mem.drop (t + (bs.getD []).length)) := by
  unfold sysRead
  by_cases hn : bs.getD [] = []
  · simp [hn]
  · simp only [hn, if_false]
    rw [if_pos ⟨Int.natCast_nonneg t, by exact_mod_cast h⟩]
    rfl

theorem moved_cons : moved (c :: cs) = c.data ++ moved cs := rfl

/-- A call that moves something, before a transfer that is right. -/
theorem Transfer.cons (H : Transfer count (t + c.ret) cs) (hret : 0 < c.ret) (ht : t ≠ count)
    (hbuf : c.buf = t) (hcount : c.count = count - t) : Transfer count t (c :: cs) := by
  refine ⟨by exact_mod_cast ht, hbuf, hcount, ?_⟩
  rw [if_pos hret]
  exact H

theorem Transfer.single (hret : c.ret ≤ 0) (ht : t ≠ count) (hbuf : c.buf = t)
    (hcount : c.count = count - t) : Transfer count t [c] := by
  refine ⟨by exact_mod_cast ht, hbuf, hcount, ?_⟩
  rw [if_neg (Int.not_lt.2 hret)]

theorem Answered.nil {data : Nat → IoCall → List UInt8} : Answered fd o data k [] := by
  simp [Answered]

theorem Answered.cons {data : Nat → IoCall → List UInt8} (H : Answered fd o data (k + 1) cs) (hfd : c.fd = fd)
    (hret : c.ret = ioRet (o k)) (hdata : c.data = data k c) : Answered fd o data k (c :: cs) := by
  intro j d hd
  cases j with
  | zero =>
    cases hd
    exact ⟨hfd, hret, hdata⟩
  | succ j =>
    rw [Nat.add_comm j, ← Nat.add_assoc]
    exact H j d hd

theorem IoCall.Inside.of_rest (ht : t ≤ count) (hbuf : c.buf = t) (hcount : c.count = count - t) :
    c.Inside count := by
  rw [IoCall.Inside, hbuf, hcount]
  omega

/-! ### `ep_write` -/

/-- The bytes that the kernel accepts of a call: the first ones at its place in the buffer. -/
def accepted (o : Nat → Option Nat) (mem : List UInt8) (k : Nat) (c : IoCall) : List UInt8 :=
  (mem.drop c.buf.toNat).take ((o k).getD 0)

/-- What `ep_write` should do, from its `k`-th call on, when `t` bytes are sent. -/
structure SendsRest (fd : Int) (o : Nat → Option Nat) (count k t : Nat) (mem : List UInt8) (ret : Int)
    (calls : List IoCall) : Prop where
  answered : Answered fd o (accepted o mem) k calls
  transfer : Transfer count t calls
  inside : ∀ c ∈ calls, c.Inside count
  data : moved calls = (mem.drop t).take (moved calls).length
  le : t + (moved calls).length ≤ count
  ret : if ∃ c ∈ calls, c.ret = -1 then ret = -1 ∧ t + (moved calls).length ≠ count
    else ret = t + (moved calls).length

namespace SendsRest

theorem nil : SendsRest fd o count k count mem count [] :=
  ⟨.nil, rfl, nofun, by simp [moved], by simp [moved], by simp [moved]⟩

/-- A call that moves nothing is the last one. -/
theorem single (ht : t < count) (hc : c = ⟨fd, t, count - t, ioRet (o k), []⟩) (hmoves : (o k).getD 0 = 0)
    (hret : c.ret = 0 ∧ ret = t ∨ c.ret = -1 ∧ ret = -1) : SendsRest fd o count k t mem ret [c] := by
  have hdata : c.data = [] := by rw [hc]
  have hmoved : moved [c] = [] := by rw [moved_cons, hdata]; rfl
  have hnone : accepted o mem k c = [] := by rw [accepted, hmoves, List.take_zero]
  refine ⟨.cons .nil (by rw [hc]) (by rw [hc]) (hdata.trans hnone.symm), .single (by omega) (Nat.ne_of_lt ht)
    (by rw [hc]) (by rw [hc]), fun d hd => ?_, ?_, ?_, ?_⟩
  · rw [List.mem_singleton.1 hd]
    exact .of_rest (Nat.le_of_lt ht) (by rw [hc]) (by rw [hc])
  · rw [hmoved]
    rfl
  · rw [hmoved]
    exact Nat.le_of_lt ht
  · rw [hmoved]
    rcases hret with ⟨h0, rfl⟩ | ⟨h1, rfl⟩
    · simp [h0]
    · simpa [h1] using Nat.ne_of_lt ht

theorem cons {n : Nat} (H : SendsRest fd o count (k + 1) (t + n) mem ret cs) (hok : o k = some n) (hn : 0 < n)
    (hmem : count ≤ mem.length) : SendsRest fd o count k t mem ret (⟨fd, t, count - t, n, (mem.drop t).take n⟩ :: cs) := by
  have hle := H.le
  have hlen : ((mem.drop t).take n).length = n := by
    rw [List.length_take, List.length_drop]
    omega
  have hcast : ((t + n : Nat) : Int) = (t : Int) + n := Int.natCast_add t n
  have hret : (n : Int) = ioRet (o k) := by rw [hok]; rfl
  have hdata : (mem.drop t).take n = accepted o mem k ⟨fd, t, count - t, n, (mem.drop t).take n⟩ := by
    rw [accepted, hok]
    rfl
  refine ⟨H.answered.cons rfl hret hdata, .cons ?_ (Int.natCast_pos.2 hn) (by omega) rfl rfl, fun c hc => ?_,
    ?_, ?_, ?_⟩
  · rw [← hcast]
    exact H.transfer
  · rcases List.mem_cons.1 hc with rfl | hc
    · exact .of_rest (by omega) rfl rfl
    · exact H.inside c hc
  · rw [moved_cons, List.length_append, hlen, List.take_add, List.drop_drop, ← H.data]
  · rw [moved_cons, List.length_append, hlen]
    omega
  · have h1 : (n : Int) ≠ -1 := by omega
    have hret := H.ret
    rw [hcast] at hret
    rw [moved_cons, List.length_append, hlen]
    simp only [List.mem_cons, exists_eq_or_imp, h1, false_or]
    rw [Int.natCast_add, ← Int.add_assoc, ← Nat.add_assoc]
    exact hret

end SendsRest

/-- A call of `ep_write` that moves something; the loop goes on. -/
theorem writeLoop_more {n : Nat} (hend : t ≠ count) (hok : o k = some n) (hn : 0 < n)
    (hle : t + n ≤ mem.length) :
    writeLoop fd count o mem (fuel + 1) k t t =
      writeLoop fd count o mem fuel (k + 1) (t + n : Nat) (t + n : Nat) >>= fun r =>
        .ok (r.1, ⟨fd, t, count - t, n, (mem.drop t).take n⟩ :: r.2) := by
  have h0 : (n : Int) ≠ 0 := by omega
  have h1 : (n : Int) ≠ -1 := by omega
  rw [writeLoop, if_neg (by exact_mod_cast hend), sysWrite_eq (by rw [hok]; exact hle), Res.ok_bind]
  simp only [hok, ioRet, h0, h1, if_false, Option.getD_some, Int.natCast_add]
  rfl

/-- The rest of `ep_write`, from its `k`-th call on. -/
theorem writeLoop_spec (ho : LegalIo o count) (hmem : count ≤ mem.length) (H : Came o count k)
    (ht : done o k = t) (hf : count < t + fuel) :
    ∃ ret calls, writeLoop fd count o mem fuel k t t = .ok (ret, calls) ∧
      SendsRest fd o count k t mem ret calls := by
  have htc : t ≤ count := ht ▸ H.2.2
  induction fuel generalizing k t with
  | zero => exact absurd hf (by omega)
  | succ fuel ih =>
    rcases eq_or_ne t count with rfl | hend
    · exact ⟨t, [], by simp [writeLoop], .nil⟩
    · have hlt : t < count := Nat.lt_of_le_of_ne htc hend
      have hle : t + (o k).getD 0 ≤ count := ht ▸ ho k (H.going (ht ▸ hend))
      have hne : (t : Int) ≠ count := by exact_mod_cast hend
      cases hok : o k with
      | none =>
        refine ⟨-1, [⟨fd, t, count - t, -1, []⟩], ?_, .single hlt (by rw [hok]; rfl) (by rw [hok]; rfl)
          (.inr ⟨rfl, rfl⟩)⟩
        simp [writeLoop, hne, hok, sysWrite, ioRet]
      | some n =>
        rw [hok] at hle
        rcases Nat.eq_zero_or_pos n with rfl | hn
        · refine ⟨t, [⟨fd, t, count - t, 0, []⟩], ?_, .single hlt (by rw [hok]; rfl) (by rw [hok]; rfl)
            (.inl ⟨rfl, rfl⟩)⟩
          simp [writeLoop, hne, hok, sysWrite, ioRet]
        · have hmoves : (o k).getD 0 ≠ 0 := by
            rw [hok]
            exact Nat.ne_of_gt hn
          obtain ⟨ret, calls, hrun, hrest⟩ := @ih (k + 1) (t + n) (H.succ ho (ht ▸ hend) hmoves)
            (by rw [done_succ, ht, hok]; rfl) (by omega) hle
          refine ⟨ret, ⟨fd, t, count - t, n, (mem.drop t).take n⟩ :: calls, ?_, hrest.cons hok hn hmem⟩
          rw [writeLoop_more hend hok hn (Nat.le_trans hle hmem), hrun]
          rfl

/-- `ep_write` sends what it should: it returns, its calls are a transfer of `buf[0..count)` that sends the
bytes `buf[0..t)`, and it returns -1 when a call failed, and `t` otherwise. The `k`-th call has the `k`-th outcome
`o k`, and moves as many bytes from its place in the buffer. -/
def Sends (fd : Int) (o : Nat → Option Nat) (count : Nat) (mem : List UInt8) : Prop :=
  ∃ n, ∀ fuel, n ≤ fuel → ∃ ret calls, epWrite fd count o fuel mem = .ok (ret, calls) ∧
    Answered fd o (accepted o mem) 0 calls ∧ Transfer count 0 calls ∧ (∀ c ∈ calls, c.Inside count) ∧
    ∃ t, moved calls = mem.take t ∧ t ≤ count ∧ Returns ret t calls ∧ (ret = count ↔ t = count)

/-- **`ep_write` sends a prefix of the buffer.** -/
theorem ep_write_sends (hmem : count ≤ mem.length) (ho : LegalIo o count) : Sends fd o count mem := by
  refine ⟨count + 1, fun fuel hf => ?_⟩
  obtain ⟨ret, calls, hrun, hrest⟩ :=
    @writeLoop_spec o fd count 0 fuel 0 mem ho hmem .zero rfl (by omega)
  have hall := hrest.le
  have hret := hrest.ret
  refine ⟨ret, calls, hrun, hrest.answered, hrest.transfer, hrest.inside, (moved calls).length, hrest.data,
    by omega, ?_⟩
  rw [Nat.zero_add] at hret
  split at hret
  · rename_i hfail
    exact ⟨⟨iff_of_true hret.1 hfail, fun h => absurd hret.1 h⟩, by omega⟩
  · rename_i hfail
    have hret : ret = (moved calls).length := by simpa using hret
    exact ⟨⟨iff_of_false (by omega) hfail, fun _ => hret⟩, by omega⟩

/-- Two bytes are sent, and the next call fails. -/
theorem ep_write_sends_sample :
    Sends 0 (fun k => if k = 0 then some 2 else none) 3 [7, 8, 9] :=
  ep_write_sends (by decide) (LegalIo.of_le (n := 1) rfl (by decide))

/-! ### `ep_read` -/

/-- The sizes of what is read. -/
def sizes (o : Nat → Option (List UInt8)) (k : Nat) : Option Nat := (o k).map List.length

section
variable {r : Nat → Option (List UInt8)}

/-- The bytes that the kernel stores in a call. -/
def received (r : Nat → Option (List UInt8)) (k : Nat) (_ : IoCall) : List UInt8 := (r k).getD []

/-- What `ep_read` should do, from its `k`-th call on, when `t` bytes have arrived and no call fails: its calls, and
the memory. -/
structure ReadsRest (fd : Int) (r : Nat → Option (List UInt8)) (count k t : Nat) (mem mem' : List UInt8) (ret : Int)
    (calls : List IoCall) : Prop where
  answered : Answered fd (sizes r) (received r) k calls
  transfer : Transfer count t calls
  inside : ∀ c ∈ calls, c.Inside count
  ok : ∀ c ∈ calls, c.ret ≠ -1
  ret : ret = (t + (moved calls).length : Nat)
  mem : mem' = mem.take t ++ moved calls ++ mem.drop (t + (moved calls).length)

namespace ReadsRest
variable {mem' : List UInt8}

theorem nil : ReadsRest fd r count k count mem mem count [] :=
  ⟨.nil, rfl, nofun, nofun, by simp [moved], by simp [moved]⟩

/-- A call at the end of the stream is the last one. -/
theorem single (ht : t < count) (hend : r k = some []) :
    ReadsRest fd r count k t mem mem t [⟨fd, t, count - t, 0, []⟩] := by
  have hret : 0 = ioRet (sizes r k) := by rw [sizes, hend]; rfl
  have hdata : [] = received r k ⟨fd, t, count - t, 0, []⟩ := by rw [received, hend]; rfl
  refine ⟨.cons .nil rfl hret hdata, .single (by simp) (Nat.ne_of_lt ht) rfl rfl, fun c hc => ?_, fun c hc => ?_, by simp [moved],
    by simp [moved]⟩
  · rw [List.mem_singleton.1 hc]
    exact .of_rest (Nat.le_of_lt ht) rfl rfl
  · rw [List.mem_singleton.1 hc]
    simp

/-- The bytes `bs` are stored, and the rest behind them. -/
theorem cons {bs : List UInt8} (hr : r k = some bs) (hbs : 0 < bs.length) (hle : t + bs.length ≤ count)
    (hmem : count ≤ mem.length)
    (H : ReadsRest fd r count (k + 1) (t + bs.length) (mem.take t ++ bs ++ mem.drop (t + bs.length)) mem' ret cs) :
    ReadsRest fd r count k t mem mem' ret (⟨fd, t, count - t, bs.length, bs⟩ :: cs) := by
  have hcast : ((t + bs.length : Nat) : Int) = (t : Int) + bs.length := Int.natCast_add t _
  have hret : (bs.length : Int) = ioRet (sizes r k) := by rw [sizes, hr]; rfl
  have hdata : bs = received r k ⟨fd, t, count - t, bs.length, bs⟩ := by rw [received, hr]; rfl
  refine ⟨H.answered.cons rfl hret hdata, .cons ?_ (Int.natCast_pos.2 hbs) (by omega) rfl rfl, fun c hc => ?_,
    fun c hc => ?_, ?_, ?_⟩
  · rw [← hcast]
    exact H.transfer
  · rcases List.mem_cons.1 hc with rfl | hc
    · exact .of_rest (by omega) rfl rfl
    · exact H.inside c hc
  · rcases List.mem_cons.1 hc with rfl | hc
    · show (bs.length : Int) ≠ -1
      omega
    · exact H.ok c hc
  · rw [H.ret, moved_cons, List.length_append, ← Nat.add_assoc]
  · have hlen : (mem.take t ++ bs).length = t + bs.length := by
      rw [List.length_append, List.length_take_of_le (by omega)]
    have htake : (mem.take t ++ bs ++ mem.drop (t + bs.length)).take (t + bs.length) = mem.take t ++ bs := by
      rw [← hlen, List.take_left]
    have hdrop : ∀ n, (mem.take t ++ bs ++ mem.drop (t + bs.length)).drop (t + bs.length + n) =
        mem.drop (t + (bs.length + n)) := by
      intro n
      rw [← List.drop_drop, ← hlen, List.drop_left, hlen, List.drop_drop, Nat.add_assoc]
    rw [H.mem, htake, hdrop, moved_cons, List.length_append, List.append_assoc (mem.take t)]

end ReadsRest

/-- A call of `ep_read` that brings something; the loop goes on. -/
theorem readLoop_more {bs : List UInt8} (hend : t ≠ count) (hbs : r k = some bs) (hpos : 0 < bs.length)
    (hle : t + bs.length ≤ mem.length) :
    readLoop fd count r (fuel + 1) k t t mem =
      readLoop fd count r fuel (k + 1) (t + bs.length : Nat) (t + bs.length : Nat)
        (mem.take t ++ bs ++ mem.drop (t + bs.length)) >>= fun x =>
          .ok (x.1, x.2.1, ⟨fd, t, count - t, bs.length, bs⟩ :: x.2.2) := by
  have h0 : (bs.length : Int) ≠ 0 := by omega
  have h1 : (bs.length : Int) ≠ -1 := by omega
  rw [readLoop, if_neg (by exact_mod_cast hend), sysRead_eq (by rw [hbs]; exact hle), Res.ok_bind]
  simp only [hbs, Option.map_some, ioRet, h0, h1, if_false, Option.getD_some, Int.natCast_add]
  rfl

/-- The rest of `ep_read`, from its `k`-th call on, when no call fails. -/
theorem readLoop_spec (ho : LegalIo (sizes r) count) (hr : ∀ k, Going (sizes r) count k → r k ≠ none)
    (hmem : count ≤ mem.length) (H : Came (sizes r) count k) (ht : done (sizes r) k = t)
    (hf : count < t + fuel) :
    ∃ ret mem' calls, readLoop fd count r fuel k t t mem = .ok (ret, mem', calls) ∧
      ReadsRest fd r count k t mem mem' ret calls := by
  have htc : t ≤ count := ht ▸ H.2.2
  induction fuel generalizing k t mem with
  | zero => exact absurd hf (by omega)
  | succ fuel ih =>
    rcases eq_or_ne t count with rfl | hend
    · exact ⟨t, mem, [], by simp [readLoop], .nil⟩
    · have hgo := H.going (ht ▸ hend)
      have hne : (t : Int) ≠ count := by exact_mod_cast hend
      obtain ⟨bs, hbs⟩ := Option.ne_none_iff_exists'.1 (hr k hgo)
      have hle : t + bs.length ≤ count := by
        have := ho k hgo
        rwa [ht, sizes, hbs] at this
      cases bs with
      | nil =>
        refine ⟨t, mem, [⟨fd, t, count - t, 0, []⟩], ?_, .single (Nat.lt_of_le_of_ne htc hend) hbs⟩
        simp [readLoop, hne, hbs, sysRead, ioRet]
      | cons b bs =>
        have hpos : 0 < (b :: bs).length := Nat.succ_pos _
        have hmoves : (sizes r k).getD 0 ≠ 0 := by
          rw [sizes, hbs]
          exact Nat.ne_of_gt hpos
        set mem₁ := mem.take t ++ (b :: bs) ++ mem.drop (t + (b :: bs).length) with hmem₁
        have hlen₁ : count ≤ mem₁.length := by
          rw [hmem₁, List.length_append, List.length_append, List.length_take, List.length_drop]
          omega
        obtain ⟨ret, mem', calls, hrun, hrest⟩ := @ih (k + 1) (t + (b :: bs).length) mem₁ hlen₁
          (H.succ ho (ht ▸ hend) hmoves) (by rw [done_succ, ht, sizes, hbs]; rfl) (by omega) hle
        refine ⟨ret, mem', ⟨fd, t, count - t, (b :: bs).length, b :: bs⟩ :: calls, ?_,
          hrest.cons hbs hpos hle hmem⟩
        rw [readLoop_more hend hbs hpos (Nat.le_trans hle hmem), hrun]
        rfl

/-- When bytes are missing, there is a call. -/
theorem readLoop_ne_nil {total buf : Int} {mem' : List UInt8} {calls : List IoCall}
    (h : readLoop fd count r fuel k total buf mem = .ok (ret, mem', calls)) (ht : total ≠ count) :
    calls ≠ [] := by
  cases fuel with
  | zero => cases h
  | succ fuel =>
    unfold readLoop at h
    rw [if_neg ht] at h
    obtain ⟨mem₁, -, h⟩ := Res.bind_eq_ok.1 h
    dsimp only at h
    split at h
    · cases h
      simp
    · obtain ⟨⟨ret, mem₂, cs⟩, -, h⟩ := Res.bind_eq_ok.1 h
      cases h
      simp

/-- A failure that `ep_read` comes to does not end it: another call follows. -/
theorem readLoop_failed {n : Nat} {buf : Int} {mem' : List UInt8} {calls : List IoCall}
    (hn : Going (sizes r) count n) (hfail : r n = none) (hk : k ≤ n)
    (h : readLoop fd count r fuel k (done (sizes r) k) buf mem = .ok (ret, mem', calls)) :
    ¬Transfer count (done (sizes r) k) calls := by
  induction fuel generalizing k buf mem mem' calls ret with
  | zero => cases h
  | succ fuel ih =>
    have hend : ((done (sizes r) k : Nat) : Int) ≠ count := by exact_mod_cast hn.2 k hk
    unfold readLoop at h
    rw [if_neg hend] at h
    obtain ⟨mem₁, hread, h⟩ := Res.bind_eq_ok.1 h
    rcases Nat.lt_or_eq_of_le hk with hlt | rfl
    · obtain ⟨bs, hbs⟩ : ∃ bs, r k = some bs := by
        rcases hrk : r k with - | bs
        · exact absurd (by rw [sizes, hrk]; rfl) (hn.1 k hlt)
        · exact ⟨bs, rfl⟩
      have hpos : 0 < bs.length := by
        have := hn.1 k hlt
        rw [sizes, hbs] at this
        exact Nat.pos_of_ne_zero this
      have h0 : (bs.length : Int) ≠ 0 := by omega
      have h1 : (bs.length : Int) ≠ -1 := by omega
      simp only [hbs, Option.map_some, ioRet, h0, h1, if_false] at h
      obtain ⟨⟨ret, mem₂, cs⟩, hrest, h⟩ := Res.bind_eq_ok.1 h
      cases h
      have hcast : ((done (sizes r) k : Nat) : Int) + bs.length = (done (sizes r) (k + 1) : Nat) := by
        rw [done_succ, sizes, hbs]
        exact (Int.natCast_add _ _).symm
      rw [hcast] at hrest
      rintro ⟨-, -, -, H⟩
      rw [if_pos (Int.natCast_pos.2 hpos)] at H
      apply ih hlt hrest
      rw [← hcast]
      exact H
    · -- the total is -2 after the failure
      rw [hfail] at h
      obtain ⟨⟨ret, mem₂, cs⟩, hrest, h⟩ := Res.bind_eq_ok.1 h
      cases h
      rintro ⟨-, -, -, H⟩
      rw [if_neg (by simp [ioRet])] at H
      apply readLoop_ne_nil hrest _ H
      simp [ioRet]

/-- `ep_read` receives what it should: it returns, its calls are a transfer into `buf[0..count)` that puts
the bytes it receives there one after the other, and it returns -1 when a call failed, and their number
otherwise. The `k`-th call has the `k`-th outcome `r k`. -/
def Receives (fd : Int) (r : Nat → Option (List UInt8)) (count : Nat) (mem : List UInt8) : Prop :=
  ∃ n, ∀ fuel, n ≤ fuel → ∃ ret mem' calls, epRead fd count r fuel mem = .ok (ret, mem', calls) ∧
    Answered fd (sizes r) (received r) 0 calls ∧ Transfer count 0 calls ∧ (∀ c ∈ calls, c.Inside count) ∧
    mem' = moved calls ++ mem.drop (moved calls).length ∧ Returns ret (moved calls).length calls

/-- **When `ep_read` receives what it should.** It does so exactly when no call fails that comes before the
first that returns 0, and before `count` bytes have arrived. -/
theorem ep_read_iff (hmem : count ≤ mem.length) (ho : LegalIo (sizes r) count) :
    Receives fd r count mem ↔ ∀ k, Going (sizes r) count k → r k ≠ none := by
  constructor
  · rintro ⟨n, hn⟩ k hk hfail
    obtain ⟨ret, mem', calls, hrun, -, hcalls, -⟩ := hn n (Nat.le_refl n)
    exact readLoop_failed hk hfail (Nat.zero_le k) hrun hcalls
  · intro hr
    refine ⟨count + 1, fun fuel hf => ?_⟩
    obtain ⟨ret, mem', calls, hrun, hrest⟩ :=
      @readLoop_spec fd count 0 fuel 0 mem r ho hr hmem .zero rfl (by omega)
    have hret := hrest.ret
    have hmem' := hrest.mem
    rw [Nat.zero_add] at hret hmem'
    refine ⟨ret, mem', calls, hrun, hrest.answered, hrest.transfer, hrest.inside, by simpa using hmem',
      iff_of_false (by omega) ?_, fun _ => hret⟩
    rintro ⟨c, hc, hfail⟩
    exact hrest.ok c hc hfail

end

end

/-- Two bytes arrive, and then no more. -/
theorem ep_read_iff_sample :
    Receives 0 (fun k => if k = 0 then some [7, 8] else some []) 3 [0, 0, 0] := by
  refine (ep_read_iff (by decide) (LegalIo.of_le (n := 1) rfl (by decide))).2 fun k _ => ?_
  split <;> simp

/-- The first call fails: the next one is asked to store three bytes from the byte before the buffer on, and
`ep_read` returns -2. -/
theorem ep_read_failure :
    LegalIo (sizes fun k => if k = 0 then none else some []) 1 ∧
      ¬Receives 0 (fun k => if k = 0 then none else some []) 1 [0] ∧
      epRead 0 1 (fun k => if k = 0 then none else some []) 2 [0] =
        .ok (-2, [0], [⟨0, 0, 1, -1, []⟩, ⟨0, -1, 3, 0, []⟩]) := by
  have hlegal : LegalIo (sizes fun k => if k = 0 then none else some []) 1 :=
    LegalIo.of_le (n := 0) rfl (by decide)
  refine ⟨hlegal, ?_, rfl⟩
  rintro ⟨n, hn⟩
  obtain ⟨ret, mem', calls, hrun, -, hcalls, -⟩ := hn n (Nat.le_refl n)
  exact readLoop_failed (n := 0) ⟨fun j hj => absurd hj (Nat.not_lt_zero j), by decide⟩ rfl
    (Nat.le_refl 0) hrun hcalls

end Libep

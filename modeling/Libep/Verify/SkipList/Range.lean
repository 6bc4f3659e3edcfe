import Libep.Verify.SkipList.Rep

/-!
# `skiplist_extract`

The function cuts the nodes it is to return out of every level, and reads the result from `prev->forward[0]`
after it has overwritten this link. What it finds there is the first node above the range, or `NULL`, which
it reads the score of. So it returns the right node on no list: `skiplist_extract_never`.
-/

namespace Libep
open Chain SkipList StableList

section
variable {σ α : Type} {s s' : SkipList σ α} {prev prev' x x' : Ref α} {last last' : Option (Ref α)}
  {min max : σ} {fuel i k n : Nat}

/-- Where a walk stops: at the end of the level, or before a node that fails the test. -/
theorem SkipList.walk_ok {test : α → Res Bool} (h : s.walk test i fuel x = .ok x') :
    s.Valid x' ∧ ∀ y, s.next i x' = some y → test y = .ok false := by
  induction fuel generalizing x with
  | zero => cases h
  | succ fuel ih =>
    obtain ⟨p, hp, h⟩ := Res.bind_eq_ok.1 h
    unfold forward at hp
    split at hp
    · rename_i hx
      cases hp
      cases hy : s.next i x with
      | none =>
        rw [hy] at h
        cases h
        exact ⟨hx, fun y h => by cases hy.symm.trans h⟩
      | some y =>
        rw [hy] at h
        obtain ⟨b, hb, h⟩ := Res.bind_eq_ok.1 h
        cases b with
        | true => exact ih h
        | false =>
          cases h
          refine ⟨hx, fun z hz => ?_⟩
          cases hy.symm.trans hz
          exact hb
    · cases hp

variable [LinearOrder σ]

omit [LinearOrder σ] in
/-- A test of a score that a node fails. -/
theorem SkipList.score_test_false {p : σ → Prop} [DecidablePred p] {y : α}
    (h : (s.score y >>= fun c => .ok (decide (p c))) = .ok false) :
    s.live y ∧ ¬p (s.node y).score := by
  obtain ⟨c, hc, h⟩ := Res.bind_eq_ok.1 h
  unfold SkipList.score at hc
  split at hc
  · rename_i hlive
    cases hc
    exact ⟨hlive, by simpa using h⟩
  · cases hc

variable [DecidableEq α]

omit [DecidableEq α] in
/-- `last` stays `NULL` only at the end of a level. -/
theorem rangeStart_none (hx : s.Valid prev)
    (hprev : ∀ y, s.next i prev = some y → s.live y ∧ ¬(s.node y).score < min)
    (h : rangeStart min i prev last s = .ok none) : s.next i prev = none := by
  cases last with
  | some x => cases h
  | none =>
    cases hy : s.next i prev with
    | none => rfl
    | some y =>
      obtain ⟨hlive, hge⟩ := hprev y hy
      simp [rangeStart, forward_eq hx, hy, score_eq hlive, not_lt.1 hge] at h

/-- The loop over the levels writes no score, and leaves `prev` before the first node above the range. -/
theorem rangeLevels_ok (h : rangeLevels fuel min max k prev last s = .ok (prev', last', s')) :
    (∀ a, (s'.node a).score = (s.node a).score) ∧
      (0 < k → ∀ y, s'.next 0 prev' = some y → max < (s'.node y).score) := by
  induction k generalizing prev last s with
  | zero =>
    cases h
    exact ⟨fun _ => rfl, fun hk => absurd hk (Nat.lt_irrefl 0)⟩
  | succ i ih =>
    obtain ⟨x, hx, h⟩ := Res.bind_eq_ok.1 h
    obtain ⟨l, hl, h⟩ := Res.bind_eq_ok.1 h
    obtain ⟨hvalid, hprev⟩ := walk_ok hx
    cases l with
    | none =>
      obtain ⟨hscore, habove⟩ := ih h
      refine ⟨hscore, fun _ => ?_⟩
      cases i with
      | succ i => exact habove (Nat.succ_pos i)
      | zero =>
        cases h
        intro y hy
        have hnone := rangeStart_none hvalid (fun y hy => score_test_false (hprev y hy)) hl
        cases hnone.symm.trans hy
    | some z =>
      obtain ⟨z, hz, h⟩ := Res.bind_eq_ok.1 h
      obtain ⟨hz, hlast⟩ := walk_ok hz
      rw [forward_eq hz, Res.ok_bind, setForward_eq hvalid, Res.ok_bind] at h
      obtain ⟨hscore, habove⟩ := ih h
      refine ⟨fun a => (hscore a).trans score_set, fun _ => ?_⟩
      cases i with
      | succ i => exact habove (Nat.succ_pos i)
      | zero =>
        -- at level 0 `prev->forward[0]` is what follows `last`
        cases h
        intro y hy
        rw [next_set_same, Function.update_self] at hy
        rw [score_set]
        exact not_le.1 (score_test_false (hlast y hy)).2

/-- `skiplist_extract` returns a node above the range, if it returns. -/
theorem skiplistExtract_above {level : Nat} {ret : Option α} (hlevel : 0 < level) (hle : min ≤ max)
    (h : skiplistExtract level fuel s min max = .ok (ret, s')) :
    ∃ y, ret = some y ∧ max < (s.node y).score := by
  obtain ⟨⟨prev, last, s₁⟩, hrun, h⟩ := Res.bind_eq_ok.1 h
  obtain ⟨hscore, habove⟩ := rangeLevels_ok hrun
  obtain ⟨p, hp, h⟩ := Res.bind_eq_ok.1 h
  unfold forward at hp
  split at hp
  · cases hp
    cases hy : s₁.next 0 prev with
    | none =>
      rw [hy] at h
      cases h
    | some y =>
      have hmax := habove hlevel y hy
      rw [hy] at h
      obtain ⟨c, hc, h⟩ := Res.bind_eq_ok.1 h
      unfold score at hc
      split at hc
      · cases hc
        rw [if_pos (le_trans hle (le_of_lt hmax))] at h
        cases last with
        | none => cases h
        | some x =>
          obtain ⟨s₂, -, h⟩ := Res.bind_eq_ok.1 h
          cases h
          exact ⟨y, rfl, hscore y ▸ hmax⟩
      · cases hc
  · cases hp

/-- The entries with scores from `min` to `max`. -/
def inRange (min max : σ) (L : List (Entry σ α)) : List (Entry σ α) :=
  L.filter fun e => min ≤ e.score ∧ e.score ≤ max

/-- `skiplist_extract` takes the entries from `min` to `max` out of the list `L` and returns their chain. -/
def ExtractsRange (level : Nat) (s : SkipList σ α) (L : List (Entry σ α)) (min max : σ) : Prop :=
  ∃ n, ∀ fuel, n ≤ fuel → ∃ ret s',
    skiplistExtract level fuel s min max = .ok (ret, s') ∧
      From Ref.node (s'.next 0) ret ((inRange min max L).map Entry.node) none ∧
      Rep level s' (L.filter fun e => ¬(min ≤ e.score ∧ e.score ≤ max))

/-- **`skiplist_extract` never extracts a range.** On no list, whatever its levels, heights and scores, and
for no `min` and `max`, does it return the chain of the nodes from `min` to `max`: it reads through a `NULL`
link, or it returns a node above `max`. -/
theorem skiplist_extract_never {level : Nat} {L : List (Entry σ α)} (hlevel : 1 ≤ level)
    (H : Rep level s L) (hle : min ≤ max) : ¬ExtractsRange level s L min max := by
  rintro ⟨n, hn⟩
  obtain ⟨ret, s', hrun, hfrom, -⟩ := hn n (Nat.le_refl n)
  obtain ⟨y, rfl, hy⟩ := skiplistExtract_above hlevel hle hrun
  cases hR : inRange min max L with
  | nil =>
    rw [hR] at hfrom
    cases hfrom
  | cons e R =>
    rw [hR] at hfrom
    obtain rfl : y = e.node := Option.some.inj hfrom.1
    have he : e ∈ inRange min max L := hR ▸ List.mem_cons_self
    obtain ⟨heL, hemax⟩ := List.mem_filter.1 he
    rw [H.score e heL] at hy
    exact absurd hy (not_lt.2 (of_decide_eq_true hemax).2)

end

/-- The nodes 1, 2 and 3 with the scores 1, 2 and 3 on one level. -/
def sampleRange : SkipList Nat Nat :=
  ⟨fun i => if i = 0 then some 1 else none,
    fun a => ⟨a, fun i => if i = 0 ∧ a < 3 then some (a + 1) else none⟩, fun _ => true⟩

def sampleEntries : List (Entry Nat Nat) := [⟨1, 1, 1⟩, ⟨2, 2, 1⟩, ⟨3, 3, 1⟩]

theorem sampleRange_rep : Rep 1 sampleRange sampleEntries := by
  refine ⟨fun i hi => ?_, fun e he i h1 h2 => ?_, fun _ _ => rfl, by decide, by decide,
    by simp [Sorted, sampleEntries]⟩
  · obtain rfl : i = 0 := Nat.lt_one_iff.1 hi
    exact ⟨rfl, rfl, rfl, rfl⟩
  · obtain rfl : i = 0 := Nat.lt_one_iff.1 h2
    have : ∀ e ∈ sampleEntries, ¬e.height ≤ 0 := by decide
    exact absurd h1 (this e he)

theorem skiplist_extract_never_sample : ¬ExtractsRange 1 sampleRange sampleEntries 1 2 :=
  skiplist_extract_never (by decide) sampleRange_rep (by decide)

/-- The node 2 is to be extracted, and the node 3 is returned. In the empty list `NULL` is read through. -/
theorem skiplist_extract_wrong :
    Rep 1 sampleRange sampleEntries ∧ ¬ExtractsRange 1 sampleRange sampleEntries 2 2 ∧
      (skiplistExtract 1 4 sampleRange 2 2).map Prod.fst = .ok (some 3) ∧
      (skiplistExtract 1 4 (skiplistInit sampleRange) 2 2).map Prod.fst = .error .invalid := by
  refine ⟨sampleRange_rep, ?_, rfl, rfl⟩
  rintro ⟨n, hn⟩
  obtain ⟨ret, s', hrun, hfrom, -⟩ := hn n (Nat.le_refl n)
  obtain ⟨y, rfl, hy⟩ := skiplistExtract_above Nat.one_pos (Nat.le_refl 2) hrun
  obtain rfl : y = 2 := Option.some.inj hfrom.1
  exact absurd hy (by decide)

end Libep

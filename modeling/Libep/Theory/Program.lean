import Mathlib

/-!
# Programs as graphs of statements

A program is a graph: a statement at each point, and the point that follows for each result of the
statement. What statements do, and what an observer sees of them, is shared by all programs over them; so
two programs show the same as long as they stand at the same statements.
-/

namespace Libep

/-- A program with the points `Pc`, and statements `S` that have results `ρ`. -/
structure Program (Pc S ρ : Type*) where
  stmt : Pc → S
  next : Pc → ρ → Pc

namespace Program
variable {Pc Pc' S ρ σ ω ε : Type*}

section
variable (exec : S → σ → List ω × Except ε (ρ × σ)) (p : Program Pc S ρ)

/-- The next `n` statements: what is seen of them, and where they lead if none of them fails. -/
def run : (n : Nat) → Pc × σ → List ω × Except ε (Pc × σ)
  | 0, c => ([], .ok c)
  | n + 1, c =>
    match exec (p.stmt c.1) c.2 with
    | (obs, .ok r) =>
      (obs ++ (run n (p.next c.1 r.1, r.2)).1, (run n (p.next c.1 r.1, r.2)).2)
    | (obs, .error e) => (obs, .error e)

/-- What is seen of the next `n` statements. -/
def trace (n : Nat) (c : Pc × σ) : List ω := (p.run exec n c).1

end

variable {exec : S → σ → List ω × Except ε (ρ × σ)} {p : Program Pc S ρ} {q : Program Pc' S ρ}
variable {a : Pc} {b : Pc'} {s s' : σ} {obs : List ω} {r : ρ} {e : ε} {n : Nat}

theorem run_of_ok (h : exec (p.stmt a) s = (obs, .ok (r, s'))) :
    p.run exec (n + 1) (a, s) =
      (obs ++ (p.run exec n (p.next a r, s')).1, (p.run exec n (p.next a r, s')).2) := by
  rw [run, h]

theorem run_of_error (h : exec (p.stmt a) s = (obs, .error e)) :
    p.run exec (n + 1) (a, s) = (obs, .error e) := by
  rw [run, h]

/-- A longer run shows more. -/
theorem trace_prefix (c : Pc × σ) {m n : Nat} (h : m ≤ n) :
    p.trace exec m c <+: p.trace exec n c := by
  induction m generalizing n c with
  | zero => exact List.nil_prefix
  | succ m ih =>
    obtain ⟨n, rfl⟩ := Nat.exists_eq_succ_of_ne_zero (Nat.ne_of_gt (Nat.zero_lt_of_lt h))
    obtain ⟨a, s⟩ := c
    unfold trace
    cases hx : exec (p.stmt a) s with
    | mk obs res =>
      cases res with
      | error e => rw [run_of_error hx, run_of_error hx]
      | ok r =>
        rw [run_of_ok hx, run_of_ok hx]
        exact (List.prefix_append_right_inj _).2 (ih _ (Nat.le_of_succ_le_succ h))

/-- Programs that keep to the same statements show the same. The points they stand at may differ; `R`
says which points go together, at which states. -/
theorem trace_eq (R : Pc → Pc' → σ → Prop)
    (hstmt : ∀ {a b s}, R a b s → p.stmt a = q.stmt b)
    (hnext : ∀ {a b s obs r s'}, R a b s → exec (p.stmt a) s = (obs, .ok (r, s')) →
      R (p.next a r) (q.next b r) s')
    (n : Nat) (h : R a b s) : p.trace exec n (a, s) = q.trace exec n (b, s) := by
  induction n generalizing a b s with
  | zero => rfl
  | succ n ih =>
    unfold trace
    cases hx : exec (p.stmt a) s with
    | mk obs res =>
      have hy := hx
      rw [hstmt h] at hy
      cases res with
      | error e => rw [run_of_error hx, run_of_error hy]
      | ok r =>
        rw [run_of_ok hx, run_of_ok hy]
        exact congrArg (obs ++ ·) (ih (hnext h hx))

end Program

end Libep

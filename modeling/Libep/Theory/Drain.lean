import Mathlib

/-!
# Draining batches

A source gets its elements in batches and hands out one a call, the last of the batch first. It gets a
new batch only in a call that finds nothing left. The relation `Drains` is over the records `ρ` of the
calls; what a record shows of a call is a parameter.
-/

namespace Libep

variable {α ρ : Type*} {handed : α → Nat → ρ → Prop} {refilled : List α → ρ → Prop}

/-- Calls of a source with the elements `p` left, in the order in which they go. The record `r` of a
call shows `handed e n r` if the call handed out `e`, one of `n` left before, and `refilled l r` if it
got the batch `l` and handed out the last of it. -/
inductive Drains (handed : α → Nat → ρ → Prop) (refilled : List α → ρ → Prop) :
    List α → List ρ → Prop where
  | nil : Drains handed refilled p []
  | hand : handed e (p.length + 1) r → Drains handed refilled p rs →
    Drains handed refilled (e :: p) (r :: rs)
  | refill : refilled l r → Drains handed refilled l.reverse.tail rs →
    Drains handed refilled [] (r :: rs)

namespace Drains

/-- A call of the run, with those after it. -/
theorem cases_getElem {p : List α} {rs : List ρ} (H : Drains handed refilled p rs) {i : Nat} {r : ρ}
    (hr : rs[i]? = some r) :
    (∃ e n, handed e n r) ∨
      ∃ l, refilled l r ∧ Drains handed refilled l.reverse.tail (rs.drop (i + 1)) := by
  induction H generalizing i with
  | nil => cases hr
  | hand h _ ih =>
    cases i with
    | zero =>
      cases hr
      exact .inl ⟨_, _, h⟩
    | succ i => exact ih hr
  | refill h H ih =>
    cases i with
    | zero =>
      cases hr
      exact .inr ⟨_, h, H⟩
    | succ i => exact ih hr

end Drains

end Libep

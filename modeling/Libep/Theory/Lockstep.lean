import Mathlib

/-!
# Lockstep

Two computations that can fail, one of them an implementation with a bound on its loops and the
other one its specification: they fail together with the same error, or both have a result and the
results are related. The rules compose such pairs, and compose them for every bound that is large
enough.
-/

universe u v w

/-- The same error, or results related by `R`. -/
def Lockstep {ε : Type u} {α : Type v} {β : Type w} (R : α → β → Prop) :
    Except ε α → Except ε β → Prop
  | .ok a, .ok b => R a b
  | .error e, .error e' => e = e'
  | _, _ => False

namespace Lockstep
variable {ε : Type u} {α α' : Type v} {β β' : Type w} {R : α → β → Prop} {R' : α' → β' → Prop}
variable {x : Except ε α} {y : Except ε β} {f : α → Except ε α'} {g : β → Except ε β'}

@[simp] theorem ok_ok {a : α} {b : β} :
    Lockstep R (.ok a : Except ε α) (.ok b) ↔ R a b := .rfl

@[simp] theorem error_error {e e' : ε} :
    Lockstep R (.error e) (.error e') ↔ e = e' := .rfl

theorem exists_ok (H : Lockstep R x y) {b : β} (hy : y = .ok b) : ∃ a, x = .ok a ∧ R a b := by
  subst hy
  cases x with
  | error e => exact H.elim
  | ok a => exact ⟨a, rfl, H⟩

theorem exists_ok_right (H : Lockstep R x y) {a : α} (hx : x = .ok a) : ∃ b, y = .ok b ∧ R a b := by
  subst hx
  cases y with
  | error e => exact H.elim
  | ok b => exact ⟨b, rfl, H⟩

theorem eq_error (H : Lockstep R x y) {e : ε} (hy : y = .error e) : x = .error e := by
  subst hy
  cases x with
  | error e' => exact congrArg _ H
  | ok a => exact H.elim

/-- One after the other. -/
theorem bind (H : Lockstep R x y) (h : ∀ a b, y = .ok b → R a b → Lockstep R' (f a) (g b)) :
    Lockstep R' (x >>= f) (y >>= g) := by
  cases hy : y with
  | error e =>
    rw [H.eq_error hy]
    exact rfl
  | ok b =>
    obtain ⟨a, rfl, hab⟩ := H.exists_ok hy
    exact h a b hy hab

variable {ι : Type*} {l : Filter ι} {γ : Type*} {Q : γ → Prop}
variable {F : ι → γ → Except ε α} {G : ι → α → Except ε α'} {z : Except ε β}

/-- One after the other, each of them in lockstep for almost every bound. -/
theorem eventually_bind (h₁ : ∀ᶠ i in l, ∀ c, Q c → Lockstep R (F i c) z)
    (h₂ : ∀ b', z = .ok b' → ∀ᶠ i in l, ∀ a, R a b' → Lockstep R' (G i a) (g b')) :
    ∀ᶠ i in l, ∀ c, Q c → Lockstep R' (F i c >>= G i) (z >>= g) := by
  cases z with
  | error e =>
    filter_upwards [h₁] with i h c hc
    exact (h c hc).bind fun _ _ h => nomatch h
  | ok b' =>
    filter_upwards [h₁, h₂ b' rfl] with i h h' c hc
    apply (h c hc).bind
    intro a b'' hb ha
    cases hb
    exact h' a ha

end Lockstep

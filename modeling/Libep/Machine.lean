import Mathlib

/-!
# The machine under the code

Results of runs of C code, and the order on `uint64_t`.

A loop over linked memory need not end, so a model of one carries a bound on its iterations; a
statement that the code returns says that every bound large enough gives a result. Memory that is
not allocated, or freed, must not be accessed: the model checks each access.
-/

namespace Libep

/-- Why a run has no result. -/
inductive Fault where
  /-- A loop used up its bound. -/
  | fuel
  /-- The code accessed or freed memory that is not allocated. -/
  | invalid
  deriving DecidableEq, Repr

/-- The result of a run. -/
abbrev Res := Except Fault

namespace Res

@[simp] theorem ok_bind (a : α) (f : α → Res β) : (Except.ok a >>= f) = f a := rfl

@[simp] theorem error_bind (e : Fault) (f : α → Res β) : (Except.error e >>= f) = .error e := rfl

@[simp] theorem pure_eq (a : α) : (pure a : Res α) = .ok a := rfl

@[simp] theorem bind_ok (x : Res α) : (x >>= Except.ok) = x := by cases x <;> rfl

theorem bind_eq_ok {x : Res α} {f : α → Res β} {b : β} :
    (x >>= f) = .ok b ↔ ∃ a, x = .ok a ∧ f a = .ok b := by
  cases x <;> simp

theorem bind_ne_fuel {x : Res α} {f : α → Res β} (hx : x ≠ .error .fuel)
    (hf : ∀ a, f a ≠ .error .fuel) : (x >>= f) ≠ .error .fuel := by
  cases x with
  | ok a => exact hf a
  | error e =>
    rintro ⟨⟩
    exact hx rfl

end Res

instance linearOrderUInt64 : LinearOrder UInt64 where
  le_refl _ := UInt64.le_refl _
  le_trans _ _ _ := UInt64.le_trans
  le_antisymm _ _ := UInt64.le_antisymm
  lt_iff_le_not_ge a b := by
    simp only [UInt64.lt_iff_toNat_lt, UInt64.le_iff_toNat_le]; omega
  le_total := UInt64.le_total
  toDecidableLE := inferInstance
  toDecidableLT := inferInstance
  toDecidableEq := inferInstance

end Libep

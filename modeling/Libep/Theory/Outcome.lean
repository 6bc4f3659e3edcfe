import Libep.Theory.Lockstep

/-!
# Outcomes

What is known of a computation that can fail: it has a result with some property, or an error that is
allowed. With a single error allowed this is safety, with every error allowed it is about results only; a
rule for a loop that is proved for any set of errors serves both.

A computation with a bound on its loops is one without it, cut short: it is the same, or it has one
particular error. It returns if bounds that are large enough do not cut it short; then it has the same result
for all of them.
-/

universe u v

variable {ε : Type u} {α β : Type v}

/-- `x` has a result with the property `Q`, or an error that `E` allows. -/
def Ends (E : ε → Prop) (x : Except ε α) (Q : α → Prop) : Prop :=
  match x with
  | .ok a => Q a
  | .error e => E e

namespace Ends
variable {E : ε → Prop} {x : Except ε α} {f : α → Except ε β} {Q Q' : α → Prop} {R : β → Prop}
  {a : α} {e : ε}

theorem ok (h : Q a) : Ends E (.ok a) Q := h

theorem error (h : E e) : Ends E (.error e) Q := h

theorem of_exists (h : ∃ a, x = .ok a ∧ Q a) : Ends E x Q := by
  obtain ⟨a, rfl, h⟩ := h
  exact h

/-- What holds of every result, when all errors are allowed. -/
theorem of_result (hE : ∀ e, E e) (h : ∀ a, x = .ok a → Q a) : Ends E x Q := by
  cases x with
  | ok a => exact h a rfl
  | error e => exact hE e

theorem result (H : Ends E x Q) (h : x = .ok a) : Q a := by
  subst h
  exact H

theorem allowed (H : Ends E x Q) (h : x = .error e) : E e := by
  subst h
  exact H

theorem mono (H : Ends E x Q) (h : ∀ a, x = .ok a → Q a → Q' a) : Ends E x Q' := by
  cases x with
  | ok a => exact h a rfl H
  | error e => exact H

/-- One after the other. -/
theorem bind (H : Ends E x Q) (h : ∀ a, x = .ok a → Q a → Ends E (f a) R) : Ends E (x >>= f) R := by
  cases x with
  | ok a => exact h a rfl H
  | error e => exact H

/-- What is known of the result after a function of it. -/
theorem of_map {g : α → β} (H : Ends E (x >>= fun a => .ok (g a)) R) : Ends E x fun a => R (g a) := by
  cases x with
  | ok a => exact H
  | error e => exact H

end Ends

/-- What runs in lockstep with a computation whose errors are all allowed. -/
theorem Lockstep.ends {E : ε → Prop} {x : Except ε α} {y : Except ε β} {R : α → β → Prop}
    (H : Lockstep R x y) (hE : ∀ e, y = .error e → E e) : Ends E x fun a => ∃ b, y = .ok b ∧ R a b := by
  cases y with
  | ok b =>
    obtain ⟨a, rfl, h⟩ := H.exists_ok rfl
    exact ⟨b, rfl, h⟩
  | error e =>
    rw [H.eq_error rfl]
    exact hE e rfl

/-- `x` is `y`, cut short by the error `e`. -/
def CutShort (e : ε) (x y : Except ε α) : Prop := x = .error e ∨ x = y

namespace CutShort
variable {E : ε → Prop} {x y : Except ε α} {f g : α → Except ε β} {Q : α → Prop} {a : α} {e : ε}

theorem refl (e : ε) (x : Except ε α) : CutShort e x x := .inr rfl

theorem short (e : ε) (y : Except ε α) : CutShort e (.error e) y := .inl rfl

theorem bind (H : CutShort e x y) (h : ∀ a, CutShort e (f a) (g a)) : CutShort e (x >>= f) (y >>= g) := by
  rcases H with rfl | rfl
  · exact .inl rfl
  · cases x with
    | ok a => exact h a
    | error e' => exact .refl e _

theorem eq_ok (H : CutShort e x y) (h : x = .ok a) : y = .ok a := by
  rcases H with rfl | rfl
  · cases h
  · exact h

/-- What is known of the whole computation holds of the one cut short. -/
theorem ends (H : CutShort e x y) (he : E e) (h : Ends E y Q) : Ends E x Q := by
  rcases H with rfl | rfl
  · exact he
  · exact h

end CutShort

/-! ### Computations that return -/

open Filter

/-- `x` has one result, for all bounds that are large enough. -/
def Settles {ι : Type*} (l : Filter ι) (x : ι → Except ε α) : Prop := ∃ a, ∀ᶠ i in l, x i = .ok a

namespace Settles
variable {ι κ : Type*} {l : Filter ι} {l' : Filter κ} {x : ι → Except ε α} {f : ι → α → Except ε β} {a : α}
  {e : ε}

theorem of_eq {y : Except ε α} (h : y = .ok a) : Settles l fun _ => y := ⟨a, .of_forall fun _ => h⟩

theorem bind (H : Settles l x) (h : ∀ a, (∀ᶠ i in l, x i = .ok a) → Settles l fun i => f i a) :
    Settles l fun i => x i >>= f i := by
  obtain ⟨a, ha⟩ := H
  obtain ⟨b, hb⟩ := h a ha
  refine ⟨b, ?_⟩
  filter_upwards [ha, hb] with i ha hb
  rw [ha]
  exact hb

theorem comp (H : Settles l x) {g : κ → ι} (h : Tendsto g l' l) : Settles l' fun j => x (g j) := by
  obtain ⟨a, ha⟩ := H
  exact ⟨a, h.eventually ha⟩

/-- A computation that is only cut short by its bound returns, if it does with one. -/
theorem of_cutShort {x : ℕ → Except ε α} (hcut : ∀ {m n}, m ≤ n → CutShort e (x m) (x n)) {n : ℕ}
    (h : x n = .ok a) : Settles atTop x := by
  refine ⟨a, ?_⟩
  filter_upwards [eventually_ge_atTop n] with m hm
  exact (hcut hm).eq_ok h

/-- A loop that returns after one more round. -/
theorem of_succ {x : ι × ℕ → Except ε α} (H : Settles (l ×ˢ atTop) fun p => x (p.1, p.2 + 1)) :
    Settles (l ×ˢ atTop) x := by
  have hpred : Tendsto (fun p : ι × ℕ => (p.1, p.2 - 1)) (l ×ˢ atTop) (l ×ˢ atTop) :=
    tendsto_fst.prodMk ((tendsto_sub_atTop_nat 1).comp tendsto_snd)
  obtain ⟨a, ha⟩ := H
  refine ⟨a, ?_⟩
  filter_upwards [hpred.eventually ha, tendsto_snd.eventually (eventually_ge_atTop 1)] with p hp hpos
  rwa [Nat.sub_add_cancel hpos] at hp

/-- One bound for the loop and for what it calls. -/
theorem diag {x : ℕ × ℕ → Except ε α} (H : Settles (atTop ×ˢ atTop) x) : Settles atTop fun n => x (n, n) :=
  H.comp (tendsto_id.prodMk tendsto_id)

end Settles

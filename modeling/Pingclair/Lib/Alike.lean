import Mathlib.Tactic.Common

/-!
# Computations that end alike

Two fallible computations over different data end alike when both fail, with related errors, or
both succeed, with related results. The rules follow the shape of a program, so that a program
run on two representations of one thing is compared step by step.
-/

universe u

variable {ε ε' α β α' β' : Type u}

/-- Both fail with related errors, or both succeed with related results. -/
inductive Alike (E : ε → ε' → Prop) (R : α → β → Prop) : Except ε α → Except ε' β → Prop
  | error {e : ε} {e' : ε'} : E e e' → Alike E R (.error e) (.error e')
  | ok {a : α} {b : β} : R a b → Alike E R (.ok a) (.ok b)

namespace Alike

variable {E : ε → ε' → Prop} {R : α → β → Prop} {S : α' → β' → Prop}

variable {x : Except ε α} {y : Except ε' β}

theorem bind {f : α → Except ε α'} {g : β → Except ε' β'} (h : Alike E R x y)
    (hrest : ∀ a b, R a b → Alike E S (f a) (g b)) : Alike E S (x >>= f) (y >>= g) := by
  cases h with
  | error he => exact .error he
  | ok hab => exact hrest _ _ hab

theorem of_error {e : ε} {e' : ε'} (hx : x = .error e) (hy : y = .error e') (h : E e e') :
    Alike E R x y := by
  rw [hx, hy]
  exact .error h

theorem of_ok {a : α} {b : β} (hx : x = .ok a) (hy : y = .ok b) (h : R a b) : Alike E R x y := by
  rw [hx, hy]
  exact .ok h

theorem cases_on (h : Alike E R x y) :
    (∃ e e', x = .error e ∧ y = .error e' ∧ E e e') ∨ ∃ a b, x = .ok a ∧ y = .ok b ∧ R a b := by
  cases h with
  | error he => exact .inl ⟨_, _, rfl, rfl, he⟩
  | ok hab => exact .inr ⟨_, _, rfl, rfl, hab⟩

theorem ite {p q : Prop} [Decidable p] [Decidable q] {x' : Except ε α} {y' : Except ε' β}
    (hpq : p ↔ q) (ht : Alike E R x y) (helse : Alike E R x' y') :
    Alike E R (if p then x else x') (if q then y else y') := by
  by_cases hp : p
  · rw [if_pos hp, if_pos (hpq.mp hp)]
    exact ht
  · rw [if_neg hp, if_neg fun hq => hp (hpq.mpr hq)]
    exact helse

end Alike

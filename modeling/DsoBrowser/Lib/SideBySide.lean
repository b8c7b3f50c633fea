import Mathlib.Data.List.Basic

/-!
# Two computations side by side

Two computations that may fail are **alike** up to a relation when it holds of their results
whenever both have one. The rules follow the computations step by step: two that start with the
same step and go on alike are alike (`Alike.bind_same`), and a test that both make the same way
splits them together (`Alike.ite`).
-/

namespace SideBySide

universe u v

variable {ε : Type u} {α β γ δ : Type v}

/-- Where both computations have a result, the relation holds of the two. -/
def Alike (R : α → β → Prop) (x : Except ε α) (y : Except ε β) : Prop :=
  ∀ a b, x = .ok a → y = .ok b → R a b

namespace Alike

variable {R : α → β → Prop} {x x₁ x₂ : Except ε α} {y y₁ y₂ : Except ε β}

theorem ok {a : α} {b : β} (h : R a b) : Alike R (.ok a : Except ε α) (.ok b) := by
  intro a' b' ha hb
  cases ha
  cases hb
  exact h

theorem bind {S : γ → δ → Prop} {f : α → Except ε γ} {g : β → Except ε δ} (h : Alike R x y)
    (hfg : ∀ a b, R a b → Alike S (f a) (g b)) : Alike S (x >>= f) (y >>= g) := by
  intro c d hc hd
  cases hx : x with
  | error e =>
    rw [hx] at hc
    exact nomatch hc
  | ok a =>
    cases hy : y with
    | error e =>
      rw [hy] at hd
      exact nomatch hd
    | ok b =>
      rw [hx] at hc
      rw [hy] at hd
      exact hfg a b (h a b hx hy) c d hc hd

/-- Both start with the same step. -/
theorem bind_same {S : γ → δ → Prop} {f : α → Except ε γ} {g : α → Except ε δ} (x : Except ε α)
    (hfg : ∀ a, Alike S (f a) (g a)) : Alike S (x >>= f) (x >>= g) := by
  have hsame : Alike Eq x x := fun a b ha hb => Except.ok.inj (ha.symm.trans hb)
  refine hsame.bind fun a b hab => ?_
  rw [← hab]
  exact hfg a

/-- Both make the same test. -/
theorem ite {p q : Prop} [Decidable p] [Decidable q] (hpq : p ↔ q) (ht : p → Alike R x₁ y₁)
    (hf : ¬ p → Alike R x₂ y₂) : Alike R (if p then x₁ else x₂) (if q then y₁ else y₂) := by
  by_cases hp : p
  · rw [if_pos hp, if_pos (hpq.mp hp)]
    exact ht hp
  · rw [if_neg hp, if_neg fun hq => hp (hpq.mpr hq)]
    exact hf hp

end Alike

end SideBySide

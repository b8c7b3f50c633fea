import Mathlib.Data.List.Basic

/-!
# Computations over bounded buffers

A computation that reads and writes buffers by position ends with a result, refuses its input, or
steps **outside** one of its buffers. The accessors here are the only way to touch a buffer and step
outside it where the position does not fit.

`Refines R x y` says that the computation `x` never steps outside, refuses exactly where the
function `y` gives nothing, and otherwise has a result that is related to that of `y`. The rules
follow the steps of `x`: a step that only `x` makes needs its bound (`Refines.readAt_bind`), a test
that both make splits them together (`Refines.refuseIf_bind`), and a test of `x` that never refuses
falls away (`Refines.pass_bind`).

A computation that does nothing but append to one buffer steps outside exactly if what it has
appended in the end does not fit (`filled`): its steps are followed by `filled_bind_eq_filled`.
-/

namespace Bounded

universe u v w

/-- How a computation ends without a result. -/
inductive Stop (β : Type u)
  | refused
  /-- an access outside the buffer -/
  | outside (buffer : β)
  deriving DecidableEq, Repr

variable {β : Type u} {α σ τ : Type v} {γ δ : Type w}

/-! ## Accessors -/

/-- Refuse the input if the test says so. -/
def refuseIf (p : Prop) [Decidable p] : Except (Stop β) PUnit.{v + 1} :=
  if p then .error .refused else .ok ⟨⟩

/-- The element at a position. -/
def readAt (buffer : β) (xs : List α) (i : Nat) : Except (Stop β) α :=
  match xs[i]? with
  | some a => .ok a
  | none => .error (.outside buffer)

/-- The `len` elements from a position on. -/
def readRange (buffer : β) (xs : List α) (i len : Nat) :
    Except (Stop β) {ys : List α // ys.length = len} :=
  if h : i + len ≤ xs.length then .ok ⟨(xs.drop i).take len, by simp; omega⟩
  else .error (.outside buffer)

/-- The buffer with these elements written from a position on. -/
def writeRange (buffer : β) (xs : List α) (i : Nat) (ys : List α) : Except (Stop β) (List α) :=
  if i + ys.length ≤ xs.length then .ok (xs.take i ++ ys ++ xs.drop (i + ys.length))
  else .error (.outside buffer)

/-- A buffer of which the front is in use, with these elements written after that. -/
def append (buffer : β) (cap : Nat) (xs : {xs : List α // xs.length ≤ cap}) (ys : List α) :
    Except (Stop β) {xs : List α // xs.length ≤ cap} :=
  if h : xs.val.length + ys.length ≤ cap then .ok ⟨xs.val ++ ys, by simpa using h⟩
  else .error (.outside buffer)

/-! ## Refinement -/

/-- The computation stays inside its buffers and does what the function does. -/
inductive Refines (R : σ → γ → Prop) : Except (Stop β) σ → Option γ → Prop
  | ok {s : σ} {c : γ} : R s c → Refines R (.ok s) (some c)
  | refused : Refines R (.error .refused) none

namespace Refines

variable {R : σ → γ → Prop} {S : τ → δ → Prop} {x : Except (Stop β) σ} {y : Option γ}

theorem ne_outside (h : Refines R x y) (buffer : β) : x ≠ .error (.outside buffer) := by
  cases h <;> exact nofun

theorem exists_of_ok (h : Refines R x y) {s : σ} (hs : x = .ok s) : ∃ c, y = some c ∧ R s c := by
  subst hs
  cases h with
  | ok hR => exact ⟨_, rfl, hR⟩

theorem mono {R' : σ → γ → Prop} (h : Refines R x y) (himp : ∀ s c, R s c → R' s c) :
    Refines R' x y := by
  cases h with
  | ok hR => exact .ok (himp _ _ hR)
  | refused => exact .refused

theorem bind {f : σ → Except (Stop β) τ} {g : γ → Option δ} (h : Refines R x y)
    (hfg : ∀ s c, R s c → Refines S (f s) (g c)) : Refines S (x >>= f) (y.bind g) := by
  cases h with
  | ok hR => exact hfg _ _ hR
  | refused => exact .refused

/-- The function gives its result in another form. -/
theorem map_right {S : σ → δ → Prop} {g : γ → δ} (h : Refines R x y)
    (hg : ∀ s c, R s c → S s (g c)) : Refines S x (y.map g) := by
  cases h with
  | ok hR => exact .ok (hg _ _ hR)
  | refused => exact .refused

theorem refuseIf_bind {p q : Prop} [Decidable p] [Decidable q] {f : PUnit → Except (Stop β) σ}
    (hpq : p ↔ q) (h : ¬ p → Refines R (f ⟨⟩) y) :
    Refines R (refuseIf p >>= f) (if q then none else y) := by
  by_cases hp : p
  · rw [if_pos (hpq.mp hp), refuseIf, if_pos hp]
    exact .refused
  · rw [if_neg fun hq => hp (hpq.mpr hq), refuseIf, if_neg hp]
    exact h hp

/-- The function goes on with the test's outcome. -/
theorem refuseIf_bind_dite {p q : Prop} [Decidable p] [Decidable q]
    {f : PUnit → Except (Stop β) σ} {y : ¬ q → Option γ} (hpq : p ↔ q)
    (h : ∀ hq, Refines R (f ⟨⟩) (y hq)) :
    Refines R (refuseIf p >>= f) (if hq : q then none else y hq) := by
  by_cases hq : q
  · rw [dif_pos hq, refuseIf, if_pos (hpq.mpr hq)]
    exact .refused
  · rw [dif_neg hq, refuseIf, if_neg fun hp => hq (hpq.mp hp)]
    exact h hq

theorem pass_bind {p : Prop} [Decidable p] {f : PUnit → Except (Stop β) σ} (hp : ¬ p)
    (h : Refines R (f ⟨⟩) y) : Refines R (refuseIf p >>= f) y := by
  rw [refuseIf, if_neg hp]
  exact h

theorem readAt_bind {buffer : β} {xs : List α} {i : Nat} {a : α} {f : α → Except (Stop β) σ}
    (hi : xs[i]? = some a) (h : Refines R (f a) y) : Refines R (readAt buffer xs i >>= f) y := by
  rw [readAt, hi]
  exact h

theorem readRange_bind {buffer : β} {xs : List α} {i len : Nat}
    {f : {ys : List α // ys.length = len} → Except (Stop β) σ} (hi : i + len ≤ xs.length)
    (h : ∀ ys, ys.val = (xs.drop i).take len → Refines R (f ys) y) :
    Refines R (readRange buffer xs i len >>= f) y := by
  rw [readRange, dif_pos hi]
  exact h _ rfl

theorem append_bind {buffer : β} {cap : Nat} {xs : {xs : List α // xs.length ≤ cap}}
    {ys : List α} {f : {xs : List α // xs.length ≤ cap} → Except (Stop β) σ}
    (hfits : xs.val.length + ys.length ≤ cap)
    (h : ∀ zs, zs.val = xs.val ++ ys → Refines R (f zs) y) :
    Refines R (append buffer cap xs ys >>= f) y := by
  rw [append, dif_pos hfits]
  exact h _ rfl

end Refines

/-! ## Appending only -/

section Appending

variable {buffer : β} {cap : Nat}

/-- A buffer with these elements in its front, if they fit. -/
def filled (buffer : β) (cap : Nat) (xs : List α) :
    Except (Stop β) {xs : List α // xs.length ≤ cap} :=
  if h : xs.length ≤ cap then .ok ⟨xs, h⟩ else .error (.outside buffer)

theorem filled_of_le {xs : List α} (h : xs.length ≤ cap) : filled buffer cap xs = .ok ⟨xs, h⟩ :=
  dif_pos h

theorem filled_of_lt {xs : List α} (h : cap < xs.length) :
    filled buffer cap xs = .error (.outside buffer) :=
  dif_neg (Nat.not_le.mpr h)

/-- Nothing was appended. -/
theorem filled_val (xs : {xs : List α // xs.length ≤ cap}) : filled buffer cap xs.val = .ok xs :=
  filled_of_le xs.property

theorem append_eq_filled (xs : {xs : List α // xs.length ≤ cap}) (ys : List α) :
    append buffer cap xs ys = filled buffer cap (xs.val ++ ys) := by
  rw [append, filled]
  simp only [List.length_append]

/-- **A step** of such a computation: what does not fit now does not fit in the end. -/
theorem filled_bind_eq_filled {xs zs : List α}
    {f : {xs : List α // xs.length ≤ cap} → Except (Stop β) {xs : List α // xs.length ≤ cap}}
    (hle : xs.length ≤ zs.length) (h : ∀ ys, ys.val = xs → f ys = filled buffer cap zs) :
    filled buffer cap xs >>= f = filled buffer cap zs := by
  rcases Nat.lt_or_ge cap xs.length with hlt | hge
  · rw [filled_of_lt hlt, filled_of_lt (Nat.lt_of_lt_of_le hlt hle)]
    rfl
  · rw [filled_of_le hge]
    exact h _ rfl

end Appending

end Bounded

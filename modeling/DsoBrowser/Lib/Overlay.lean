import Mathlib.Data.List.Basic

/-!
# Runs of cells written over each other

A memory of which runs of cells are written one after the other has in each cell what the last of
the writes that cover the cell puts there (`written_eq`). So what a write puts there is kept under
later ones if and only if the last of these puts the same there (`kept_iff`).
-/

namespace Overlay

universe u

/-- A run of cells and what is put there. -/
structure Write (α : Type u) where
  pos : Nat
  cells : List α

variable {α : Type u}

namespace Write

/-- What a write puts into a cell. -/
def cell? (w : Write α) (p : Nat) : Option α := if w.pos ≤ p then w.cells[p - w.pos]? else none

/-- The memory after a write. -/
def apply (m : Nat → α) (w : Write α) : Nat → α := fun p => (w.cell? p).getD (m p)

theorem cell?_add (w : Write α) (j : Nat) : w.cell? (w.pos + j) = w.cells[j]? := by
  rw [cell?, if_pos (Nat.le_add_right _ _), Nat.add_sub_cancel_left]

theorem cell?_of_lt {w : Write α} {p : Nat} (h : p < w.pos) : w.cell? p = none :=
  if_neg (Nat.not_le.mpr h)

end Write

/-- What the last of the writes that cover a cell puts there. -/
def last (p : Nat) : List (Write α) → Option α
  | [] => none
  | w :: ws => (last p ws).or (w.cell? p)

/-- The memory after all of them. -/
def written (m : Nat → α) (ws : List (Write α)) : Nat → α := ws.foldl Write.apply m

@[simp] theorem last_nil (p : Nat) : last p ([] : List (Write α)) = none := rfl

theorem last_append (p : Nat) (ws ws' : List (Write α)) :
    last p (ws ++ ws') = (last p ws').or (last p ws) := by
  induction ws with
  | nil => exact (Option.or_none).symm
  | cons w ws ih => rw [List.cons_append, last, ih, last, Option.or_assoc]

/-- **The last write** to a cell is what is left there. -/
theorem written_eq (ws : List (Write α)) (p : Nat) : ∀ m : Nat → α,
    written m ws p = (last p ws).getD (m p) := by
  induction ws with
  | nil => exact fun _ => rfl
  | cons w ws ih =>
    intro m
    change written (Write.apply m w) ws p = _
    rw [ih, last]
    cases last p ws <;> rfl

/-- **What a write puts there is kept** if the last of the later ones puts the same there. -/
theorem kept_iff {w : Write α} {j : Nat} {a : α} (h : w.cells[j]? = some a) (ws : List (Write α)) :
    last (w.pos + j) (w :: ws) = some a ↔ ∀ b, last (w.pos + j) ws = some b → b = a := by
  rw [last, w.cell?_add, h]
  cases last (w.pos + j) ws with
  | none => exact iff_of_true rfl fun b hb => by cases hb
  | some b =>
    refine ⟨fun hb b' hb' => ?_, fun hb => congrArg some (hb b rfl)⟩
    exact Option.some.inj (hb'.symm.trans hb)

/-- Where a write puts something, something is put. -/
theorem exists_last {w : Write α} {j : Nat} {a : α} (h : w.cells[j]? = some a)
    (ws : List (Write α)) : ∃ b, last (w.pos + j) (w :: ws) = some b := by
  rw [last, w.cell?_add, h]
  cases last (w.pos + j) ws with
  | none => exact ⟨a, rfl⟩
  | some b => exact ⟨b, rfl⟩

end Overlay

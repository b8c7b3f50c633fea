import DsoBrowser.Lib.FirstMax
import Mathlib.Data.List.Perm.Basic
import Mathlib.Order.OrderDual

/-!
# Selection sort

Sorting an array in place: row by row, the first least of the rows from there on is swapped with the
row there. The rows before that one are not touched again, so a round is a function of the rows
from its own on (`selectRound`), and the sort goes on with those behind (`selectionSort`).

The sort permutes the rows (`selectionSort_perm`) and leaves them in ascending order
(`pairwise_selectionSort`). Cut at any length, what is kept lies below what is not
(`le_of_cut`).
-/

namespace SelectionSort

open FirstMax

universe u v

variable {α : Type u} {β : Type v} [LinearOrder β] (w : α → β)

/-- The inner loop: where the first least of the rows is, counted from `a`. -/
def leastFrom (a : α) (l : List α) : Nat :=
  (scan (fun b => OrderDual.toDual (w b)) l 1 (some 0) (OrderDual.toDual (w a))).getD 0

/-- Swap the row in front with the one at a position. -/
def swapFront (a : α) (l : List α) : Nat → α × List α
  | 0 => (a, l)
  | k + 1 => (l[k]?.getD a, l.set k a)

/-- One round: the row that is then in front, and those behind it. -/
def selectRound (a : α) (l : List α) : α × List α := swapFront a l (leastFrom w a l)

/-- The outer loop, for so many rounds. -/
def selectionSort : Nat → List α → List α
  | 0, l => l
  | _ + 1, [] => []
  | n + 1, a :: l => (selectRound w a l).1 :: selectionSort n (selectRound w a l).2

variable {w}

/-- The row in front after a round is a least one, and no row is lost. -/
theorem selectRound_spec (a : α) (l : List α) :
    ((selectRound w a l).1 :: (selectRound w a l).2).Perm (a :: l) ∧
      ∀ b ∈ (selectRound w a l).2, w (selectRound w a l).1 ≤ w b := by
  rw [selectRound, leastFrom]
  rcases scan_cases (w := fun b => OrderDual.toDual (w b)) l 1 (some 0)
      (OrderDual.toDual (w a)) with ⟨hkeep, hmax⟩ | ⟨j, b, hscan, hfirst, hlt⟩
  · rw [hkeep]
    exact ⟨List.Perm.refl _, fun b hb => OrderDual.toDual_le_toDual.mp (hmax b hb)⟩
  · -- the row at `j` and the one in front change places
    rw [hscan, Option.getD_some, Nat.add_comm 1 j, swapFront, hfirst.row, Option.getD_some]
    obtain ⟨hj, rfl⟩ := List.getElem?_eq_some_iff.mp hfirst.row
    have hperm : (l[j] :: l.set j a).Perm (a :: l) :=
      ((List.set_perm_cons_eraseIdx hj a).cons _).trans
        ((List.Perm.swap ..).trans ((List.getElem_cons_eraseIdx_perm hj).cons a))
    refine ⟨hperm, fun c hc => ?_⟩
    rcases List.mem_cons.mp (hperm.subset (List.mem_cons_of_mem _ hc)) with rfl | hc
    · exact (OrderDual.toDual_lt_toDual.mp hlt).le
    · exact OrderDual.toDual_le_toDual.mp (hfirst.greatest c hc)

/-- The sort permutes the rows. -/
theorem selectionSort_perm (n : Nat) (l : List α) : (selectionSort w n l).Perm l := by
  induction n generalizing l with
  | zero => exact List.Perm.refl _
  | succ n ih =>
    cases l with
    | nil => exact List.Perm.refl _
    | cons a l => exact ((ih _).cons _).trans (selectRound_spec a l).1

/-- **Sorted.** With a round for each row, the rows are in ascending order. -/
theorem pairwise_selectionSort {n : Nat} {l : List α} (hn : l.length ≤ n) :
    (selectionSort w n l).Pairwise fun a b => w a ≤ w b := by
  induction n generalizing l with
  | zero =>
    obtain rfl := List.eq_nil_of_length_eq_zero (Nat.le_zero.mp hn)
    exact List.Pairwise.nil
  | succ n ih =>
    cases l with
    | nil => exact List.Pairwise.nil
    | cons a l =>
      obtain ⟨hperm, hleast⟩ := selectRound_spec (w := w) a l
      have hlen := hperm.length_eq
      rw [List.length_cons, List.length_cons] at hlen
      rw [List.length_cons] at hn
      rw [selectionSort, List.pairwise_cons]
      exact ⟨fun b hb => hleast b ((selectionSort_perm n _).subset hb), ih (by omega)⟩

/-- What is cut off an ascending list lies above what is kept. -/
theorem le_of_cut {l : List α} (h : l.Pairwise fun a b => w a ≤ w b) {m : Nat} {a b : α}
    (ha : a ∈ l.take m) (hb : b ∈ l.drop m) : w a ≤ w b := by
  rw [← List.take_append_drop m l, List.pairwise_append] at h
  exact h.2.2 a ha b hb

end SelectionSort

import Mathlib.Data.List.Basic

/-!
# Tables whose rows are referred to by position

Taking a row out of an array moves every later row down by one, so whatever refers to rows by
position has to follow:

* `closeGap` — where a row is after the one at `p` is gone: still inside the table
  (`closeGap_lt`), the same row (`getElem?_eraseIdx_closeGap`), and different rows stay different
  (`closeGap_inj`);
* `sweep` — the backward loop that takes out every row that meets a test, position by position.
  It is the filter it is meant to be (`sweep_length`), because going backwards it has seen the rows
  that move.
-/

namespace Positions

universe u v

variable {α : Type u} {γ : Type v}

/-! ## Closing the gap -/

/-- The position of row `i` after the row at `p` is taken out. -/
def closeGap (p i : Nat) : Nat := if p < i then i - 1 else i

theorem closeGap_lt {p i n : Nat} (hp : p < n) (hne : i ≠ p) (hi : i < n) :
    closeGap p i < n - 1 := by
  rw [closeGap]
  split <;> omega

/-- Different rows stay different. -/
theorem closeGap_inj {p i j : Nat} (hi : i ≠ p) (hj : j ≠ p) (h : closeGap p i = closeGap p j) :
    i = j := by
  rw [closeGap, closeGap] at h
  split at h <;> split at h <;> omega

/-- A row that stays is found at its new position. -/
theorem getElem?_eraseIdx_closeGap (l : List α) {p i : Nat} (hne : i ≠ p) :
    (l.eraseIdx p)[closeGap p i]? = l[i]? := by
  rw [closeGap, List.getElem?_eraseIdx]
  split
  · rename_i hlt
    rw [if_neg (by omega), Nat.sub_add_cancel (Nat.one_le_of_lt hlt)]
  · rw [if_pos (by omega)]

/-! ## Sweeping -/

/-- Take out the rows that meet the test, from position `i - 1` down to `0`. -/
def sweep (test : α → Bool) : Nat → List α → List α
  | 0, l => l
  | i + 1, l => if (l[i]?).any test then sweep test i (l.eraseIdx i) else sweep test i l

/-- What the loop has still to look at is filtered, and what it has seen stays. -/
theorem sweep_eq (test : α → Bool) (i : Nat) :
    ∀ {l : List α}, i ≤ l.length →
      sweep test i l = (l.take i).filter (fun a => !test a) ++ l.drop i := by
  induction i with
  | zero =>
    intro l _
    rfl
  | succ i ih =>
    intro l hi
    have hrow : l[i]? = some l[i] := List.getElem?_eq_getElem hi
    have htake : l.take (i + 1) = l.take i ++ [l[i]] := by
      rw [List.take_add_one, hrow]
      rfl
    have hdrop : l.drop i = l[i] :: l.drop (i + 1) := List.drop_eq_getElem_cons hi
    rw [sweep, hrow, Option.any_some, htake, List.filter_append]
    split
    · -- the row goes, and what comes after it moves down
      rename_i htest
      have herase : l.eraseIdx i = l.take i ++ l.drop (i + 1) := List.eraseIdx_eq_take_drop_succ ..
      have hlen : (l.take i).length = i := List.length_take_of_le (Nat.le_of_succ_le hi)
      rw [ih (by rw [List.length_eraseIdx_of_lt hi]; omega), herase, List.take_left' hlen,
        List.drop_left' hlen, List.filter_cons_of_neg (by simp [htest]), List.filter_nil,
        List.append_nil]
    · rename_i htest
      rw [ih (Nat.le_of_succ_le hi), hdrop, List.filter_cons_of_pos (by simpa using htest),
        List.filter_nil, List.append_assoc]
      rfl

/-- **Sweeping** the whole table filters it. -/
theorem sweep_length (test : α → Bool) (l : List α) :
    sweep test l.length l = l.filter fun a => !test a := by
  rw [sweep_eq test l.length (Nat.le_refl _), List.take_length, List.drop_length, List.append_nil]

/-! ## References -/

/-- A row is changed in what it is read as. -/
theorem map_modify {β : Type*} {l : List α} {i : Nat} {f : α → α} {g : α → β} {f' : β → β}
    (h : ∀ a, g (f a) = f' (g a)) : (l.modify i f).map g = (l.map g).modify i f' := by
  apply List.ext_getElem?
  intro j
  rw [List.getElem?_map, List.getElem?_modify, List.getElem?_modify, List.getElem?_map]
  cases l[j]? with
  | none => rfl
  | some a =>
    simp only [Option.map_some, Option.map_eq_map]
    split
    · rw [h]
    · rfl

/-- The references after the row at `p` is taken out: none to it, and the others moved along. -/
def detach (p : Nat) (refs : List (γ × Nat)) : List (γ × Nat) :=
  (refs.filter fun r => !decide (r.2 = p)).map (Prod.map id (closeGap p))

/-- What the references refer to. -/
def follow (rows : List α) (refs : List (γ × Nat)) : List (γ × Option α) :=
  refs.map (Prod.map id (rows[·]?))

theorem follow_map {β : Type*} (f : α → β) (rows : List α) (refs : List (γ × Nat)) :
    follow (rows.map f) refs = (follow rows refs).map (Prod.map id (Option.map f)) := by
  rw [follow, follow, List.map_map]
  exact List.map_congr_left fun r _ => Prod.ext rfl List.getElem?_map

/-- **Taking out one row** leaves the references to the others, to the rows they referred to. -/
theorem follow_detach (rows : List α) (p : Nat) (refs : List (γ × Nat)) :
    follow (rows.eraseIdx p) (detach p refs) =
      follow rows (refs.filter fun r => !decide (r.2 = p)) := by
  rw [follow, follow, detach, List.map_map]
  refine List.map_congr_left fun r hr => ?_
  have hne : r.2 ≠ p := by simpa using (List.mem_filter.mp hr).2
  exact Prod.ext rfl (getElem?_eraseIdx_closeGap rows hne)

/-- Take out the rows that meet the test, from position `i - 1` down to `0`, and the references to
them. -/
def sweepWith (test : α → Bool) : Nat → List α × List (γ × Nat) → List α × List (γ × Nat)
  | 0, t => t
  | i + 1, t =>
    if (t.1[i]?).any test then sweepWith test i (t.1.eraseIdx i, detach i t.2)
    else sweepWith test i t

theorem sweepWith_fst (test : α → Bool) (i : Nat) : ∀ (t : List α × List (γ × Nat)),
    (sweepWith test i t).1 = sweep test i t.1 := by
  induction i with
  | zero => exact fun _ => rfl
  | succ i ih =>
    intro t
    rw [sweepWith, sweep]
    split
    · exact ih _
    · exact ih t

/-- The rows below `i` that the loop has still to take out are those it takes out after the one at
`i` is gone. -/
theorem closeGap_swept_iff {rows : List α} {test : α → Bool} {i j : Nat} (hne : j ≠ i) :
    (closeGap i j < i ∧ ((rows.eraseIdx i)[closeGap i j]?).any test = true) ↔
      (j < i + 1 ∧ (rows[j]?).any test = true) := by
  rw [getElem?_eraseIdx_closeGap rows hne]
  refine and_congr_left fun _ => ?_
  rw [closeGap]
  split <;> omega

/-- The loop takes out the references to the rows it takes out. -/
theorem follow_sweepWith_of_le (test : α → Bool) (i : Nat) :
    ∀ (rows : List α) (refs : List (γ × Nat)),
      follow (sweepWith test i (rows, refs)).1 (sweepWith test i (rows, refs)).2 =
        follow rows (refs.filter fun r => !decide (r.2 < i ∧ (rows[r.2]?).any test = true)) := by
  induction i with
  | zero =>
    intro rows refs
    simp [sweepWith]
  | succ i ih =>
    intro rows refs
    rw [sweepWith]
    split
    · rename_i htest
      -- the references to the row at `i` go first, the others are followed to where they refer now
      have hrest : (detach i refs).filter (fun r => !decide (r.2 < i ∧
            ((rows.eraseIdx i)[r.2]?).any test = true)) =
          detach i (refs.filter fun r => !decide (r.2 < i + 1 ∧ (rows[r.2]?).any test = true)) := by
        rw [detach, detach, List.filter_map, List.filter_filter, List.filter_filter]
        refine congrArg _ (List.filter_congr fun r _ => ?_)
        rw [Bool.and_comm]
        by_cases he : r.2 = i
        · simp [he]
        · simp only [Function.comp_apply, Prod.map_snd, closeGap_swept_iff he]
      rw [ih, hrest, follow_detach, List.filter_filter]
      refine congrArg _ (List.filter_congr fun r _ => ?_)
      by_cases he : r.2 = i
      · simpa [he] using htest
      · simp [he]
    · rename_i htest
      rw [ih]
      refine congrArg _ (List.filter_congr fun r _ => ?_)
      by_cases he : r.2 = i
      · simp [he, Bool.not_eq_true _ ▸ htest]
      · have hiff : r.2 < i ↔ r.2 < i + 1 := by omega
        simp only [hiff]

/-- **Sweeping** leaves the rows that do not meet the test and the references to them. -/
theorem follow_sweepWith (test : α → Bool) (rows : List α) (refs : List (γ × Nat)) :
    follow (rows.filter fun a => !test a) (sweepWith test rows.length (rows, refs)).2 =
      follow rows (refs.filter fun r => !(rows[r.2]?).any test) := by
  have hall := follow_sweepWith_of_le test rows.length rows refs
  rw [sweepWith_fst, sweep_length] at hall
  refine hall.trans (congrArg _ (List.filter_congr fun r _ => ?_))
  by_cases hlt : r.2 < rows.length
  · simp [hlt]
  · simp [hlt]

end Positions

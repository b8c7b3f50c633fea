import Mathlib.Algebra.GroupWithZero.Nat
import Mathlib.Data.Finmap
import Mathlib.Data.List.Perm.Basic
import Mathlib.Data.List.Nodup

/-!
# Tables: an array searched from the front, shrunk by swap-remove

The rows of such a table are a list. A row is found by scanning from position `0`; a row is
removed by overwriting it with the last one and dropping the last position, so removal
permutes the rows that stay.

* `swapRemove` — that removal, and the permutation it amounts to (`swapRemove_perm`);
* `total` — the sum of a weight over the rows, and what each table operation does to it;
* `row` — the row a scan for a key finds, and what each table operation does to it;
* `Represents` — the table stands for a finite map: keys pairwise distinct, and the value
  found under each key is the map's. Every operation on a representing table is the matching
  `Finmap` operation.

The in-place updates are stated for an index a scan returned, so a client whose scan is not
by key equality only has to show that its scan finds the same index.
-/

namespace Table

universe u v w

variable {α : Type u} {κ : Type v} {β : Type w}

/-! ## Swap-remove -/

/-- Overwrite position `i` with the last row, then drop the last position. -/
def swapRemove (l : List α) (i : Nat) : List α :=
  match l.getLast? with
  | none => []
  | some last => (l.set i last).dropLast

/-- The rows that stay after a swap-remove, up to order. -/
theorem swapRemove_perm {l : List α} {i : Nat} (hi : i < l.length) :
    (swapRemove l i).Perm (l.eraseIdx i) := by
  obtain ⟨init, last, rfl⟩ : ∃ init last, l = init ++ [last] :=
    ⟨l.dropLast, l.getLast (by rintro rfl; simp at hi), (List.dropLast_append_getLast _).symm⟩
  rw [List.length_append, List.length_singleton] at hi
  simp only [swapRemove, List.getLast?_concat]
  rcases Nat.lt_or_ge i init.length with hlt | hge
  · rw [List.set_append_left _ _ hlt, List.dropLast_concat,
      List.eraseIdx_append_of_lt_length hlt]
    exact (List.set_perm_cons_eraseIdx hlt last).trans (List.perm_append_singleton _ _).symm
  · obtain rfl : i = init.length := by omega
    rw [List.set_append_right _ _ hge, List.eraseIdx_append_of_length_le hge]
    simp

/-- Swap-remove takes out exactly the row it was aimed at. -/
theorem cons_swapRemove_perm {l : List α} {i : Nat} {a : α} (h : l[i]? = some a) :
    (a :: swapRemove l i).Perm l := by
  obtain ⟨hi, rfl⟩ := List.getElem?_eq_some_iff.mp h
  exact ((swapRemove_perm hi).cons _).trans (List.getElem_cons_eraseIdx_perm hi)

theorem length_swapRemove {l : List α} {i : Nat} (hi : i < l.length) :
    (swapRemove l i).length + 1 = l.length := by
  have hperm := (cons_swapRemove_perm (List.getElem?_eq_getElem hi)).length_eq
  rwa [List.length_cons] at hperm

/-- The last row fills the gap. -/
theorem getElem?_swapRemove_self {l : List α} {i : Nat} (hi : i + 1 < l.length) :
    (swapRemove l i)[i]? = l[l.length - 1]? := by
  rw [swapRemove, List.getLast?_eq_getElem?]
  have hlast : l.length - 1 < l.length := by omega
  rw [List.getElem?_eq_getElem hlast]
  dsimp only
  rw [List.getElem?_dropLast, List.length_set, if_pos (by omega), List.getElem?_set_self (by omega)]

/-- The other rows but the last stand still. -/
theorem getElem?_swapRemove_ne {l : List α} {i p : Nat} (hne : p ≠ i) (hp : p + 1 < l.length) :
    (swapRemove l i)[p]? = l[p]? := by
  rw [swapRemove, List.getLast?_eq_getElem?]
  have hlast : l.length - 1 < l.length := by omega
  rw [List.getElem?_eq_getElem hlast]
  dsimp only
  rw [List.getElem?_dropLast, List.length_set, if_pos (by omega), List.getElem?_set_ne (Ne.symm hne)]

/-! ## Totals -/

section Total

variable (w : α → Nat)

/-- The sum of a weight over the rows. -/
def total (l : List α) : Nat := (l.map w).sum

@[simp] theorem total_nil : total w [] = 0 := rfl

@[simp] theorem total_cons (a : α) (l : List α) : total w (a :: l) = w a + total w l := rfl

theorem total_concat (l : List α) (a : α) : total w (l ++ [a]) = total w l + w a := by
  rw [total, List.map_append, List.sum_append]
  simp [total]

variable {w}

theorem total_perm {l l' : List α} (h : l.Perm l') : total w l = total w l' :=
  (h.map w).sum_nat

/-- A swap-remove takes the weight of the row it removes. -/
theorem total_swapRemove {l : List α} {i : Nat} {a : α} (h : l[i]? = some a) :
    w a + total w (swapRemove l i) = total w l :=
  total_perm (cons_swapRemove_perm h)

/-- An update replaces the weight of the row it updates. -/
theorem total_modify {l : List α} {i : Nat} {a : α} (h : l[i]? = some a) (f : α → α) :
    w a + total w (l.modify i f) = w (f a) + total w l := by
  obtain ⟨hi, rfl⟩ := List.getElem?_eq_some_iff.mp h
  have hset : l.modify i f = l.set i (f l[i]) := by
    rw [List.modify_eq_set_getElem?, h]
    rfl
  have hnew : total w (l.set i (f l[i])) = w (f l[i]) + total w (l.eraseIdx i) :=
    total_perm (List.set_perm_cons_eraseIdx hi _)
  have hold : w l[i] + total w (l.eraseIdx i) = total w l :=
    total_perm (List.getElem_cons_eraseIdx_perm hi)
  rw [hset, hnew]
  omega

theorem total_le_mul {l : List α} {k : Nat} (h : ∀ a ∈ l, w a ≤ k) :
    total w l ≤ l.length * k := by
  induction l with
  | nil => simp
  | cons a l ih =>
    have ha := h a List.mem_cons_self
    have hl := ih fun b hb => h b (List.mem_cons_of_mem _ hb)
    rw [total_cons, List.length_cons, Nat.succ_mul]
    omega

end Total

/-! ## In-place updates -/

/-- The first row an update could touch is found where the scan found it. -/
theorem mem_modify {l : List α} {i : Nat} {f : α → α} {b : α} (h : b ∈ l.modify i f) :
    b ∈ l ∨ ∃ a, l[i]? = some a ∧ b = f a := by
  obtain ⟨j, hj⟩ := List.mem_iff_getElem?.mp h
  rcases eq_or_ne i j with rfl | hne
  · rw [List.getElem?_modify_eq] at hj
    obtain ⟨a, ha, rfl⟩ := Option.map_eq_some_iff.mp hj
    exact Or.inr ⟨a, ha, rfl⟩
  · rw [List.getElem?_modify_ne _ _ hne] at hj
    exact Or.inl (List.mem_iff_getElem?.mpr ⟨j, hj⟩)

/-- An update that keeps `g` keeps the table as seen through `g`. -/
theorem map_modify_of_comp {l : List α} {i : Nat} {f : α → α} {g : α → β}
    (h : ∀ a, g (f a) = g a) : (l.modify i f).map g = l.map g := by
  apply List.ext_getElem?
  intro j
  rcases eq_or_ne i j with rfl | hne
  · rw [List.getElem?_map, List.getElem?_modify_eq, List.getElem?_map]
    cases l[i]? with
    | none => rfl
    | some a => exact congrArg some (h a)
  · rw [List.getElem?_map, List.getElem?_modify_ne _ _ hne, List.getElem?_map]

/-! ## Tables cut at a row -/

theorem getElem?_append_cons (l₁ : List α) (a : α) (l₂ : List α) :
    (l₁ ++ a :: l₂)[l₁.length]? = some a := by
  simp

theorem modify_append_cons (l₁ : List α) (a : α) (l₂ : List α) (f : α → α) :
    (l₁ ++ a :: l₂).modify l₁.length f = l₁ ++ f a :: l₂ := by
  rw [List.modify_eq_set_getElem?]
  simp

/-- The first row a test accepts. -/
theorem findIdx?_append_cons {l₁ l₂ : List α} {a : α} {p : α → Bool}
    (h₁ : ∀ b ∈ l₁, p b = false) (ha : p a = true) :
    (l₁ ++ a :: l₂).findIdx? p = some l₁.length := by
  rw [List.findIdx?_append, List.findIdx?_eq_none_iff.mpr h₁, List.findIdx?_cons, ha]
  simp

theorem swapRemove_append_cons_perm (l₁ : List α) (a : α) (l₂ : List α) :
    (swapRemove (l₁ ++ a :: l₂) l₁.length).Perm (l₁ ++ l₂) :=
  ((cons_swapRemove_perm (getElem?_append_cons l₁ a l₂)).trans List.perm_middle).cons_inv

/-- The rows before the removed one stand still. -/
theorem swapRemove_append_cons (l₁ : List α) (a : α) (l₂ : List α) :
    ∃ l₂', l₂'.Perm l₂ ∧ swapRemove (l₁ ++ a :: l₂) l₁.length = l₁ ++ l₂' := by
  rcases eq_or_ne l₂ [] with rfl | hne
  · refine ⟨[], List.Perm.refl _, ?_⟩
    simp [swapRemove]
  · obtain ⟨init, last, rfl⟩ : ∃ init last, l₂ = init ++ [last] :=
      ⟨l₂.dropLast, l₂.getLast hne, (List.dropLast_append_getLast hne).symm⟩
    refine ⟨last :: init, (List.perm_append_singleton last init).symm, ?_⟩
    have hlast : (l₁ ++ a :: (init ++ [last])).getLast? = some last := by
      rw [← List.cons_append, ← List.append_assoc, List.getLast?_concat]
    simp only [swapRemove, hlast]
    rw [List.set_append_right _ _ le_rfl, Nat.sub_self, List.set_cons_zero, ← List.cons_append,
      ← List.append_assoc, List.dropLast_concat]

/-- A test accepts no row, or the table is cut at the first row it accepts. -/
theorem cut_at_first (p : α → Bool) (l : List α) :
    (∀ a ∈ l, p a = false) ∨
      ∃ l₁ a l₂, l = l₁ ++ a :: l₂ ∧ (∀ b ∈ l₁, p b = false) ∧ p a = true := by
  cases hf : l.filter p with
  | nil => exact Or.inl fun a ha => by simpa using List.filter_eq_nil_iff.mp hf a ha
  | cons a as =>
    obtain ⟨l₁, l₂, rfl, h₁, ha, -⟩ := List.filter_eq_cons_iff.mp hf
    exact Or.inr ⟨l₁, a, l₂, rfl, fun b hb => by simpa using h₁ b hb, ha⟩

/-- Two cuts of a table are the same cut, or each row stands on the other's far side. -/
theorem cut_compare {l₁ l₂ l₁' l₂' : List α} {a a' : α} (h : l₁ ++ a :: l₂ = l₁' ++ a' :: l₂') :
    a = a' ∨ (a' ∈ l₂ ∧ a ∈ l₁') ∨ (a ∈ l₂' ∧ a' ∈ l₁) := by
  rcases List.append_eq_append_iff.mp h with ⟨_ | ⟨b, bs⟩, rfl, hl⟩ | ⟨_ | ⟨b, bs⟩, rfl, hl⟩
  · exact Or.inl (List.cons.inj hl).1
  · obtain ⟨rfl, rfl⟩ := List.cons.inj hl
    exact Or.inr (Or.inl ⟨by simp, by simp⟩)
  · exact Or.inl (List.cons.inj hl).1.symm
  · obtain ⟨rfl, rfl⟩ := List.cons.inj hl
    exact Or.inr (Or.inr ⟨by simp, by simp⟩)

/-- Of rows of which no two belong together, one at most is counted. -/
theorem countP_eq_one {R : α → α → Prop} {l : List α} (h : l.Pairwise R) {p : α → Bool}
    (hp : ∀ a b, p a = true → p b = true → ¬ R a b) {a : α} (ha : a ∈ l) (hpa : p a = true) :
    l.countP p = 1 := by
  rw [List.countP_eq_length_filter]
  have hmem : a ∈ l.filter p := List.mem_filter.mpr ⟨ha, hpa⟩
  have hpair : (l.filter p).Pairwise R := h.filter p
  have hall : ∀ b ∈ l.filter p, p b = true := fun b hb => (List.mem_filter.mp hb).2
  match hl : l.filter p with
  | [] =>
    rw [hl] at hmem
    cases hmem
  | [_] => rfl
  | b :: c :: _ =>
    rw [hl] at hpair hall
    exact absurd (List.rel_of_pairwise_cons hpair List.mem_cons_self)
      (hp b c (hall b List.mem_cons_self)
        (hall c (List.mem_cons_of_mem _ List.mem_cons_self)))

/-! ## The row a scan finds -/

/-- Scans whose tests agree on every row find the same row. -/
theorem findIdx?_congr {l : List α} {p q : α → Bool} (h : ∀ a ∈ l, p a = q a) :
    l.findIdx? p = l.findIdx? q := by
  induction l with
  | nil => rfl
  | cons a l ih =>
    rw [List.findIdx?_cons, List.findIdx?_cons, h a List.mem_cons_self,
      ih fun b hb => h b (List.mem_cons_of_mem _ hb)]

/-- A scan stops no later than at a row that passes the test. -/
theorem findIdx?_le {l : List α} {p : α → Bool} {i : Nat} {a : α} (hi : l[i]? = some a)
    (ha : p a = true) : ∃ j ≤ i, l.findIdx? p = some j := by
  obtain ⟨hlt, rfl⟩ := List.getElem?_eq_some_iff.mp hi
  cases hj : l.findIdx? p with
  | none =>
    rw [List.findIdx?_eq_none_iff.mp hj _ (List.getElem_mem hlt)] at ha
    cases ha
  | some j =>
    obtain ⟨hjlt, -, hbefore⟩ := List.findIdx?_eq_some_iff_getElem.mp hj
    exact ⟨j, Nat.not_lt.mp fun hij => hbefore i hij ha, rfl⟩

/-! ## Tables that agree row by row -/

section RowByRow

variable {R : α → β → Prop} {l : List α} {l' : List β}

/-- Scans whose tests agree find the same position. -/
theorem findIdx?_of_forall₂ (h : List.Forall₂ R l l') {p : α → Bool} {q : β → Bool}
    (hpq : ∀ a b, R a b → p a = q b) : l.findIdx? p = l'.findIdx? q := by
  induction h with
  | nil => rfl
  | cons hab _ ih => rw [List.findIdx?_cons, List.findIdx?_cons, hpq _ _ hab, ih]

/-- The row at a position agrees with the row there. -/
theorem exists_getElem?_of_forall₂ (h : List.Forall₂ R l l') {i : Nat} {a : α}
    (hi : l[i]? = some a) : ∃ b, l'[i]? = some b ∧ R a b := by
  induction h generalizing i with
  | nil => cases hi
  | cons hab _ ih =>
    cases i with
    | zero =>
      obtain rfl := Option.some.inj hi
      exact ⟨_, rfl, hab⟩
    | succ i => exact ih hi

/-- Updates that keep them agreeing. -/
theorem forall₂_modify (h : List.Forall₂ R l l') {f : α → α} {g : β → β}
    (hfg : ∀ a b, R a b → R (f a) (g b)) (i : Nat) :
    List.Forall₂ R (l.modify i f) (l'.modify i g) := by
  induction h generalizing i with
  | nil =>
    rw [List.modify_nil, List.modify_nil]
    exact List.Forall₂.nil
  | cons hab hrest ih =>
    cases i with
    | zero => exact List.Forall₂.cons (hfg _ _ hab) hrest
    | succ i => exact List.Forall₂.cons hab (ih i)

/-- An update of the second table alone. -/
theorem forall₂_modify_right (h : List.Forall₂ R l l') {i : Nat} {g : β → β}
    (hg : ∀ a b, l[i]? = some a → R a b → R a (g b)) : List.Forall₂ R l (l'.modify i g) := by
  induction h generalizing i with
  | nil =>
    rw [List.modify_nil]
    exact List.Forall₂.nil
  | cons hab hrest ih =>
    cases i with
    | zero => exact List.Forall₂.cons (hg _ _ rfl hab) hrest
    | succ i => exact List.Forall₂.cons hab (ih hg)

end RowByRow

/-! ## Rows that pass -/

/-- Taking rows out leaves those that pass the test `q` if none of them is taken out. -/
theorem filter_filter_eq_iff {l : List α} {p q : α → Bool} :
    (l.filter p).filter q = l.filter q ↔ ∀ a ∈ l, q a = true → p a = true := by
  rw [List.filter_filter]
  constructor
  · intro h a ha hq
    have hmem : a ∈ l.filter fun a => q a && p a := h ▸ List.mem_filter.mpr ⟨ha, hq⟩
    exact (Bool.and_eq_true_iff.mp (List.mem_filter.mp hmem).2).2
  · intro h
    refine List.filter_congr fun a ha => ?_
    cases hq : q a with
    | false => rfl
    | true => exact h a ha hq

/-- The same where the rows left have been moved about. -/
theorem filter_perm_iff {l l' : List α} {p q : α → Bool} (hl : l'.Perm (l.filter p)) :
    (l'.filter q).Perm (l.filter q) ↔ ∀ a ∈ l, q a = true → p a = true := by
  constructor
  · intro h a ha hq
    have hmem := h.mem_iff.mpr (List.mem_filter.mpr ⟨ha, hq⟩)
    exact (List.mem_filter.mp (hl.mem_iff.mp (List.mem_filter.mp hmem).1)).2
  · intro h
    exact (hl.filter q).trans (List.Perm.of_eq (filter_filter_eq_iff.mpr h))

section Row

variable [DecidableEq κ] (key : α → κ)

/-- The first row with key `k`. -/
def row (l : List α) (k : κ) : Option α := l.find? fun a => decide (key a = k)

variable {key}

@[simp] theorem row_nil (k : κ) : row key ([] : List α) k = none := rfl

theorem row_cons (a : α) (l : List α) (k : κ) :
    row key (a :: l) k = if key a = k then some a else row key l k := by
  by_cases h : key a = k <;> simp [row, h]

theorem row_eq_none {l : List α} {k : κ} : row key l k = none ↔ ∀ a ∈ l, key a ≠ k := by
  simp [row]

theorem key_of_row {l : List α} {k : κ} {a : α} (h : row key l k = some a) : key a = k := by
  simpa using List.find?_some h

theorem mem_of_row {l : List α} {k : κ} {a : α} (h : row key l k = some a) : a ∈ l :=
  List.mem_of_find?_eq_some h

/-- A row appended at the end is found only if no earlier row has its key. -/
theorem row_concat (l : List α) (a : α) (k : κ) :
    row key (l ++ [a]) k = (row key l k).or (if key a = k then some a else none) := by
  rw [row, List.find?_append]
  by_cases h : key a = k <;> simp [row, h]

/-- The scan by key as a scan by index. -/
theorem row_eq_of_findIdx? {l : List α} {k : κ} {i : Nat}
    (hi : l.findIdx? (fun a => decide (key a = k)) = some i) : row key l k = l[i]? := by
  rw [row, List.find?_eq_bind_findIdx?_getElem?, hi]
  rfl

/-- Updating the row a scan for `k` finds changes what is found under `k` and nothing else. -/
theorem row_modify_first {l : List α} {k : κ} {i : Nat} {f : α → α}
    (hi : l.findIdx? (fun a => decide (key a = k)) = some i) (hf : ∀ a, key (f a) = key a)
    (k' : κ) :
    row key (l.modify i f) k' = if k' = k then (row key l k).map f else row key l k' := by
  induction l generalizing i with
  | nil => simp at hi
  | cons a l ih =>
    rw [List.findIdx?_cons] at hi
    by_cases hak : key a = k
    · obtain rfl : i = 0 := by simpa [hak] using hi.symm
      rw [List.modify_zero_cons, row_cons, row_cons, row_cons, hf, if_pos hak]
      by_cases hk : k' = k
      · rw [if_pos (hak.trans hk.symm), if_pos hk, Option.map_some]
      · rw [if_neg (fun h => hk (h.symm.trans hak)), if_neg hk]
        exact (if_neg (fun h => hk (h.symm.trans hak))).symm
    · simp only [hak, decide_false, Bool.false_eq_true, if_false] at hi
      obtain ⟨j, hj, rfl⟩ := Option.map_eq_some_iff.mp hi
      rw [List.modify_succ_cons, row_cons, ih hj, row_cons, row_cons, if_neg hak]
      by_cases hk : k' = k
      · subst hk
        rw [if_neg hak, if_pos rfl, if_pos rfl]
      · rw [if_neg hk, if_neg hk]

/-- An update that keeps keys keeps the row found under a key, or updates it. -/
theorem row_modify_cases {l : List α} {k : κ} {a : α} (h : row key l k = some a) (i : Nat)
    {f : α → α} (hf : ∀ a, key (f a) = key a) :
    row key (l.modify i f) k = some a ∨ row key (l.modify i f) k = some (f a) := by
  induction l generalizing i with
  | nil => cases h
  | cons b l ih =>
    rw [row_cons] at h
    cases i with
    | zero =>
      rw [List.modify_zero_cons, row_cons, hf]
      split at h
      · obtain rfl := Option.some.inj h
        rename_i hk
        exact Or.inr (if_pos hk)
      · rename_i hk
        exact Or.inl ((if_neg hk).trans h)
    | succ i =>
      rw [List.modify_succ_cons, row_cons]
      split at h
      · rename_i hk
        exact Or.inl ((if_pos hk).trans h)
      · rename_i hk
        rw [if_neg hk]
        exact ih h i

/-- A row is still found when another one is taken out. -/
theorem row_eraseIdx {l : List α} {k : κ} {a : α} (h : row key l k = some a) {i : Nat}
    (hi : l.findIdx? (fun a => decide (key a = k)) ≠ some i) :
    row key (l.eraseIdx i) k = some a := by
  induction l generalizing i with
  | nil => cases h
  | cons b l ih =>
    rw [row_cons] at h
    rw [List.findIdx?_cons] at hi
    split at h
    · rename_i hk
      cases i with
      | zero => exact absurd (if_pos (decide_eq_true hk)) hi
      | succ i =>
        rw [List.eraseIdx_cons_succ, row_cons, if_pos hk]
        exact h
    · rename_i hk
      cases i with
      | zero => exact h
      | succ i =>
        rw [List.eraseIdx_cons_succ, row_cons, if_neg hk]
        refine ih h fun hfound => hi ?_
        rw [decide_eq_false hk, hfound]
        rfl

/-- A row is still found among the rows that pass a test, if it passes. -/
theorem row_filter {l : List α} {k : κ} {a : α} (h : row key l k = some a) {p : α → Bool}
    (hp : p a = true) : row key (l.filter p) k = some a := by
  induction l with
  | nil => cases h
  | cons b l ih =>
    rw [row_cons] at h
    split at h
    · rename_i hk
      obtain rfl := Option.some.inj h
      rw [List.filter_cons_of_pos hp, row_cons, if_pos hk]
    · rename_i hk
      rw [List.filter_cons]
      split
      · rw [row_cons, if_neg hk]
        exact ih h
      · exact ih h

/-- An update that keeps keys and values keeps the value found under each key. -/
theorem row_map_modify_of_comp {key : α → κ} {val : α → β} {l : List α} {i : Nat} {f : α → α}
    (hkey : ∀ a, key (f a) = key a) (hval : ∀ a, val (f a) = val a) (k : κ) :
    (row key (l.modify i f) k).map val = (row key l k).map val := by
  have hmap : (l.modify i f).map (fun a => (key a, val a)) = l.map fun a => (key a, val a) :=
    map_modify_of_comp fun a => by rw [hkey, hval]
  have hrow : ∀ t : List α, (row key t k).map val =
      ((t.map fun a => (key a, val a)).find? fun p => decide (p.1 = k)).map Prod.snd := by
    intro t
    rw [List.find?_map, Option.map_map]
    rfl
  rw [hrow, hrow, hmap]

end Row

/-! ## Tables with distinct keys -/

section Keyed

variable (key : α → κ)

/-- No two rows have the same key. -/
def Keyed (l : List α) : Prop := (l.map key).Nodup

variable {key}

theorem Keyed.perm {l l' : List α} (h : Keyed key l) (hp : l.Perm l') : Keyed key l' :=
  (hp.map key).nodup_iff.mp h

/-- A table stays keyed when rows go. -/
theorem Keyed.subperm {l l' : List α} (h : Keyed key l) (hs : l'.Subperm l) : Keyed key l' := by
  obtain ⟨l'', hp, hsub⟩ := hs
  exact Keyed.perm (List.Nodup.sublist (hsub.map key) h) hp

theorem Keyed.modify {l : List α} {i : Nat} {f : α → α} (h : Keyed key l)
    (hf : ∀ a, key (f a) = key a) : Keyed key (l.modify i f) := by
  rwa [Keyed, map_modify_of_comp hf]

theorem Keyed.concat {l : List α} {a : α} (h : Keyed key l) (ha : ∀ b ∈ l, key b ≠ key a) :
    Keyed key (l ++ [a]) := by
  rw [Keyed, List.map_append, List.nodup_append]
  refine ⟨h, by simp, ?_⟩
  rintro k hk k' hk' rfl
  obtain ⟨b, hb, rfl⟩ := List.mem_map.mp hk
  exact ha b hb (by simpa using hk')

theorem Keyed.swapRemove {l : List α} {i : Nat} (h : Keyed key l) (hi : i < l.length) :
    Keyed key (swapRemove l i) :=
  Keyed.perm (List.Nodup.sublist ((List.eraseIdx_sublist l i).map key) h)
    (swapRemove_perm hi).symm

/-- Rows of a keyed table with the same key are the same row. -/
theorem Keyed.eq_of_key_eq {l : List α} (h : Keyed key l) {a b : α} (ha : a ∈ l) (hb : b ∈ l)
    (hk : key a = key b) : a = b :=
  List.inj_on_of_nodup_map h ha hb hk

/-- And stand at the same position. -/
theorem Keyed.index_inj {l : List α} (h : Keyed key l) {i j : Nat} {a b : α} (hi : l[i]? = some a)
    (hj : l[j]? = some b) (hk : key a = key b) : i = j := by
  obtain ⟨hlt, -⟩ := List.getElem?_eq_some_iff.mp hi
  refine (List.getElem?_inj (by rwa [List.length_map]) h).mp ?_
  rw [List.getElem?_map, List.getElem?_map, hi, hj, Option.map_some, Option.map_some, hk]

/-- In a keyed table cut at a row, no other row has its key. -/
theorem Keyed.key_ne_of_cut {l₁ l₂ : List α} {a b : α} (h : Keyed key (l₁ ++ a :: l₂))
    (hb : b ∈ l₁ ++ l₂) : key b ≠ key a := by
  have hcons : Keyed key (a :: (l₁ ++ l₂)) := h.perm List.perm_middle
  exact fun hk => (List.nodup_cons.mp hcons).1 (List.mem_map.mpr ⟨b, hb, hk⟩)

variable [DecidableEq κ]

theorem Keyed.row_eq_some {l : List α} (h : Keyed key l) {a : α} {k : κ} :
    row key l k = some a ↔ a ∈ l ∧ key a = k := by
  refine ⟨fun hr => ⟨mem_of_row hr, key_of_row hr⟩, fun ⟨ha, hk⟩ => ?_⟩
  cases hr : row key l k with
  | none => exact absurd hk (row_eq_none.mp hr a ha)
  | some b =>
    exact congrArg some (h.eq_of_key_eq (mem_of_row hr) ha ((key_of_row hr).trans hk.symm))

/-- What a scan finds in a keyed table does not depend on the order of the rows. -/
theorem Keyed.row_perm {l l' : List α} (h : Keyed key l) (hp : l.Perm l') (k : κ) :
    row key l k = row key l' k := by
  apply Option.ext
  intro a
  rw [h.row_eq_some, (h.perm hp).row_eq_some, hp.mem_iff]

/-- Removing a row of a keyed table removes what is found under its key and nothing else. -/
theorem Keyed.row_swapRemove {l : List α} {i : Nat} {a : α} (h : Keyed key l)
    (ha : l[i]? = some a) (k : κ) :
    row key (Table.swapRemove l i) k = if k = key a then none else row key l k := by
  have hp : (a :: Table.swapRemove l i).Perm l := cons_swapRemove_perm ha
  have hkeyed : Keyed key (a :: Table.swapRemove l i) := h.perm hp.symm
  rw [← hkeyed.row_perm hp, row_cons]
  by_cases hk : k = key a
  · rw [if_pos hk, row_eq_none]
    rintro b hb hbk
    exact (List.nodup_cons.mp hkeyed).1 (List.mem_map.mpr ⟨b, hb, hbk.trans hk⟩)
  · rw [if_neg hk, if_neg (Ne.symm hk)]

end Keyed

/-! ## Tables that stand for finite maps -/

section Represents

variable [DecidableEq κ] (key : α → κ) (val : α → β)

/-- The table stands for the finite map `m`. -/
structure Represents (l : List α) (m : Finmap fun _ : κ => β) : Prop where
  /-- no key twice -/
  keyed : Keyed key l
  /-- the value found under each key -/
  lookup_eq : ∀ k, m.lookup k = (row key l k).map val

variable {key val}

theorem Represents.nil : Represents key val [] (∅ : Finmap fun _ : κ => β) :=
  ⟨List.nodup_nil, fun _ => by rw [Finmap.lookup_empty]; rfl⟩

theorem Represents.mem_iff {l : List α} {m : Finmap fun _ : κ => β}
    (h : Represents key val l m) (k : κ) : k ∈ m ↔ ∃ a ∈ l, key a = k := by
  rw [← Finmap.lookup_isSome, h.lookup_eq, Option.isSome_map, Option.isSome_iff_exists]
  exact exists_congr fun a => h.keyed.row_eq_some

/-- The map has as many keys as the table has rows. -/
theorem Represents.card_keys {l : List α} {m : Finmap fun _ : κ => β}
    (h : Represents key val l m) : m.keys.card = l.length := by
  have hkeys : m.keys = (l.map key).toFinset := by
    ext k
    rw [Finmap.mem_keys, h.mem_iff, List.mem_toFinset, List.mem_map]
  rw [hkeys, List.toFinset_card_of_nodup h.keyed, List.length_map]

/-- Overwriting the value found under a key is `Finmap.insert`. -/
theorem Represents.modify_first {l : List α} {m : Finmap fun _ : κ => β}
    (h : Represents key val l m) {k : κ} {i : Nat} {f : α → α} {b : β}
    (hi : l.findIdx? (fun a => decide (key a = k)) = some i)
    (hkey : ∀ a, key (f a) = key a) (hval : ∀ a, val (f a) = b) :
    Represents key val (l.modify i f) (m.insert k b) := by
  refine ⟨h.keyed.modify hkey, fun k' => ?_⟩
  rw [row_modify_first hi hkey]
  by_cases hk : k' = k
  · subst hk
    obtain ⟨a, ha⟩ : ∃ a, l[i]? = some a := by
      obtain ⟨hlt, -⟩ := List.findIdx?_eq_some_iff_getElem.mp hi
      exact ⟨_, List.getElem?_eq_getElem hlt⟩
    rw [Finmap.lookup_insert, if_pos rfl, row_eq_of_findIdx? hi, ha]
    simp [hval]
  · rw [Finmap.lookup_insert_of_ne _ hk, if_neg hk, h.lookup_eq]

/-- An update that keeps keys and values stands for the same map. -/
theorem Represents.modify_of_comp {l : List α} {m : Finmap fun _ : κ => β}
    (h : Represents key val l m) {i : Nat} {f : α → α}
    (hkey : ∀ a, key (f a) = key a) (hval : ∀ a, val (f a) = val a) :
    Represents key val (l.modify i f) m := by
  refine ⟨h.keyed.modify hkey, fun k => ?_⟩
  rw [h.lookup_eq, row_map_modify_of_comp hkey hval]

/-- Appending a row under a new key is `Finmap.insert`. -/
theorem Represents.concat {l : List α} {m : Finmap fun _ : κ => β}
    (h : Represents key val l m) {a : α} (ha : key a ∉ m) :
    Represents key val (l ++ [a]) (m.insert (key a) (val a)) := by
  have hnew : ∀ b ∈ l, key b ≠ key a := fun b hb hk => ha ((h.mem_iff _).mpr ⟨b, hb, hk⟩)
  refine ⟨h.keyed.concat hnew, fun k => ?_⟩
  rw [row_concat]
  by_cases hk : k = key a
  · subst hk
    rw [Finmap.lookup_insert, row_eq_none.mpr hnew]
    simp
  · rw [Finmap.lookup_insert_of_ne _ hk, h.lookup_eq, if_neg (Ne.symm hk), Option.or_none]

/-- Swap-removing a row is `Finmap.erase` at its key. -/
theorem Represents.swapRemove {l : List α} {m : Finmap fun _ : κ => β}
    (h : Represents key val l m) {i : Nat} {a : α} (ha : l[i]? = some a) :
    Represents key val (swapRemove l i) (m.erase (key a)) := by
  obtain ⟨hi, -⟩ := List.getElem?_eq_some_iff.mp ha
  refine ⟨h.keyed.swapRemove hi, fun k => ?_⟩
  rw [h.keyed.row_swapRemove ha]
  by_cases hk : k = key a
  · subst hk
    rw [Finmap.lookup_erase, if_pos rfl, Option.map_none]
  · rw [Finmap.lookup_erase_ne hk, if_neg hk, h.lookup_eq]

end Represents

end Table

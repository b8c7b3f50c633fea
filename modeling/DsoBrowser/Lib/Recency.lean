import DsoBrowser.Lib.Eviction
import Mathlib.Algebra.BigOperators.Group.Finset.Basic
import Mathlib.Algebra.Order.BigOperators.Group.Finset

/-!
# Rows in the order of use

A cache that evicts what was used least recently is a list of rows with the row used last at the
end. To use a row is to move it there (`use`), and what weighs too much goes from the front
(`trim`).

* A table whose rows carry the time of their last use has its rows in such an order, wherever they
  are placed (`InOrder`), and what the table does to rows is done to the order.
* A row is `Recent` as long as the rows behind it have keys of a given set. It outlives every trim
  to a limit that it and the heaviest rows with these keys are within (`Recent.trim`).
-/

namespace Recency

open Table

universe u v

variable {α : Type u} {κ : Type v}

/-! ## The cache -/

section Cache

variable [DecidableEq κ] (key : α → κ) (w : α → Nat) (limit : Nat)

/-- The rows with another key. -/
def without (k : κ) (l : List α) : List α := l.filter fun a => decide (key a ≠ k)

/-- Use a row. It comes last, whether it was there or not. -/
def use (a : α) (l : List α) : List α := without key (key a) l ++ [a]

/-- Drop rows from the front, until the rest is within the limit. -/
def trim : List α → List α
  | [] => []
  | a :: l => if limit < total w (a :: l) then trim l else a :: l

end Cache

section Trim

variable {w : α → Nat} {limit : Nat}

theorem trim_of_le {l : List α} (h : total w l ≤ limit) : trim w limit l = l := by
  cases l with
  | nil => rfl
  | cons a l => exact if_neg (Nat.not_lt.mpr h)

/-- What is trimmed off comes first. -/
theorem trim_suffix (l : List α) : trim w limit l <:+ l := by
  induction l with
  | nil => exact List.suffix_rfl
  | cons a l ih =>
    rw [trim]
    split
    · exact ih.trans (List.suffix_cons a l)
    · exact List.suffix_rfl

/-- A row and what comes after it stay when they are within the limit. -/
theorem suffix_trim {l r : List α} (hr : r <:+ l) (hle : total w r ≤ limit) :
    r <:+ trim w limit l := by
  induction l with
  | nil => rwa [trim]
  | cons a l ih =>
    rw [trim]
    split
    · rename_i hover
      rcases List.suffix_cons_iff.mp hr with rfl | hr
      · exact absurd hle (Nat.not_le.mpr hover)
      · exact ih hr
    · exact hr

/-- Trimming is what taking out the first rows comes to. -/
theorem trims_left_eq {order gone left : List α} (h : Trims w limit order gone left) :
    left = trim w limit order := by
  induction gone generalizing order with
  | nil =>
    rw [h.split, List.nil_append]
    exact (trim_of_le h.within).symm
  | cons a gone ih =>
    have hrest : Trims w limit (gone ++ left) gone left :=
      ⟨rfl, h.within, fun b hb => h.needed b (by rw [List.getLast?_cons, hb]; rfl)⟩
    have hover : limit < total w (a :: (gone ++ left)) := by
      -- the last row that went was still too much
      obtain ⟨init, last, hlast⟩ : ∃ init last, a :: gone = init ++ [last] :=
        ⟨_, _, (List.dropLast_append_getLast (List.cons_ne_nil a gone)).symm⟩
      have hneeded := h.needed last (by rw [hlast, List.getLast?_concat])
      rw [← List.cons_append, hlast, List.append_assoc, total_append, total_append, total_cons]
      simp only [total_nil]
      omega
    rw [h.split, List.cons_append, trim, if_pos hover]
    exact ih hrest

end Trim

section Map

variable {β : Type*} {g : α → β}

theorem map_without [DecidableEq κ] {key : α → κ} {key' : β → κ} (hkey : ∀ a, key' (g a) = key a)
    (k : κ) (l : List α) : (without key k l).map g = without key' k (l.map g) := by
  rw [without, without, List.filter_map]
  simp only [Function.comp_def, hkey]

theorem map_use [DecidableEq κ] {key : α → κ} {key' : β → κ} (hkey : ∀ a, key' (g a) = key a)
    (a : α) (l : List α) : (use key a l).map g = use key' (g a) (l.map g) := by
  rw [use, use, List.map_append, map_without hkey, hkey]
  rfl

theorem map_trim {w : α → Nat} {w' : β → Nat} (hw : ∀ a, w' (g a) = w a) (limit : Nat)
    (l : List α) : (trim w limit l).map g = trim w' limit (l.map g) := by
  have htotal : ∀ l : List α, total w' (l.map g) = total w l := by
    intro l
    rw [total, total, List.map_map]
    exact congrArg List.sum (List.map_congr_left fun a _ => hw a)
  induction l with
  | nil => rfl
  | cons a l ih =>
    rw [trim, List.map_cons, trim, ← List.map_cons, htotal]
    split
    · exact ih
    · rfl

end Map

/-! ## Tables whose rows know when they were used -/

/-- The order in which the rows of a table were used last. -/
structure InOrder (time : α → Nat) (l o : List α) : Prop where
  /-- they are the rows of the table -/
  perm : o.Perm l
  /-- from the least recently used on -/
  sorted : o.Pairwise fun a b => time a < time b

namespace InOrder

variable {time : α → Nat} {l l' o : List α} {a : α}

theorem nil : InOrder time [] [] := ⟨List.Perm.refl _, List.Pairwise.nil⟩

/-- There is no other order. -/
theorem eq_of_sorted (h : InOrder time l o) (hperm : l'.Perm l)
    (hsorted : l'.Pairwise fun a b => time a ≤ time b) : l' = o := by
  have hkeyed : Keyed time o := List.pairwise_map.mpr (h.sorted.imp Nat.ne_of_lt)
  have hboth := hperm.trans h.perm.symm
  exact List.Perm.eq_of_pairwise (fun _ _ ha hb hab hba =>
      hkeyed.eq_of_key_eq (hboth.mem_iff.mp ha) hb (Nat.le_antisymm hab hba))
    hsorted (h.sorted.imp Nat.le_of_lt) hboth

/-- A new row is used last. -/
theorem concat (h : InOrder time l o) (ha : ∀ b ∈ l, time b < time a) :
    InOrder time (l ++ [a]) (o ++ [a]) where
  perm := h.perm.append_right [a]
  sorted := by
    refine List.pairwise_append.mpr ⟨h.sorted, List.pairwise_singleton _ _, fun b hb c hc => ?_⟩
    rw [List.mem_singleton.mp hc]
    exact ha b (h.perm.mem_iff.mp hb)

/-- Rows are dropped. -/
theorem filter (h : InOrder time l o) {p : α → Bool} (hl : l'.Perm (l.filter p)) :
    InOrder time l' (o.filter p) :=
  ⟨(h.perm.filter p).trans hl.symm, h.sorted.filter p⟩

/-- What an eviction leaves. -/
theorem trim {w : α → Nat} {limit : Nat} {gone left : List α} (h : InOrder time l o)
    (htrims : Trims w limit o gone left) (hl : l'.Perm left) :
    InOrder time l' (trim w limit o) := by
  have hleft := trims_left_eq htrims
  rw [← hleft]
  refine ⟨hl.symm, ?_⟩
  have hsorted := h.sorted
  rw [htrims.split] at hsorted
  exact (List.pairwise_append.mp hsorted).2.1

section Keys

variable [DecidableEq κ] {key : α → κ}

/-- The rows with another key are all but one. -/
theorem perm_without (hkeyed : Keyed key l) {i : Nat} (hi : l[i]? = some a) :
    (l.eraseIdx i).Perm (without key (key a) l) := by
  obtain ⟨hlt, rfl⟩ := List.getElem?_eq_some_iff.mp hi
  have hsplit := List.getElem_cons_eraseIdx_perm hlt
  have hrest : ∀ b ∈ l.eraseIdx i, key b ≠ key l[i] := by
    have hnodup := (hkeyed.perm hsplit.symm)
    rw [Keyed, List.map_cons, List.nodup_cons] at hnodup
    exact fun b hb hk => hnodup.1 (hk ▸ List.mem_map_of_mem hb)
  have hfilter := hsplit.filter fun b => decide (key b ≠ key l[i])
  rw [List.filter_cons_of_neg (by simp),
    List.filter_eq_self.mpr fun b hb => decide_eq_true (hrest b hb)] at hfilter
  exact hfilter

/-- A row is removed. -/
theorem remove (h : InOrder time l o) (hkeyed : Keyed key l) {i : Nat} (hi : l[i]? = some a) :
    InOrder time (swapRemove l i) (without key (key a) o) :=
  h.filter ((swapRemove_perm (List.getElem?_eq_some_iff.mp hi).1).trans (perm_without hkeyed hi))

/-- A row is used. -/
theorem modify (h : InOrder time l o) (hkeyed : Keyed key l) {i : Nat} (hi : l[i]? = some a)
    {f : α → α} (hkey : key (f a) = key a) (hf : ∀ b ∈ l, time b < time (f a)) :
    InOrder time (l.modify i f) (use key (f a) o) := by
  have hrest : InOrder time (l.eraseIdx i) (without key (key a) o) :=
    h.filter (perm_without hkeyed hi)
  obtain ⟨hlt, rfl⟩ := List.getElem?_eq_some_iff.mp hi
  have hset : l.modify i f = l.set i (f l[i]) := by
    rw [List.modify_eq_set_getElem?, hi]
    rfl
  have hconcat := hrest.concat fun b hb => hf b (List.mem_of_mem_eraseIdx hb)
  rw [use, hkey]
  refine ⟨hconcat.perm.trans ?_, hconcat.sorted⟩
  rw [hset]
  exact (List.perm_append_singleton _ _).trans (List.set_perm_cons_eraseIdx hlt _).symm

end Keys

end InOrder

/-! ## Rows that stay -/

/-- The row is there, and what was used after it has keys of a set. -/
def Recent (key : α → κ) (K : Finset κ) (a : α) (o : List α) : Prop :=
  ∃ before after, o = before ++ a :: after ∧ ∀ b ∈ after, key b ∈ K

section Recent

variable {key : α → κ} {w : α → Nat} {K : Finset κ} {a b : α} {o : List α}

theorem Recent.mem (h : Recent key K a o) : a ∈ o := by
  obtain ⟨before, after, rfl, -⟩ := h
  exact List.mem_append_right _ List.mem_cons_self

/-- A row that was just used. -/
theorem recent_concat (o : List α) : Recent key K a (o ++ [a]) :=
  ⟨o, [], rfl, fun _ hb => absurd hb List.not_mem_nil⟩

theorem Recent.concat (h : Recent key K a o) (hb : key b ∈ K) : Recent key K a (o ++ [b]) := by
  obtain ⟨before, after, rfl, hafter⟩ := h
  refine ⟨before, after ++ [b], by simp, fun c hc => ?_⟩
  rcases List.mem_append.mp hc with hc | hc
  · exact hafter c hc
  · rw [List.mem_singleton.mp hc]
    exact hb

theorem Recent.filter (h : Recent key K a o) {p : α → Bool} (ha : p a = true) :
    Recent key K a (o.filter p) := by
  obtain ⟨before, after, rfl, hafter⟩ := h
  refine ⟨before.filter p, after.filter p, ?_, fun c hc => hafter c (List.mem_of_mem_filter hc)⟩
  rw [List.filter_append, List.filter_cons_of_pos ha]

/-- Rows of these keys weigh no more than the heaviest. -/
theorem total_le_sum [DecidableEq κ] {bound : κ → Nat} {l : List α} (hkeyed : Keyed key l)
    (h : ∀ b ∈ l, key b ∈ K ∧ w b ≤ bound (key b)) : total w l ≤ ∑ k ∈ K, bound k := by
  have hsum : total w l ≤ ((l.map key).map bound).sum := by
    rw [total, List.map_map]
    exact List.sum_le_sum fun b hb => (h b hb).2
  have hsub : (l.map key).toFinset ⊆ K := by
    intro k hk
    obtain ⟨b, hb, rfl⟩ := List.mem_map.mp (List.mem_toFinset.mp hk)
    exact (h b hb).1
  calc total w l ≤ ((l.map key).map bound).sum := hsum
    _ = ∑ k ∈ (l.map key).toFinset, bound k := (List.sum_toFinset bound hkeyed).symm
    _ ≤ ∑ k ∈ K, bound k := Finset.sum_le_sum_of_subset hsub

/-- **A recent row outlives the trim** to a limit that it is within, together with the heaviest
rows of the keys used since. -/
theorem Recent.trim [DecidableEq κ] {limit : Nat} {bound : κ → Nat} (h : Recent key K a o)
    (hkeyed : Keyed key o) (hbound : ∀ b ∈ o, key b ∈ K → w b ≤ bound (key b))
    (hle : w a + ∑ k ∈ K, bound k ≤ limit) : Recent key K a (trim w limit o) := by
  obtain ⟨before, after, rfl, hafter⟩ := h
  have hsuffix : after <:+ before ++ a :: after := ⟨before ++ [a], by simp⟩
  have htotal : total w after ≤ ∑ k ∈ K, bound k :=
    total_le_sum (hkeyed.subperm hsuffix.sublist.subperm) fun b hb =>
      ⟨hafter b hb, hbound b (hsuffix.subset hb) (hafter b hb)⟩
  have hwithin : total w (a :: after) ≤ limit := by
    rw [total_cons]
    omega
  obtain ⟨kept, hkept⟩ := suffix_trim (List.suffix_append before (a :: after)) hwithin
  exact ⟨kept, after, hkept.symm, hafter⟩

end Recent

end Recency

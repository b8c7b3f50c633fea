import Mathlib.Data.List.Basic
import Mathlib.Data.List.Induction
import Mathlib.Data.List.Infix
import Mathlib.Data.List.Nodup

/-!
# First come, first served

A table of at most `n` distinct elements that admits an element if it is not there yet and there
is room (`takeIn`), and never gives one up. Over a whole history it holds the first `n` distinct
elements of the history, in the order in which they came (`firstCome`, `takeIn_firstCome`).
-/

namespace FirstCome

universe u

variable {α : Type u} [DecidableEq α]

/-- The first `n` distinct elements of a history, in order. -/
def firstCome (n : Nat) (l : List α) : List α := l.eraseDups.take n

/-- Append an element that is not present, while there is room. -/
def takeIn (n : Nat) (l : List α) (a : α) : List α :=
  if a ∈ l then l else if n ≤ l.length then l else l ++ [a]

@[simp] theorem firstCome_nil (n : Nat) : firstCome n ([] : List α) = [] := by
  rw [firstCome, List.eraseDups_nil, List.take_nil]

theorem eraseDups_concat (l : List α) (a : α) :
    (l ++ [a]).eraseDups = if a ∈ l then l.eraseDups else l.eraseDups ++ [a] := by
  rw [List.eraseDups_append, List.cons_removeAll]
  by_cases ha : a ∈ l
  · simp [ha]
  · simp [ha, List.eraseDups_cons]

theorem nodup_eraseDups (l : List α) : l.eraseDups.Nodup := by
  induction l using List.reverseRecOn with
  | nil => exact List.nodup_nil
  | append_singleton l a ih =>
    rw [eraseDups_concat]
    split
    · exact ih
    · rename_i ha
      rw [List.nodup_append]
      refine ⟨ih, List.nodup_singleton a, ?_⟩
      rintro b hb c hc rfl
      rw [List.mem_singleton.mp hc, List.mem_eraseDups] at hb
      exact ha hb

theorem nodup_firstCome (n : Nat) (l : List α) : (firstCome n l).Nodup :=
  (nodup_eraseDups l).sublist (List.take_sublist n _)

theorem length_firstCome_le (n : Nat) (l : List α) : (firstCome n l).length ≤ n :=
  List.length_take_le n _

theorem mem_of_mem_firstCome {n : Nat} {l : List α} {a : α} (h : a ∈ firstCome n l) : a ∈ l :=
  List.mem_eraseDups.mp (List.mem_of_mem_take h)

/-- While there is room, everything that came is in. -/
theorem mem_firstCome_of_lt {n : Nat} {l : List α} (h : (firstCome n l).length < n) {a : α}
    (ha : a ∈ l) : a ∈ firstCome n l := by
  rw [firstCome, List.length_take] at h
  rw [firstCome, List.take_of_length_le (by omega)]
  exact List.mem_eraseDups.mpr ha

/-- **Admitting one element after the other gives the first `n` that came.** -/
theorem takeIn_firstCome (n : Nat) (l : List α) (a : α) :
    takeIn n (firstCome n l) a = firstCome n (l ++ [a]) := by
  have hconcat : firstCome n (l ++ [a]) =
      if a ∈ l then firstCome n l else (l.eraseDups ++ [a]).take n := by
    rw [firstCome, eraseDups_concat]
    split <;> rfl
  rw [takeIn, hconcat]
  by_cases hmem : a ∈ firstCome n l
  · rw [if_pos hmem, if_pos (mem_of_mem_firstCome hmem)]
  · rw [if_neg hmem]
    by_cases hfull : n ≤ (firstCome n l).length
    · have hlong : n ≤ l.eraseDups.length := by
        rw [firstCome, List.length_take] at hfull
        omega
      rw [if_pos hfull, List.take_append_of_le_length hlong]
      exact (ite_self _).symm
    · have hnew : a ∉ l := fun ha => hmem (mem_firstCome_of_lt (Nat.not_le.mp hfull) ha)
      have hshort : l.eraseDups.length < n := by
        rw [firstCome, List.length_take] at hfull
        omega
      rw [if_neg hfull, if_neg hnew, firstCome, List.take_of_length_le hshort.le,
        List.take_of_length_le (by rw [List.length_append]; exact hshort)]

/-- Who is in stays in, at the same place. -/
theorem isPrefix_firstCome (n : Nat) (l l' : List α) : firstCome n l <+: firstCome n (l ++ l') := by
  rw [firstCome, firstCome, List.eraseDups_append]
  exact List.IsPrefix.take (List.prefix_append _ _) n

end FirstCome

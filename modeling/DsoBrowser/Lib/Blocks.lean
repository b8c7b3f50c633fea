import Mathlib.Data.List.Basic

/-!
# A list cut into blocks

`block k l i` is the `i`-th run of `k` elements of `l`; the last block may be shorter and later
ones are empty. Put back together, the first blocks are a prefix of the list
(`flatten_blocks`), and a list that is one piece repeated has that piece as each of its blocks
(`block_flatten_replicate`).
-/

namespace Blocks

universe u

variable {α : Type u}

/-- The `i`-th block of `k` elements. -/
def block (k : Nat) (l : List α) (i : Nat) : List α := (l.drop (k * i)).take k

theorem length_block (k : Nat) (l : List α) (i : Nat) :
    (block k l i).length = min k (l.length - k * i) := by
  rw [block, List.length_take, List.length_drop]

theorem length_block_le (k : Nat) (l : List α) (i : Nat) : (block k l i).length ≤ k := by
  rw [length_block]
  exact Nat.min_le_left _ _

/-- The blocks put together. -/
theorem flatten_blocks (k : Nat) (l : List α) (n : Nat) :
    ((List.range n).map (block k l)).flatten = l.take (k * n) := by
  induction n with
  | zero => simp
  | succ n ih =>
    rw [List.range_succ, List.map_append, List.flatten_append, ih, Nat.mul_succ, List.take_add]
    simp [block]

/-- The blocks of enough room put together are the list. -/
theorem flatten_blocks_of_le {k : Nat} {l : List α} {n : Nat} (h : l.length ≤ k * n) :
    ((List.range n).map (block k l)).flatten = l := by
  rw [flatten_blocks, List.take_of_length_le h]

/-- Pieces of at most `k` elements put together. -/
theorem length_flatten_le {k : Nat} {ps : List (List α)} (h : ∀ p ∈ ps, p.length ≤ k) :
    ps.flatten.length ≤ k * ps.length := by
  induction ps with
  | nil => exact Nat.zero_le _
  | cons p ps ih =>
    have hp := h p List.mem_cons_self
    have hps := ih fun q hq => h q (List.mem_cons_of_mem _ hq)
    rw [List.flatten_cons, List.length_append, List.length_cons, Nat.mul_succ]
    omega

/-- The blocks of one piece repeated. -/
theorem block_flatten_replicate {k : Nat} {x : List α} (hx : x.length = k) :
    ∀ {n i : Nat}, i < n → block k (List.replicate n x).flatten i = x := by
  intro n
  induction n with
  | zero =>
    intro i hi
    exact absurd hi (Nat.not_lt_zero i)
  | succ n ih =>
    intro i hi
    rw [List.replicate_succ, List.flatten_cons]
    cases i with
    | zero =>
      rw [block, Nat.mul_zero, List.drop_zero, ← hx, List.take_left]
    | succ i =>
      have hdrop : (x ++ (List.replicate n x).flatten).drop (k * (i + 1)) =
          ((List.replicate n x).flatten).drop (k * i) := by
        rw [Nat.mul_succ, Nat.add_comm, ← List.drop_drop, ← hx, List.drop_left]
      rw [block, hdrop]
      exact ih (Nat.lt_of_succ_lt_succ hi)

end Blocks

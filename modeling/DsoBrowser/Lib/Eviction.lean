import DsoBrowser.Lib.Table

/-!
# Taking rows out of a table

Two ways in which a table that removes by swap-remove sheds rows.

* `swapSweep` goes over the positions from the last to the first and removes the rows a test accepts.
  The last row moves into each gap, so positions the sweep has passed change what they hold; it
  still removes exactly the accepted rows (`swapSweep_perm`).
* A table under a weight limit takes out one row after the other, each time the row `pick` points
  at, until the weight of the rest is within the limit. Which row comes next does not depend on
  the limit, so the table has an **eviction order** (`evictionOrder`), what goes is a prefix of it and
  what stays the rest (`Trims`). A row stays exactly when it and the rows after it are within the
  limit (`Trims.mem_left_iff`). If `pick` points at a row with the least key, the order is
  ascending (`pairwise_evictionOrder`).
-/

namespace Table

universe u v

variable {α : Type u}

/-! ## Sweeping -/

section Sweep

variable (p : α → Bool)

/-- Remove the rows `p` accepts at positions `i - 1` down to `0`. -/
def swapSweep : Nat → List α → List α
  | 0, l => l
  | i + 1, l =>
    match l[i]? with
    | none => swapSweep i l
    | some a => if p a then swapSweep i (swapRemove l i) else swapSweep i l

variable {p}

/-- The positions passed hold rows that stay, whichever they are. -/
theorem swapSweep_append (l₁ : List α) : ∀ (l₂ : List α), (∀ a ∈ l₂, p a = false) →
    (swapSweep p l₁.length (l₁ ++ l₂)).Perm (l₁.filter (fun a => !p a) ++ l₂) := by
  induction l₁ using List.reverseRecOn with
  | nil => exact fun _ _ => List.Perm.refl _
  | append_singleton l₁ a ih =>
    intro l₂ h₂
    rw [List.length_append, List.length_singleton, swapSweep, List.append_assoc, List.singleton_append,
      getElem?_append_cons, List.filter_append]
    dsimp only
    cases ha : p a with
    | true =>
      obtain ⟨l₂', hperm, hswap⟩ := swapRemove_append_cons l₁ a l₂
      rw [if_pos rfl, hswap]
      have hrest := ih l₂' fun b hb => h₂ b (hperm.mem_iff.mp hb)
      refine hrest.trans ?_
      rw [List.filter_cons_of_neg (by rw [ha]; decide), List.filter_nil, List.append_nil]
      exact hperm.append_left _
    | false =>
      rw [if_neg Bool.false_ne_true]
      have hrest := ih (a :: l₂) (List.forall_mem_cons.mpr ⟨ha, h₂⟩)
      refine hrest.trans ?_
      rw [List.filter_cons_of_pos (by rw [ha]; rfl), List.filter_nil, List.append_assoc,
        List.singleton_append]

/-- **A sweep removes exactly the rows the test accepts.** -/
theorem swapSweep_perm (l : List α) : (swapSweep p l.length l).Perm (l.filter fun a => !p a) := by
  have h := swapSweep_append (p := p) l [] fun a ha => absurd ha List.not_mem_nil
  rwa [List.append_nil, List.append_nil] at h

end Sweep

/-! ## The eviction order -/

section Order

variable (pick : List α → Nat)

/-- The first `n` rows to be taken out, in order. -/
def takeOut : Nat → List α → List α
  | 0, _ => []
  | n + 1, l =>
    match l[pick l]? with
    | none => []
    | some a => a :: takeOut n (swapRemove l (pick l))

/-- The order in which the rows would be taken out until none is left. -/
def evictionOrder (l : List α) : List α := takeOut pick l.length l

variable {pick}

@[simp] theorem evictionOrder_nil : evictionOrder pick [] = [] := rfl

/-- The order starts with the row `pick` points at. -/
theorem evictionOrder_of_pick {l : List α} {a : α} (h : l[pick l]? = some a) :
    evictionOrder pick l = a :: evictionOrder pick (swapRemove l (pick l)) := by
  have hlen := (cons_swapRemove_perm h).length_eq
  rw [evictionOrder, evictionOrder, ← hlen, List.length_cons, takeOut, h]

/-- Every row is taken out once. -/
theorem evictionOrder_perm (hpick : ∀ l : List α, l ≠ [] → pick l < l.length) (l : List α) :
    (evictionOrder pick l).Perm l := by
  induction hn : l.length generalizing l with
  | zero =>
    rw [List.length_eq_zero_iff.mp hn]
    exact List.Perm.refl _
  | succ n ih =>
    have hlt : pick l < l.length := hpick l (List.ne_nil_of_length_eq_add_one hn)
    have hget := List.getElem?_eq_getElem hlt
    have hlen := (cons_swapRemove_perm hget).length_eq
    rw [List.length_cons] at hlen
    rw [evictionOrder_of_pick hget]
    exact ((ih _ (by omega)).cons _).trans (cons_swapRemove_perm hget)

/-- A least row first makes the order ascending. -/
theorem pairwise_evictionOrder {R : α → α → Prop}
    (hpick : ∀ l : List α, l ≠ [] → pick l < l.length)
    (hleast : ∀ (l : List α) (a b : α), l[pick l]? = some a → b ∈ l → R a b) (l : List α) :
    (evictionOrder pick l).Pairwise R := by
  induction hn : l.length generalizing l with
  | zero =>
    rw [List.length_eq_zero_iff.mp hn]
    exact List.Pairwise.nil
  | succ n ih =>
    have hlt : pick l < l.length := hpick l (List.ne_nil_of_length_eq_add_one hn)
    have hget := List.getElem?_eq_getElem hlt
    have hperm := cons_swapRemove_perm hget
    have hlen := hperm.length_eq
    rw [List.length_cons] at hlen
    rw [evictionOrder_of_pick hget, List.pairwise_cons]
    refine ⟨fun b hb => ?_, ih _ (by omega)⟩
    have hrest := (evictionOrder_perm hpick _).mem_iff.mp hb
    exact hleast l _ b hget (hperm.mem_iff.mp (List.mem_cons_of_mem _ hrest))

end Order

/-! ## Down to a limit -/

section Trims

variable (w : α → Nat) (limit : Nat)

/-- `gone` is what has to go from the front of `order` for the rest, `left`, to weigh no more than
the limit. -/
structure Trims (order gone left : List α) : Prop where
  /-- what goes comes first -/
  split : order = gone ++ left
  /-- the rest is within the limit -/
  within : total w left ≤ limit
  /-- and was not before the last row went -/
  needed : ∀ a, gone.getLast? = some a → limit < w a + total w left

variable {w limit}

/-- Nothing has to go. -/
theorem Trims.nil {order : List α} (h : total w order ≤ limit) : Trims w limit order [] order :=
  ⟨rfl, h, fun _ ha => nomatch ha⟩

/-- One more row has to go. -/
theorem Trims.cons {order gone left : List α} {a : α} (hover : limit < w a + total w order)
    (h : Trims w limit order gone left) : Trims w limit (a :: order) (a :: gone) left := by
  refine ⟨by rw [h.split, List.cons_append], h.within, fun b hb => ?_⟩
  cases gone with
  | nil =>
    obtain rfl : a = b := by simpa using hb
    rwa [h.split, List.nil_append] at hover
  | cons c gone =>
    rw [List.getLast?_cons_cons] at hb
    exact h.needed b hb

theorem total_append (l₁ l₂ : List α) : total w (l₁ ++ l₂) = total w l₁ + total w l₂ := by
  rw [total, List.map_append, List.sum_append]
  rfl

/-- **A row stays exactly when it and the rows after it are within the limit.** -/
theorem Trims.mem_left_iff {order gone left : List α} (h : Trims w limit order gone left) (a : α) :
    a ∈ left ↔ ∃ l₁ l₂, order = l₁ ++ a :: l₂ ∧ total w (a :: l₂) ≤ limit := by
  constructor
  · intro ha
    obtain ⟨l₁, l₂, rfl⟩ := List.append_of_mem ha
    refine ⟨gone ++ l₁, l₂, by rw [h.split, List.append_assoc], ?_⟩
    have hwithin := h.within
    rw [total_append] at hwithin
    omega
  · rintro ⟨l₁, l₂, horder, hle⟩
    have hsplit := h.split.symm.trans horder
    rcases List.append_eq_append_iff.mp hsplit with ⟨l, rfl, hleft⟩ | ⟨l, rfl, hl⟩
    · rw [hleft]
      exact List.mem_append_right _ List.mem_cons_self
    · -- were the row gone, the last row to go and the rest would be within the limit
      cases l with
      | nil =>
        rw [List.nil_append] at hl
        rw [← hl]
        exact List.mem_cons_self
      | cons b l =>
        obtain ⟨init, last, hlast⟩ : ∃ init last, b :: l = init ++ [last] :=
          ⟨_, _, (List.dropLast_append_getLast (List.cons_ne_nil b l)).symm⟩
        have hover := h.needed last (by rw [hlast, ← List.append_assoc, List.getLast?_concat])
        have htotal : total w (a :: l₂) = total w init + (w last + total w left) := by
          rw [hl, hlast, total_append, total_concat, Nat.add_assoc]
        omega

end Trims

end Table

import Mathlib.Data.List.Basic
import Mathlib.Order.WithBot

/-!
# The first row of the greatest weight

Many tables are looked up by a scan that keeps the best row it has seen and lets go of it for a
strictly better one only (`scan`). Rows that do not count have weight `⊥`.

What the scan finds is the first row of the greatest weight (`FirstMax`), of which there is one at
most (`FirstMax.unique`), provided it starts low enough: started at `least`, it finds it exactly if
that weight is above `least` (`scan_eq_some`). Started at `⊥`, it misses no row that counts
(`scan_bot_eq_none`).
-/

namespace FirstMax

universe u v

variable {α : Type u} {β : Type v} [LinearOrder β] {w : α → β}

/-- `a` is the row at `i` and the first of those of the greatest weight. -/
structure IsFirstMax (w : α → β) (l : List α) (i : Nat) (a : α) : Prop where
  /-- where it is -/
  row : l[i]? = some a
  /-- no row has a greater weight -/
  greatest : ∀ b ∈ l, w b ≤ w a
  /-- the rows before it have smaller ones -/
  first : ∀ j < i, ∀ b, l[j]? = some b → w b < w a

theorem IsFirstMax.mem {l : List α} {i : Nat} {a : α} (h : IsFirstMax w l i a) : a ∈ l :=
  List.mem_of_getElem? h.row

/-- There is one such row at most. -/
theorem IsFirstMax.unique {l : List α} {i j : Nat} {a b : α} (ha : IsFirstMax w l i a)
    (hb : IsFirstMax w l j b) : i = j ∧ a = b := by
  obtain rfl : i = j := by
    rcases Nat.lt_trichotomy i j with hlt | rfl | hlt
    · exact absurd (hb.first i hlt a ha.row) (ha.greatest b hb.mem).not_gt
    · rfl
    · exact absurd (ha.first j hlt b hb.row) (hb.greatest a ha.mem).not_gt
  exact ⟨rfl, Option.some.inj (ha.row.symm.trans hb.row)⟩

/-- A row at the front that no other beats is the first. -/
theorem isFirstMax_head {a : α} {l : List α} (h : ∀ b ∈ l, w b ≤ w a) :
    IsFirstMax w (a :: l) 0 a :=
  ⟨rfl, List.forall_mem_cons.mpr ⟨le_rfl, h⟩, fun _ hj => absurd hj (Nat.not_lt_zero _)⟩

/-- A row at the front that is beaten makes no difference. -/
theorem IsFirstMax.cons {a b : α} {l : List α} {i : Nat} (h : IsFirstMax w l i b)
    (hlt : w a < w b) : IsFirstMax w (a :: l) (i + 1) b where
  row := h.row
  greatest := List.forall_mem_cons.mpr ⟨hlt.le, h.greatest⟩
  first j hj c hc := by
    cases j with
    | zero =>
      obtain rfl : a = c := Option.some.inj hc
      exact hlt
    | succ j => exact h.first j (Nat.lt_of_succ_lt_succ hj) c hc

/-- The scan from position `i` on; `best` is the position chosen so far, `least` its weight. -/
def scan (w : α → β) : List α → Nat → Option Nat → β → Option Nat
  | [], _, best, _ => best
  | a :: l, i, best, least =>
    if least < w a then scan w l (i + 1) (some i) (w a) else scan w l (i + 1) best least

/-- The scan keeps what it has if nothing beats it, and else finds the first row of the greatest
weight. -/
theorem scan_cases (l : List α) : ∀ (i : Nat) (best : Option Nat) (least : β),
    (scan w l i best least = best ∧ ∀ a ∈ l, w a ≤ least) ∨
      ∃ j a, scan w l i best least = some (i + j) ∧ IsFirstMax w l j a ∧ least < w a := by
  induction l with
  | nil => exact fun _ _ _ => Or.inl ⟨rfl, by simp⟩
  | cons b l ih =>
    intro i best least
    rw [scan]
    split
    · -- the row at the front is the best so far
      rename_i hb
      obtain ⟨hkeep, hmax⟩ | ⟨j, a, hscan, hfirst, hlt⟩ := ih (i + 1) (some i) (w b)
      · exact Or.inr ⟨0, b, hkeep, isFirstMax_head hmax, hb⟩
      · refine Or.inr ⟨j + 1, a, ?_, hfirst.cons hlt, hb.trans hlt⟩
        rw [hscan, Nat.add_right_comm, Nat.add_assoc]
    · rename_i hb
      have hle : w b ≤ least := not_lt.mp hb
      obtain ⟨hkeep, hmax⟩ | ⟨j, a, hscan, hfirst, hlt⟩ := ih (i + 1) best least
      · exact Or.inl ⟨hkeep, List.forall_mem_cons.mpr ⟨hle, hmax⟩⟩
      · refine Or.inr ⟨j + 1, a, ?_, hfirst.cons (hle.trans_lt hlt), hlt⟩
        rw [hscan, Nat.add_right_comm, Nat.add_assoc]

theorem scan_map {γ : Type*} (f : γ → α) (l : List γ) : ∀ (i : Nat) (best : Option Nat) (least : β),
    scan w (l.map f) i best least = scan (fun c => w (f c)) l i best least := by
  induction l with
  | nil => exact fun _ _ _ => rfl
  | cons c l ih =>
    intro i best least
    rw [List.map_cons, scan, scan, ih, ih]

section Start

variable {l : List α} {least : β}

/-- A scan that starts with nothing finds nothing exactly if no row is above where it starts. -/
theorem scan_eq_none : scan w l 0 none least = none ↔ ∀ a ∈ l, w a ≤ least := by
  obtain ⟨hkeep, hmax⟩ | ⟨j, a, hscan, hfirst, hlt⟩ := scan_cases (w := w) l 0 none least
  · exact ⟨fun _ => hmax, fun _ => hkeep⟩
  · rw [hscan]
    exact iff_of_false (Option.some_ne_none _) fun h => (h a hfirst.mem).not_gt hlt

/-- **What it finds** is the first row of the greatest weight, if that is above where it starts. -/
theorem scan_eq_some {i : Nat} :
    scan w l 0 none least = some i ↔ ∃ a, IsFirstMax w l i a ∧ least < w a := by
  obtain ⟨hkeep, hmax⟩ | ⟨j, a, hscan, hfirst, hlt⟩ := scan_cases (w := w) l 0 none least
  · rw [hkeep]
    exact iff_of_false (Option.some_ne_none _).symm fun ⟨a, hfirst, hlt⟩ =>
      (hmax a hfirst.mem).not_gt hlt
  · rw [hscan, Nat.zero_add]
    refine ⟨?_, ?_⟩
    · intro h
      obtain rfl := Option.some.inj h
      exact ⟨a, hfirst, hlt⟩
    · rintro ⟨b, hb, -⟩
      rw [(hfirst.unique hb).1]

variable [OrderBot β]

/-- Started at the bottom, the scan misses no row that counts. -/
theorem scan_bot_eq_none : scan w l 0 none ⊥ = none ↔ ∀ a ∈ l, w a = ⊥ := by
  rw [scan_eq_none]
  simp only [le_bot_iff]

/-- A higher start makes no difference exactly if some row is above it, or none counts. -/
theorem scan_eq_scan_bot_iff :
    scan w l 0 none least = scan w l 0 none ⊥ ↔
      (∃ a ∈ l, least < w a) ∨ ∀ a ∈ l, w a = ⊥ := by
  cases hbot : scan w l 0 none ⊥ with
  | none =>
    have hall := scan_bot_eq_none.mp hbot
    refine iff_of_true (scan_eq_none.mpr fun a ha => ?_) (Or.inr hall)
    rw [hall a ha]
    exact bot_le
  | some i =>
    obtain ⟨a, hfirst, hpos⟩ := scan_eq_some.mp hbot
    rw [scan_eq_some]
    refine ⟨?_, ?_⟩
    · rintro ⟨b, hb, hlt⟩
      exact Or.inl ⟨b, hb.mem, hlt⟩
    · rintro (⟨b, hb, hlt⟩ | hall)
      · exact ⟨a, hfirst, hlt.trans_le (hfirst.greatest b hb)⟩
      · exact absurd (hall a hfirst.mem) hpos.ne'

end Start

end FirstMax

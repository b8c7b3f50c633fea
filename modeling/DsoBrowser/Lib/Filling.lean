import Mathlib.Data.List.Basic
import Mathlib.Data.List.Nodup
import Mathlib.Data.List.Perm.Basic

/-!
# A table of bounded size that several sources fill

`fill n l a` appends the elements of `a` to the table `l` until it has `n` elements. Sources that
are filled in one after another amount to their concatenation (`fill_fill`), so what of one source
gets in depends only on how much comes before it (`filter_fill`), and it is the same in every order
of the sources exactly when there is nothing to compete for (`filter_fill_perm_iff`).
-/

namespace Filling

universe u v

variable {α : Type u} {τ : Type v} {n : Nat} {l : List α}

/-- Append until the table is full. -/
def fill (n : Nat) (l a : List α) : List α := l ++ a.take (n - l.length)

theorem fill_nil (n : Nat) (l : List α) : fill n l [] = l := by
  rw [fill, List.take_nil, List.append_nil]

theorem fill_of_full (h : n ≤ l.length) (a : List α) : fill n l a = l := by
  rw [fill, Nat.sub_eq_zero_of_le h, List.take_zero, List.append_nil]

theorem fill_cons (h : l.length < n) (x : α) (a : List α) :
    fill n l (x :: a) = fill n (l ++ [x]) a := by
  have hsub : n - l.length = n - (l ++ [x]).length + 1 := by
    rw [List.length_append, List.length_singleton]
    omega
  rw [fill, fill, hsub, List.take_succ_cons, List.append_assoc, List.singleton_append]

/-- Two sources, one after the other. -/
theorem fill_fill (n : Nat) (l a b : List α) : fill n (fill n l a) b = fill n l (a ++ b) := by
  have hsub : n - (fill n l a).length = n - l.length - a.length := by
    rw [fill, List.length_append, List.length_take]
    omega
  rw [fill, hsub, fill, fill, List.take_append, List.append_assoc]

/-- What of one source gets in when others come before and after it. -/
theorem filter_fill {p : α → Bool} {before a after : List α} (hbefore : ∀ x ∈ before, p x = false)
    (ha : ∀ x ∈ a, p x = true) (hafter : ∀ x ∈ after, p x = false) :
    (fill n l (before ++ (a ++ after))).filter p =
      l.filter p ++ a.take (n - l.length - before.length) := by
  have hnone : ∀ {b : List α}, (∀ x ∈ b, p x = false) → ∀ k, (b.take k).filter p = [] := by
    intro b hb k
    rw [List.filter_eq_nil_iff]
    intro x hx
    rw [hb x (List.mem_of_mem_take hx)]
    exact Bool.false_ne_true
  have hall : ∀ k, (a.take k).filter p = a.take k := fun k =>
    List.filter_eq_self.mpr fun x hx => ha x (List.mem_of_mem_take hx)
  rw [fill, List.take_append, List.take_append, List.filter_append, List.filter_append,
    List.filter_append, hnone hbefore, hnone hafter, hall, List.nil_append, List.append_nil]

/-- Taking `s` fewer elements makes no difference. -/
theorem take_eq_take_sub_iff {a : List α} {k s : Nat} :
    a.take k = a.take (k - s) ↔ a.length + s ≤ k ∨ k = 0 ∨ a.length = 0 ∨ s = 0 := by
  rw [List.take_eq_take_iff]
  omega

variable {content : τ → List α} {sources : List τ} {source : τ}

/-- **The order of the sources makes no difference to what one of them gets in** exactly when all
of them fit, the table is full, that source is empty or all others are. Its elements are those with
`p`. -/
theorem filter_fill_perm_iff [DecidableEq τ] {p : α → Bool} (hnodup : sources.Nodup)
    (hmem : source ∈ sources)
    (hp : ∀ t ∈ sources, ∀ x ∈ content t, p x = true ↔ t = source) :
    (∀ order₁ order₂ : List τ, order₁.Perm sources → order₂.Perm sources →
      (fill n l (order₁.flatMap content)).filter p = (fill n l (order₂.flatMap content)).filter p) ↔
    (sources.flatMap content).length ≤ n - l.length ∨ n - l.length = 0 ∨
      (content source).length = 0 ∨ ((sources.erase source).flatMap content).length = 0 := by
  have htotal : (sources.flatMap content).length =
      (content source).length + ((sources.erase source).flatMap content).length := by
    have hperm := (List.perm_cons_erase hmem).flatMap_right content
    rw [hperm.length_eq, List.flatMap_cons, List.length_append]
  -- the source's share, for a given split of an order around it
  have hshare : ∀ before after, (before ++ source :: after).Perm sources →
      (fill n l ((before ++ source :: after).flatMap content)).filter p =
        l.filter p ++ (content source).take (n - l.length - (before.flatMap content).length) := by
    intro before after hperm
    have hother : ∀ t, t ∈ before ∨ t ∈ after → t ∈ sources ∧ t ≠ source := by
      intro t ht
      refine ⟨hperm.subset ?_, ?_⟩
      · rw [List.mem_append, List.mem_cons]
        exact ht.imp_right Or.inr
      · rintro rfl
        have hnodup' := (List.nodup_middle.mp (hperm.nodup_iff.mpr hnodup))
        exact (List.nodup_cons.mp hnodup').1 (List.mem_append.mpr ht)
    have hfalse : ∀ ts : List τ, (∀ t ∈ ts, t ∈ sources ∧ t ≠ source) →
        ∀ x ∈ ts.flatMap content, p x = false := by
      intro ts hts x hx
      obtain ⟨t, ht, hx⟩ := List.mem_flatMap.mp hx
      obtain ⟨hin, hne⟩ := hts t ht
      exact Bool.eq_false_iff.mpr fun htrue => hne ((hp t hin x hx).mp htrue)
    rw [List.flatMap_append, List.flatMap_cons]
    exact filter_fill (hfalse before fun t ht => hother t (.inl ht))
      (fun x hx => (hp source hmem x hx).mpr rfl) (hfalse after fun t ht => hother t (.inr ht))
  constructor
  · intro hsame
    have hfirst := hshare [] (sources.erase source) (List.perm_cons_erase hmem).symm
    have hlast := hshare (sources.erase source) []
      ((List.perm_append_singleton _ _).trans (List.perm_cons_erase hmem).symm)
    have heq := hsame _ _ (List.perm_cons_erase hmem).symm
      ((List.perm_append_singleton _ _).trans (List.perm_cons_erase hmem).symm)
    rw [hlast] at heq
    have htake := List.append_cancel_left (hfirst.symm.trans heq)
    rw [List.flatMap_nil, List.length_nil, Nat.sub_zero, take_eq_take_sub_iff] at htake
    omega
  · intro hfree
    have hfull : ∀ order : List τ, order.Perm sources →
        (fill n l (order.flatMap content)).filter p =
          l.filter p ++ (content source).take (n - l.length) := by
      intro order hperm
      obtain ⟨before, after, rfl⟩ := List.append_of_mem (hperm.symm.subset hmem)
      have hlen := (hperm.flatMap_right content).length_eq
      rw [List.flatMap_append, List.flatMap_cons, List.length_append, List.length_append] at hlen
      rw [hshare before after hperm]
      exact congrArg _ (take_eq_take_sub_iff.mpr (by omega)).symm
    intro order₁ order₂ h₁ h₂
    rw [hfull order₁ h₁, hfull order₂ h₂]

end Filling

import Mathlib.Data.List.Basic
import Mathlib.Data.List.TakeWhile

/-!
# Segments of a list between separators

`segments sep l` are the non-empty runs of `l` between occurrences of `sep`, in order: what a
parser that skips empty fields reads. Parsers written as a loop peel one run at a time off the
front; `segments_eq_span` and `segments_eq_cons` are the equations that match one round of such a
loop, `length_rest_le` is its termination argument, and `segments_flatMap_cons` says that joining
non-empty runs with leading separators and cutting again gives the runs back.
-/

namespace Segments

universe u v

variable {α : Type u} [DecidableEq α] {sep : α}

/-- The non-empty runs between separators. -/
def segments (sep : α) (l : List α) : List (List α) := (l.splitOn sep).filter (· ≠ [])

@[simp] theorem segments_nil : segments sep [] = [] := by simp [segments]

theorem segments_append_cons (l r : List α) :
    segments sep (l ++ sep :: r) = segments sep l ++ segments sep r := by
  rw [segments, List.splitOn_append_cons_self, List.filter_append]
  rfl

@[simp] theorem segments_cons (l : List α) : segments sep (sep :: l) = segments sep l := by
  simpa using @segments_append_cons _ _ sep [] l

theorem segments_of_notMem {l : List α} (h : sep ∉ l) (hne : l ≠ []) : segments sep l = [l] := by
  rw [segments, List.splitOn_eq_singleton h]
  simp [hne]

/-- The part of a list before its first separator, and what follows it. -/
theorem takeWhile_append_span (sep : α) (l : List α) :
    l = l.takeWhile (· ≠ sep) ∧ l.dropWhile (· ≠ sep) = [] ∨
      ∃ r, l.dropWhile (· ≠ sep) = sep :: r ∧ l = l.takeWhile (· ≠ sep) ++ sep :: r := by
  induction l with
  | nil => exact Or.inl ⟨rfl, rfl⟩
  | cons c l ih =>
    rcases eq_or_ne c sep with rfl | hc
    · exact Or.inr ⟨l, by simp, by simp⟩
    · rw [List.takeWhile_cons_of_pos (by simpa using hc), List.dropWhile_cons_of_pos (by simpa using hc)]
      rcases ih with ⟨hl, hd⟩ | ⟨r, hd, hl⟩
      · exact Or.inl ⟨by rw [← hl], hd⟩
      · exact Or.inr ⟨r, hd, by rw [List.cons_append, ← hl]⟩

theorem sep_notMem_takeWhile (l : List α) : sep ∉ l.takeWhile (· ≠ sep) := fun h => by
  simpa using List.mem_takeWhile_imp h

theorem takeWhile_append_of_notMem {s : List α} (h : sep ∉ s) (r : List α) :
    (s ++ r).takeWhile (· ≠ sep) = s ++ r.takeWhile (· ≠ sep) :=
  List.takeWhile_append_of_pos fun x hx => by simpa using fun he : x = sep => h (he ▸ hx)

theorem dropWhile_append_of_notMem {s : List α} (h : sep ∉ s) (r : List α) :
    (s ++ r).dropWhile (· ≠ sep) = r.dropWhile (· ≠ sep) :=
  List.dropWhile_append_of_pos fun x hx => by simpa using fun he : x = sep => h (he ▸ hx)

theorem takeWhile_append_cons {s : List α} (h : sep ∉ s) (r : List α) :
    (s ++ sep :: r).takeWhile (· ≠ sep) = s := by
  rw [takeWhile_append_of_notMem h]
  simp

theorem dropWhile_append_cons {s : List α} (h : sep ∉ s) (r : List α) :
    (s ++ sep :: r).dropWhile (· ≠ sep) = sep :: r := by
  rw [dropWhile_append_of_notMem h]
  simp

theorem takeWhile_of_notMem {l : List α} (h : sep ∉ l) : l.takeWhile (· ≠ sep) = l := by
  simpa using takeWhile_append_of_notMem h []

theorem dropWhile_of_notMem {l : List α} (h : sep ∉ l) : l.dropWhile (· ≠ sep) = [] := by
  simpa using dropWhile_append_of_notMem h []

theorem take_length_takeWhile (sep : α) (l : List α) :
    l.take (l.takeWhile (· ≠ sep)).length = l.takeWhile (· ≠ sep) :=
  (List.prefix_iff_eq_take.mp (List.takeWhile_prefix _)).symm

/-- An empty run at the front means that the list starts with a separator. -/
theorem eq_of_length_takeWhile_eq_zero {a : α} {l : List α}
    (h : ((a :: l).takeWhile (· ≠ sep)).length = 0) : a = sep := by
  by_contra hne
  rw [List.takeWhile_cons_of_pos (by simpa using hne)] at h
  simp at h

omit [DecidableEq α] in
/-- What follows the last separator. -/
theorem exists_last_run {l : List α} (h : sep ∈ l) : ∃ r s, l = r ++ sep :: s ∧ sep ∉ s := by
  obtain ⟨s, r, hl, hs⟩ := List.eq_append_cons_of_mem (List.mem_reverse.mpr h)
  refine ⟨r.reverse, s.reverse, ?_, fun hm => hs (List.mem_reverse.mp hm)⟩
  rw [← List.reverse_reverse l, hl]
  simp

/-- What follows the run at the front and its separator is shorter than the list. -/
theorem length_rest_le (a : α) (l : List α) :
    (((a :: l).dropWhile (· ≠ sep)).drop 1).length ≤ l.length := by
  rw [List.length_drop]
  exact Nat.sub_le_of_le_add (List.dropWhile_suffix _).length_le

theorem mem_of_mem_rest {l : List α} {x : α} (h : x ∈ (l.dropWhile (· ≠ sep)).drop 1) : x ∈ l :=
  (List.dropWhile_suffix _).subset (List.mem_of_mem_drop h)

/-- One round of a parser loop: the run at the front, then the runs of the rest. -/
theorem segments_eq_span (l : List α) :
    segments sep l =
      segments sep (l.takeWhile (· ≠ sep)) ++ segments sep ((l.dropWhile (· ≠ sep)).drop 1) := by
  rcases takeWhile_append_span sep l with ⟨hl, hd⟩ | ⟨r, hd, hl⟩
  · rw [hd, List.drop_nil, segments_nil, List.append_nil, ← hl]
  · rw [hd, List.drop_succ_cons, List.drop_zero, ← segments_append_cons, ← hl]

/-- A round that finds a run. -/
theorem segments_eq_cons {l : List α} (h : (l.takeWhile (· ≠ sep)).length ≠ 0) :
    segments sep l =
      l.takeWhile (· ≠ sep) :: segments sep ((l.dropWhile (· ≠ sep)).drop 1) := by
  rw [segments_eq_span, segments_of_notMem (sep_notMem_takeWhile l) fun he => h (by rw [he]; rfl)]
  rfl

/-- A list without segments is made of separators. -/
theorem eq_sep_of_segments_eq_nil {l : List α} (h : segments sep l = []) : ∀ x ∈ l, x = sep := by
  induction l with
  | nil => exact fun x hx => absurd hx List.not_mem_nil
  | cons a l ih =>
    by_cases hrun : ((a :: l).takeWhile (· ≠ sep)).length = 0
    · obtain rfl := eq_of_length_takeWhile_eq_zero hrun
      rw [segments_cons] at h
      intro x hx
      rcases List.mem_cons.mp hx with rfl | hx
      · rfl
      · exact ih h x hx
    · rw [segments_eq_cons hrun] at h
      cases h

/-- A segment is a non-empty, separator-free run of the list. -/
theorem mem_segments {l s : List α} (h : s ∈ segments sep l) :
    s ≠ [] ∧ sep ∉ s ∧ s <:+: l := by
  induction hn : l.length using Nat.strongRecOn generalizing l with
  | _ n ih =>
    subst hn
    rw [segments_eq_span, List.mem_append] at h
    rcases h with h | h
    · rcases eq_or_ne (l.takeWhile (· ≠ sep)) [] with he | hne
      · rw [he, segments_nil] at h
        cases h
      · rw [segments_of_notMem (sep_notMem_takeWhile l) hne, List.mem_singleton] at h
        subst h
        exact ⟨hne, sep_notMem_takeWhile l, (List.takeWhile_prefix _).isInfix⟩
    · rcases takeWhile_append_span sep l with ⟨-, hd⟩ | ⟨r, hd, hl⟩
      · rw [hd, List.drop_nil, segments_nil] at h
        cases h
      · rw [hd, List.drop_succ_cons, List.drop_zero] at h
        have hlen : r.length < l.length := by
          rw [hl, List.length_append, List.length_cons]
          omega
        obtain ⟨hne, hsep, hinfix⟩ := ih r.length hlen h rfl
        refine ⟨hne, hsep, hinfix.trans ?_⟩
        rw [hl]
        exact ((List.suffix_cons sep r).trans (List.suffix_append _ _)).isInfix

/-- Every element but the separators is in a segment. -/
theorem exists_mem_segments {l : List α} {x : α} (hx : x ∈ l) (hne : x ≠ sep) :
    ∃ s ∈ segments sep l, x ∈ s := by
  induction hn : l.length using Nat.strongRecOn generalizing l with
  | _ n ih =>
    subst hn
    rcases takeWhile_append_span sep l with ⟨hl, -⟩ | ⟨r, -, hl⟩
    · have hsep : sep ∉ l := by
        rw [hl]
        exact sep_notMem_takeWhile l
      exact ⟨l, by rw [segments_of_notMem hsep (List.ne_nil_of_mem hx)]; simp, hx⟩
    · have hlen : r.length < l.length := by
        rw [hl, List.length_append, List.length_cons]
        omega
      rw [hl, segments_append_cons]
      rw [hl] at hx
      rcases List.mem_append.mp hx with hx | hx
      · refine ⟨_, List.mem_append_left _ ?_, hx⟩
        rw [segments_of_notMem (sep_notMem_takeWhile l) (List.ne_nil_of_mem hx)]
        exact List.mem_singleton_self _
      · rcases List.mem_cons.mp hx with he | hx
        · exact absurd he hne
        · obtain ⟨s, hs, hxs⟩ := ih r.length hlen hx rfl
          exact ⟨s, List.mem_append_right _ hs, hxs⟩

/-- The segments with a separator before each are at most one longer than the list. -/
theorem length_flatMap_segments_le (l : List α) :
    ((segments sep l).flatMap (sep :: ·)).length ≤ l.length + 1 := by
  induction hn : l.length using Nat.strongRecOn generalizing l with
  | _ n ih =>
    subst hn
    cases l with
    | nil => simp
    | cons a l =>
      by_cases hrun : ((a :: l).takeWhile (· ≠ sep)).length = 0
      · obtain rfl := eq_of_length_takeWhile_eq_zero hrun
        rw [segments_cons]
        exact (ih l.length (Nat.lt_succ_self _) l rfl).trans (Nat.succ_le_succ (Nat.le_succ _))
      · rw [segments_eq_cons hrun, List.flatMap_cons, List.length_append, List.length_cons]
        rcases takeWhile_append_span sep (a :: l) with ⟨hl, hd⟩ | ⟨r, hd, hl⟩
        · rw [hd, List.drop_nil, segments_nil, List.flatMap_nil, List.length_nil, Nat.add_zero,
            ← hl]
        · have hlen : (a :: l).length = ((a :: l).takeWhile (· ≠ sep)).length + (r.length + 1) := by
            conv_lhs => rw [hl, List.length_append, List.length_cons]
          have hrest := ih r.length (by omega) r rfl
          rw [hd, List.drop_succ_cons, List.drop_zero]
          omega

/-- Joining non-empty runs with leading separators and cutting again gives the runs back. -/
theorem segments_flatMap_cons {ss : List (List α)} (h : ∀ s ∈ ss, s ≠ [] ∧ sep ∉ s) :
    segments sep (ss.flatMap fun s => sep :: s) = ss := by
  induction ss with
  | nil => simp
  | cons s ss ih =>
    obtain ⟨hne, hsep⟩ := h s List.mem_cons_self
    have ih' := ih fun t ht => h t (List.mem_cons_of_mem _ ht)
    rw [List.flatMap_cons, List.cons_append, segments_cons]
    cases ss with
    | nil =>
      rw [List.flatMap_nil, List.append_nil, segments_of_notMem hsep hne]
    | cons t ss =>
      rw [List.flatMap_cons, List.cons_append, segments_append_cons,
        segments_of_notMem hsep hne]
      rw [List.flatMap_cons, List.cons_append, segments_cons] at ih'
      rw [ih']
      rfl

end Segments

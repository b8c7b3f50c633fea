import DsoBrowser.BeaconRoutes
import DsoBrowser.StoredNames

/-!
# What a beacon says

`mesh_send_beacon` writes each local prefix as its canonical path without the leading slash
(`writtenPrefix`), with a semicolon between two prefixes. A component that does not fit the buffer
ends its prefix, but the slash before it is written already (`beaconComponentsLoop_of_full`); a
text that stays below the limit is written whole (`beaconText_of_fits`).

The receiver cuts at the first bar, which may be one inside the name. Then it cuts at the
semicolons and finds the strings again, all but perhaps the first (`beaconStrings_eq`).
-/

namespace DsoBrowser

open Segments

/-! ## Writing -/

/-- A name as it stands in a beacon. -/
def writtenPrefix (p : PsirpName) : CString := (pathOf p.components).tail

/-- The prefixes as they stand in a beacon. -/
def writtenPrefixes (ps : List PsirpName) : CString :=
  (ps.flatMap fun p => semicolon :: writtenPrefix p).tail

/-- A component ends before this position. -/
def beaconLimit : Nat := beaconBufSize - 2

theorem writtenPrefix_of_cons {p : PsirpName} {c : CString} {cs : List CString}
    (h : p.components = c :: cs) : writtenPrefix p = c ++ pathOf cs := by
  rw [writtenPrefix, h]
  rfl

theorem cons_writtenPrefix {p : PsirpName} (h : p.components ≠ []) :
    slash :: writtenPrefix p = pathOf p.components := by
  obtain ⟨c, cs, hcs⟩ := List.exists_cons_of_ne_nil h
  rw [writtenPrefix_of_cons hcs, hcs]
  rfl

theorem beaconComponentsLoop_zero (c : CString) (cs : List CString) (out : CString) :
    beaconComponentsLoop (c :: cs) 0 out =
      if beaconLimit ≤ out.length + c.length then out else beaconComponentsLoop cs 1 (out ++ c) := rfl

theorem beaconComponentsLoop_initial (cs : List CString) :
    ∀ (j : Nat) (out : CString), out <+: beaconComponentsLoop cs j out := by
  induction cs with
  | nil =>
    intro j out
    exact List.prefix_rfl
  | cons c cs ih =>
    intro j out
    have hsep : out <+: if 0 < j then out ++ [slash] else out := by
      split
      · exact List.prefix_append _ _
      · exact List.prefix_rfl
    rw [beaconComponentsLoop]
    generalize (if 0 < j then out ++ [slash] else out) = out' at hsep ⊢
    split
    · exact hsep
    · exact hsep.trans ((List.prefix_append _ _).trans (ih _ _))

theorem beaconPrefixesLoop_initial (ps : List PsirpName) :
    ∀ (i : Nat) (out : CString), out <+: beaconPrefixesLoop ps i out := by
  induction ps with
  | nil =>
    intro i out
    exact List.prefix_rfl
  | cons p ps ih =>
    intro i out
    have hsep : out <+: if 0 < i then out ++ [semicolon] else out := by
      split
      · exact List.prefix_append _ _
      · exact List.prefix_rfl
    exact hsep.trans ((beaconComponentsLoop_initial _ _ _).trans (ih _ _))

/-- A beacon is its header, the name, and what follows the bar. -/
theorem beaconText_eq_some {ps : List PsirpName} {t : CString} (h : beaconText ps = some t) :
    ∃ rest, t = beaconHeader ++ (beaconName ps ++ bar :: rest) := by
  obtain ⟨rest, hrest⟩ :=
    beaconPrefixesLoop_initial ps 0 (beaconHeader ++ beaconName ps ++ [bar])
  rw [beaconText] at h
  obtain ⟨-, h⟩ := Option.ite_none_right_eq_some.mp h
  obtain rfl := Option.some.inj h
  refine ⟨rest, ?_⟩
  rw [← hrest]
  simp

/-- The name is made of slashes and one component. -/
theorem mem_beaconNameLoop {ps : List PsirpName} {x : CChar} :
    ∀ {i : Nat}, x ∈ beaconNameLoop ps i → x = slash ∨ ∃ p ∈ ps, ∃ c ∈ p.components, x ∈ c := by
  induction ps with
  | nil =>
    intro i h
    cases h
  | cons p ps ih =>
    intro i h
    rw [beaconNameLoop, List.mem_append] at h
    rcases h with h | h
    · left
      split at h
      · exact List.mem_singleton.mp h
      · simp at h
    · split at h
      · rename_i c cs hcs
        exact Or.inr ⟨p, List.mem_cons_self, c, by rw [hcs]; exact List.mem_cons_self, h⟩
      · exact (ih h).imp_right fun ⟨q, hq, hc⟩ => ⟨q, List.mem_cons_of_mem _ hq, hc⟩

/-- What a loop has written is made of what was there, separators and components. -/
theorem mem_beaconComponentsLoop {cs : List CString} {x : CChar} :
    ∀ {j : Nat} {out : CString}, x ∈ beaconComponentsLoop cs j out →
      x ∈ out ∨ x = slash ∨ ∃ c ∈ cs, x ∈ c := by
  induction cs with
  | nil => exact fun h => Or.inl h
  | cons c cs ih =>
    intro j out h
    have hsep : ∀ {y}, y ∈ (if 0 < j then out ++ [slash] else out) → y ∈ out ∨ y = slash := by
      intro y hy
      split at hy
      · exact (List.mem_append.mp hy).imp_right List.mem_singleton.mp
      · exact Or.inl hy
    rw [beaconComponentsLoop] at h
    generalize (if 0 < j then out ++ [slash] else out) = out' at hsep h
    split at h
    · exact (hsep h).imp_right Or.inl
    · rcases ih h with h | h | ⟨d, hd, hx⟩
      · rcases List.mem_append.mp h with h | h
        · exact (hsep h).imp_right Or.inl
        · exact Or.inr (Or.inr ⟨c, List.mem_cons_self, h⟩)
      · exact Or.inr (Or.inl h)
      · exact Or.inr (Or.inr ⟨d, List.mem_cons_of_mem _ hd, hx⟩)

theorem mem_beaconPrefixesLoop {ps : List PsirpName} {x : CChar} :
    ∀ {i : Nat} {out : CString}, x ∈ beaconPrefixesLoop ps i out →
      x ∈ out ∨ (x = slash ∨ x = semicolon) ∨ ∃ p ∈ ps, ∃ c ∈ p.components, x ∈ c := by
  induction ps with
  | nil => exact fun h => Or.inl h
  | cons p ps ih =>
    intro i out h
    rw [beaconPrefixesLoop] at h
    rcases ih h with h | h | ⟨q, hq, hx⟩
    · rcases mem_beaconComponentsLoop h with h | h | ⟨c, hc, hx⟩
      · split at h
        · rcases List.mem_append.mp h with h | h
          · exact Or.inl h
          · exact Or.inr (Or.inl (Or.inr (List.mem_singleton.mp h)))
        · exact Or.inl h
      · exact Or.inr (Or.inl (Or.inl h))
      · exact Or.inr (Or.inr ⟨p, List.mem_cons_self, c, hc, hx⟩)
    · exact Or.inr (Or.inl h)
    · exact Or.inr (Or.inr ⟨q, List.mem_cons_of_mem _ hq, hx⟩)

/-- A beacon has no `'@'` in it if the components have none. -/
theorem atSign_notMem_beaconText {ps : List PsirpName} {t : CString}
    (hps : ∀ p ∈ ps, ∀ c ∈ p.components, atSign ∉ c) (h : beaconText ps = some t) :
    atSign ∉ t := by
  rw [beaconText] at h
  obtain ⟨-, h⟩ := Option.ite_none_right_eq_some.mp h
  obtain rfl := Option.some.inj h
  intro hmem
  rcases mem_beaconPrefixesLoop hmem with h | h | ⟨p, hp, c, hc, hx⟩
  · rw [List.append_assoc, List.mem_append, List.mem_append, List.mem_singleton] at h
    rcases h with h | h | h
    · exact absurd h (by decide)
    · rcases mem_beaconNameLoop h with h | ⟨p, hp, c, hc, hx⟩
      · exact atSign_ne_slash h
      · exact hps p hp c hc hx
    · exact absurd h (by decide)
  · exact absurd h (by decide)
  · exact hps p hp c hc hx

/-- Components after the first are written with a slash before each. The loop ends behind the slash
before the first that does not fit. -/
theorem beaconComponentsLoop_rest (cs : List CString) :
    ∀ {j : Nat} {out : CString}, 0 < j → out.length < beaconLimit →
      (out.length + (pathOf cs).length < beaconLimit ∧
        beaconComponentsLoop cs j out = out ++ pathOf cs) ∨
      ∃ kept c lost, cs = kept ++ c :: lost ∧
        beaconComponentsLoop cs j out = out ++ (pathOf kept ++ [slash]) ∧
        out.length + (pathOf kept).length < beaconLimit ∧
        beaconLimit ≤ out.length + (pathOf kept).length + 1 + c.length := by
  induction cs with
  | nil =>
    intro j out _ hout
    rw [pathOf_nil, List.length_nil, Nat.add_zero, List.append_nil]
    exact Or.inl ⟨hout, rfl⟩
  | cons c cs ih =>
    intro j out hj hout
    rw [beaconComponentsLoop, if_pos hj]
    split
    · -- the component does not fit
      rename_i hfull
      rw [List.length_append, List.length_singleton] at hfull
      exact Or.inr ⟨[], c, cs, rfl, rfl, hout, hfull⟩
    · rename_i hfits
      have hlt : (out ++ [slash] ++ c).length < beaconLimit := by
        rw [List.length_append]
        exact Nat.not_le.mp hfits
      have hlen : (out ++ [slash] ++ c).length = out.length + (c.length + 1) := by
        simp only [List.length_append, List.length_singleton]
        omega
      rcases @ih (j + 1) (out ++ [slash] ++ c) (Nat.succ_pos j) hlt with
        ⟨h, hloop⟩ | ⟨kept, d, lost, hcs, hloop, hkept, hfull⟩
      · refine Or.inl ⟨?_, by rw [hloop]; simp⟩
        rw [pathOf_cons, List.length_append, List.length_cons]
        omega
      · refine Or.inr ⟨c :: kept, d, lost, by rw [hcs, List.cons_append], by rw [hloop]; simp,
          ?_, ?_⟩
        · rw [pathOf_cons, List.length_append, List.length_cons]
          omega
        · rw [pathOf_cons, List.length_append, List.length_cons]
          omega

/-- **A prefix that fits** is written whole. -/
theorem beaconComponentsLoop_of_fits {p : PsirpName} (hne : p.components ≠ []) {out : CString}
    (h : out.length + (writtenPrefix p).length < beaconLimit) :
    beaconComponentsLoop p.components 0 out = out ++ writtenPrefix p := by
  obtain ⟨c, cs, hcs⟩ := List.exists_cons_of_ne_nil hne
  rw [writtenPrefix_of_cons hcs, List.length_append] at h
  have hc : out.length + c.length < beaconLimit := by omega
  rw [writtenPrefix_of_cons hcs, hcs, beaconComponentsLoop_zero, if_neg (Nat.not_le.mpr hc),
    ← List.append_assoc]
  rw [← List.length_append] at hc
  rcases @beaconComponentsLoop_rest cs (0 + 1) (out ++ c) (Nat.succ_pos 0) hc with
    ⟨-, hloop⟩ | ⟨kept, d, lost, rfl, -, -, hfull⟩
  · exact hloop
  · rw [pathOf_append, pathOf_cons, List.length_append, List.length_append, List.length_cons] at h
    rw [List.length_append] at hfull
    omega

/-- **A prefix that does not fit** is cut after a slash, if its first component fits. -/
theorem beaconComponentsLoop_of_full {p : PsirpName} {c : CString} {cs : List CString}
    (hcs : p.components = c :: cs) {out : CString} (hc : out.length + c.length < beaconLimit)
    (h : beaconLimit ≤ out.length + (writtenPrefix p).length) :
    ∃ kept lost, cs = kept ++ lost ∧ lost ≠ [] ∧
      beaconComponentsLoop p.components 0 out = out ++ (c ++ pathOf kept ++ [slash]) := by
  rw [writtenPrefix_of_cons hcs, List.length_append] at h
  rw [hcs, beaconComponentsLoop_zero, if_neg (Nat.not_le.mpr hc)]
  rw [← List.length_append] at hc
  rcases @beaconComponentsLoop_rest cs (0 + 1) (out ++ c) (Nat.succ_pos 0) hc with
    ⟨hlt, -⟩ | ⟨kept, d, lost, hsplit, hloop, -, -⟩
  · rw [List.length_append] at hlt
    omega
  · refine ⟨kept, d :: lost, hsplit, List.cons_ne_nil _ _, ?_⟩
    rw [hloop]
    simp

theorem beaconPrefixesLoop_append (ps qs : List PsirpName) :
    ∀ (i : Nat) (out : CString), beaconPrefixesLoop (ps ++ qs) i out =
      beaconPrefixesLoop qs (i + ps.length) (beaconPrefixesLoop ps i out) := by
  induction ps with
  | nil => exact fun i out => rfl
  | cons p ps ih =>
    intro i out
    rw [List.cons_append, beaconPrefixesLoop, ih, beaconPrefixesLoop, List.length_cons,
      Nat.add_right_comm, Nat.add_assoc]

theorem beaconPrefixesLoop_concat (ps : List PsirpName) (p : PsirpName) (i : Nat) (out : CString) :
    beaconPrefixesLoop (ps ++ [p]) i out =
      beaconComponentsLoop p.components 0
        (if 0 < i + ps.length then beaconPrefixesLoop ps i out ++ [semicolon]
          else beaconPrefixesLoop ps i out) :=
  beaconPrefixesLoop_append ps [p] i out

theorem writtenPrefixes_concat (p : PsirpName) (qs : List PsirpName) (q : PsirpName) :
    writtenPrefixes (p :: qs ++ [q]) =
      writtenPrefixes (p :: qs) ++ [semicolon] ++ writtenPrefix q := by
  simp [writtenPrefixes]

/-- Prefixes that all fit are written whole. -/
theorem beaconPrefixesLoop_of_fits {ps : List PsirpName} (hps : ∀ p ∈ ps, p.components ≠ [])
    {out : CString} (h : out.length + (writtenPrefixes ps).length < beaconLimit) :
    beaconPrefixesLoop ps 0 out = out ++ writtenPrefixes ps := by
  induction ps using List.reverseRecOn with
  | nil => rw [beaconPrefixesLoop, writtenPrefixes, List.flatMap_nil, List.tail_nil, List.append_nil]
  | append_singleton ps p ih =>
    have hp : p.components ≠ [] := hps p (List.mem_append_right _ (List.mem_singleton_self p))
    have hps' : ∀ q ∈ ps, q.components ≠ [] := fun q hq => hps q (List.mem_append_left _ hq)
    rw [beaconPrefixesLoop_concat, Nat.zero_add]
    cases ps with
    | nil =>
      rw [if_neg (by simp), beaconPrefixesLoop]
      have hwritten : writtenPrefixes ([] ++ [p]) = writtenPrefix p := by
        simp [writtenPrefixes]
      rw [hwritten] at h ⊢
      exact beaconComponentsLoop_of_fits hp h
    | cons q ps =>
      rw [writtenPrefixes_concat] at h ⊢
      simp only [List.length_append, List.length_singleton] at h
      rw [if_pos (by simp), ih hps' (by omega),
        beaconComponentsLoop_of_fits hp
          (by simp only [List.length_append, List.length_singleton]; omega)]
      simp only [List.append_assoc]

/-- What comes before the prefixes in the beacon of a peer called `name`. -/
def beaconStart (name : CString) : CString := beaconHeader ++ name ++ [bar]

theorem length_beaconStart (name : CString) : (beaconStart name).length = name.length + 13 := by
  have hheader : beaconHeader.length = 12 := rfl
  rw [beaconStart, List.length_append, List.length_append, List.length_singleton, hheader]
  omega

theorem beaconName_of_cons {p : PsirpName} {ps : List PsirpName} {c : CString} {cs : List CString}
    (h : p.components = c :: cs) : beaconName (p :: ps) = c := by
  rw [beaconName, beaconNameLoop, h]
  rfl

/-- **A beacon that fits** has all prefixes in it. -/
theorem beaconText_of_fits {ps : List PsirpName} (hps : ∀ p ∈ ps, p.components ≠ [])
    (h : (beaconStart (beaconName ps)).length + (writtenPrefixes ps).length < beaconLimit) :
    beaconText ps = some (beaconStart (beaconName ps) ++ writtenPrefixes ps) := by
  rw [beaconText, ← beaconStart, beaconPrefixesLoop_of_fits hps h, if_pos]
  rw [List.length_append]
  exact lt_of_lt_of_le h (Nat.sub_le _ _)

/-- **A beacon whose last prefix does not fit** ends with that prefix cut after a slash. -/
theorem beaconText_of_cut {p q : PsirpName} {qs : List PsirpName} {c : CString}
    {cs : List CString} {text : CString} (htext : beaconText (p :: qs ++ [q]) = some text)
    (hne : ∀ r ∈ p :: qs, r.components ≠ []) (hcs : q.components = c :: cs)
    (hfits : (beaconStart (beaconName (p :: qs ++ [q]))).length +
      (writtenPrefixes (p :: qs)).length + 1 + c.length < beaconLimit)
    (hfull : beaconLimit ≤ (beaconStart (beaconName (p :: qs ++ [q]))).length +
      (writtenPrefixes (p :: qs ++ [q])).length) :
    ∃ kept lost, cs = kept ++ lost ∧ lost ≠ [] ∧
      text = beaconStart (beaconName (p :: qs ++ [q])) ++ (writtenPrefix p ++
        (qs.map writtenPrefix ++ [c ++ pathOf kept ++ [slash]]).flatMap (semicolon :: ·)) := by
  rw [beaconText, ← beaconStart, beaconPrefixesLoop_concat] at htext
  obtain ⟨-, htext⟩ := Option.ite_none_right_eq_some.mp htext
  rw [writtenPrefixes_concat, List.length_append, List.length_append,
    List.length_singleton] at hfull
  generalize beaconStart (beaconName (p :: qs ++ [q])) = start at htext hfits hfull ⊢
  have hloop := @beaconPrefixesLoop_of_fits (p :: qs) hne start (by omega)
  obtain ⟨kept, lost, hsplit, hlost, hcut⟩ := @beaconComponentsLoop_of_full q c cs hcs
    (start ++ writtenPrefixes (p :: qs) ++ [semicolon])
    (by simp only [List.length_append, List.length_singleton]; omega)
    (by simp only [List.length_append, List.length_singleton]; omega)
  refine ⟨kept, lost, hsplit, hlost, ?_⟩
  rw [← Option.some.inj htext, hloop, if_pos (by simp), hcut]
  simp [writtenPrefixes, List.flatMap_map]

/-! ## Reading -/

/-- What follows the first bar of the name, a bar and the first prefix string. -/
def firstString (name s : CString) : CString := ((name ++ bar :: s).dropWhile (· ≠ bar)).drop 1

theorem firstString_of_noBar {name : CString} (h : bar ∉ name) (s : CString) :
    firstString name s = s := by
  rw [firstString, dropWhile_append_cons h, List.drop_succ_cons, List.drop_zero]

/-- A name with a bar leaves its end in front of the first prefix string. -/
theorem firstString_of_bar {a : CString} (h : bar ∉ a) (b s : CString) :
    firstString (a ++ bar :: b) s = b ++ bar :: s := by
  rw [firstString, List.append_assoc, List.cons_append, dropWhile_append_cons h,
    List.drop_succ_cons, List.drop_zero]

theorem firstString_append (name s r : CString) :
    firstString name (s ++ r) = firstString name s ++ r := by
  by_cases h : bar ∈ name
  · obtain ⟨a, b, rfl, ha⟩ := List.eq_append_cons_of_mem h
    rw [firstString_of_bar ha, firstString_of_bar ha, List.append_assoc, List.cons_append]
  · rw [firstString_of_noBar h, firstString_of_noBar h]

theorem firstString_ne_nil (name : CString) {s : CString} (hs : s ≠ []) :
    firstString name s ≠ [] := by
  by_cases h : bar ∈ name
  · obtain ⟨a, b, rfl, ha⟩ := List.eq_append_cons_of_mem h
    rw [firstString_of_bar ha]
    exact List.append_ne_nil_of_right_ne_nil _ (List.cons_ne_nil _ _)
  · rwa [firstString_of_noBar h]

theorem mem_of_mem_firstString {name s : CString} {x : CChar} (h : x ∈ firstString name s) :
    x ∈ name ∨ x = bar ∨ x ∈ s := by
  have hmem : x ∈ name ++ bar :: s := (List.dropWhile_suffix _).subset (List.mem_of_mem_drop h)
  rcases List.mem_append.mp hmem with hx | hx
  · exact Or.inl hx
  · exact Or.inr (List.mem_cons.mp hx)

/-- The receiver finds what follows the first bar. -/
theorem beaconPrefixes_start (name s : CString) :
    beaconPrefixes (beaconStart name ++ s) = firstString name s := by
  rw [beaconPrefixes, beaconStart, List.append_assoc, List.append_assoc, List.drop_left,
    List.singleton_append, firstString]

/-- **The strings of a beacon** are those written, but the first one may have the end of the name
in front. -/
theorem beaconStrings_eq {name s : CString} {ss : List CString} (hname : semicolon ∉ name)
    (hs : ∀ t ∈ s :: ss, t ≠ [] ∧ semicolon ∉ t) (hle : (s :: ss).length ≤ meshMaxPrefixes) :
    beaconStrings (beaconStart name ++ (s ++ ss.flatMap (semicolon :: ·))) =
      firstString name s :: ss := by
  have hfirst : firstString name s ≠ [] ∧ semicolon ∉ firstString name s := by
    obtain ⟨hne, hsemi⟩ := hs s List.mem_cons_self
    refine ⟨firstString_ne_nil name hne, fun h => ?_⟩
    rcases mem_of_mem_firstString h with h | h | h
    · exact hname h
    · exact absurd h (by decide)
    · exact hsemi h
  have hall : ∀ t ∈ firstString name s :: ss, t ≠ [] ∧ semicolon ∉ t := by
    intro t ht
    rcases List.mem_cons.mp ht with rfl | ht
    · exact hfirst
    · exact hs t (List.mem_cons_of_mem _ ht)
  have hcut := segments_flatMap_cons hall
  rw [List.flatMap_cons, List.cons_append, segments_cons] at hcut
  rw [beaconStrings, beaconPrefixes_start, firstString_append, hcut, List.take_of_length_le]
  exact hle

end DsoBrowser

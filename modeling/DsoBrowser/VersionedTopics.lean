import DsoBrowser.NameRoundTrip
import DsoBrowser.Pubsub

/-!
# Versioned topic names

`pubsub_versioned_name` writes the base name into one buffer of `PSIRP_MAX_NAME` bytes, the base,
an `'@'` and the version into another, and parses that. It is to give the base with the version or
nothing (`exactOrRefused_iff`). The buffers cut in silence, and what is left may still be a name:

* a base without components gets an empty one;
* a base of more than 1022 characters loses its last component, all but the slash;
* a version of which the buffer takes only the first digits is read as these.
-/

namespace DsoBrowser

open Segments

/-- The name is the version `v` of the topic `base`. -/
structure VersionOf (base : PsirpName) (v : UInt64) (out : PsirpName) : Prop where
  /-- it has the topic's components -/
  components_eq : out.components = base.components
  /-- it is versioned -/
  hasVersion_eq : out.hasVersion = true
  /-- and has the version -/
  version_eq : out.version = v

/-- The call gives the version of the topic, or refuses. -/
def ExactOrRefused (base : PsirpName) (v : UInt64) : Prop :=
  ∀ out, pubsubVersionedName base v = (true, out) → VersionOf base v out

/-- The base has a component and is written in full, and either the version is, too, or what is cut
off it leaves no digit or makes no name. -/
structure KeepsVersion (base : PsirpName) (v : UInt64) : Prop where
  /-- there is a component -/
  ne_nil : base.components ≠ []
  /-- the base is written in full -/
  base_fits : (pathOf base.components).length + 1 < psirpMaxName
  /-- the version is written in full, not at all, or after too long a segment -/
  version_fits : (pathOf base.components).length + 1 + (decimal v.toNat).length < psirpMaxName ∨
    (pathOf base.components).length + 2 = psirpMaxName ∨
    (pathOf base.components.dropLast).length + 1 + psirpMaxComponent < psirpMaxName

/-! ## Cut numbers -/

/-- The first digits of a number say a smaller one. -/
theorem numeralValue_lt_of_cut {d e : CString} {n : Nat} (h : d ++ e = decimal n) (hd : d ≠ [])
    (he : e ≠ []) : numeralValue d < n := by
  have hpos : 0 < n := by
    rw [Nat.pos_iff_ne_zero]
    rintro rfl
    have hone : (d ++ e).length = 1 := by rw [h]; rfl
    rw [List.length_append] at hone
    have := List.length_pos_of_ne_nil hd
    have := List.length_pos_of_ne_nil he
    omega
  have hvalue : numeralValue (d ++ e) = 10 ^ e.length * numeralValue d + numeralValue e := by
    rw [numeralValue, List.map_append, Nat.ofDigitChars_append,
      Nat.ofDigitChars_eq_ofDigitChars_zero, List.length_map]
    rfl
  have hten : 10 ≤ 10 ^ e.length :=
    Nat.le_self_pow (List.length_pos_of_ne_nil he).ne' 10
  rw [h, numeralValue_decimal] at hvalue
  have hle : 10 * numeralValue d ≤ 10 ^ e.length * numeralValue d := Nat.mul_le_mul_right _ hten
  omega

/-- So the version read is another one. -/
theorem version_ne_of_cut {d e : CString} {v : UInt64} (h : d ++ e = decimal v.toNat) (hd : d ≠ [])
    (he : e ≠ []) : UInt64.ofNat (numeralValue d) ≠ v := by
  have hlt := numeralValue_lt_of_cut h hd he
  intro heq
  have hnat := congrArg UInt64.toNat heq
  rw [UInt64.toNat_ofNat', Nat.mod_eq_of_lt (hlt.trans v.toNat_lt)] at hnat
  omega

/-! ## The text that is parsed -/

section Unversioned

variable {base : PsirpName} {v : UInt64}

/-- A base written in full is followed by as many digits as there is room for. -/
theorem versionedText_path (hv : base.hasVersion = false)
    (hfit : (pathOf base.components).length + 1 < psirpMaxName) :
    versionedText base v = pathOf base.components ++
      atSign :: (decimal v.toNat).take (psirpMaxName - 2 - (pathOf base.components).length) := by
  rw [versionedText, snprintf, psirpNameToString_path hv hfit, List.take_append,
    List.take_of_length_le (by omega)]
  obtain ⟨k, hk⟩ : ∃ k, psirpMaxName - 1 - (pathOf base.components).length = k + 1 :=
    ⟨psirpMaxName - 2 - (pathOf base.components).length, by omega⟩
  rw [hk, List.take_succ_cons, show psirpMaxName - 2 - (pathOf base.components).length = k by omega]

/-- A base that is not is read with an empty component in place of its last. -/
theorem versionedText_cut (hn : Parsed base) (hv : base.hasVersion = false)
    (hlong : ¬ (pathOf base.components).length + 1 < psirpMaxName) :
    ∃ init last, base.components = init ++ [last] ∧ init.length + 1 = psirpMaxComponents ∧
      versionedText base v = pathOf (init ++ [[]]) ++ atSign :: decimal v.toNat := by
  have hplain := hn.wellFormed.plain
  obtain ⟨init, last, hsplit, hlen, hcut⟩ := psirpNameToString_cut hv hplain hlong
  refine ⟨init, last, hsplit, hlen, ?_⟩
  have hinit : (pathOf init).length ≤ psirpMaxComponent * init.length :=
    length_pathOf_le fun c hc => (hplain c (by rw [hsplit]; simp [hc])).length_lt
  have hdigits := length_decimal_version_le v
  rw [versionedText, snprintf, hcut, pathOf_append, pathOf_cons, pathOf_nil, List.append_nil]
  refine List.take_of_length_le ?_
  simp only [List.length_append, List.length_cons, List.length_nil, psirpMaxName,
    psirpMaxComponents, psirpMaxComponent] at hlen hinit ⊢
  omega

/-! ## What the call gives -/

/-- A refusal is right. -/
theorem exactOrRefused_of_refused (h : (psirpNameInit (versionedText base v)).1 = false) :
    ExactOrRefused base v := by
  intro out hout
  rw [pubsubVersionedName] at hout
  rw [hout] at h
  cases h

/-- Only a name of the topic's components and the version will do. -/
theorem not_exactOrRefused (hok : (psirpNameInit (versionedText base v)).1 = true)
    (hne : (psirpNameInit (versionedText base v)).2.components ≠ base.components ∨
      (psirpNameInit (versionedText base v)).2.version ≠ v) : ¬ ExactOrRefused base v := by
  intro h
  have hof := h _ (Prod.ext hok rfl)
  exact hne.elim (· hof.components_eq) (· hof.version_eq)

/-- A base without components gets an empty one. -/
theorem not_exactOrRefused_nil (hnil : base.components = []) : ¬ ExactOrRefused base v := by
  have hdigits : (decimal v.toNat).all isDigit = true :=
    List.all_eq_true.mpr fun _ => isDigit_of_mem_decimal
  have hlen := length_decimal_version_le v
  have htext : versionedText base v = atSign :: decimal v.toNat := by
    rw [versionedText, snprintf, psirpNameToString, if_neg (by decide), hnil, nameToStringLoop,
      List.nil_append]
    refine List.take_of_length_le ?_
    rw [List.length_cons, psirpMaxName, psirpMaxComponents, psirpMaxComponent]
    omega
  have hv : VersionedText (atSign :: decimal v.toNat) [] (decimal v.toNat) :=
    ⟨rfl, List.not_mem_nil, decimal_ne_nil _, hdigits⟩
  have hsegs : segments slash (atSign :: decimal v.toNat) = [atSign :: decimal v.toNat] := by
    refine segments_of_notMem ?_ (List.cons_ne_nil _ _)
    rw [List.mem_cons, not_or]
    exact ⟨atSign_ne_slash.symm, slash_notMem_decimal _⟩
  have hversioned : Versioned psirpMaxComponents (atSign :: decimal v.toNat) (decimal v.toNat) := by
    refine ⟨by rw [hsegs]; exact Nat.succ_le_succ (Nat.zero_le _), ?_, _, hv⟩
    rw [hsegs, List.forall_mem_singleton, List.length_cons, psirpMaxComponent]
    omega
  obtain ⟨hok, hcomps, -, -⟩ := psirpNameInit_of_versioned hversioned
  rw [← htext] at hok hcomps
  refine not_exactOrRefused hok (Or.inl ?_)
  rw [hcomps, htext, hsegs, hnil]
  exact List.cons_ne_nil _ _

/-- A base whose last component is not written loses it. -/
theorem not_exactOrRefused_long (hn : Parsed base) (hv : base.hasVersion = false)
    (hlong : ¬ (pathOf base.components).length + 1 < psirpMaxName) : ¬ ExactOrRefused base v := by
  obtain ⟨init, last, hsplit, hlen, htext⟩ := versionedText_cut (v := v) hn hv hlong
  have hcomps := hn.pathComponent hv
  rw [hsplit] at hcomps
  have hlast := hcomps last (by simp)
  obtain ⟨hok, hread, -, -⟩ := psirpNameInit_versioned (c := []) (v := v)
    (fun x hx => hcomps x (List.mem_append_left _ hx)) hlen.le List.not_mem_nil List.not_mem_nil
    (by
      have := length_decimal_version_le v
      rw [List.nil_append, List.length_cons, psirpMaxComponent]
      omega)
  rw [← htext] at hok hread
  refine not_exactOrRefused hok (Or.inl ?_)
  rw [hread, hsplit]
  intro heq
  exact hlast.ne_nil (List.singleton_inj.mp (List.append_cancel_left heq)).symm

/-- A text without digits, or with too many, is refused. -/
theorem exactOrRefused_of_bad {init : List CString} {last d : CString}
    (htext : versionedText base v = pathOf (init ++ [last]) ++ atSign :: d)
    (hinit : ∀ x ∈ init, PathComponent x) (hcount : init.length + 1 ≤ psirpMaxComponents)
    (hlast : PathComponent last) (hdigits : d.all isDigit = true)
    (hbad : d = [] ∨ psirpMaxComponent ≤ (last ++ atSign :: d).length) :
    ExactOrRefused base v := by
  refine exactOrRefused_of_refused ?_
  rw [htext]
  exact psirpNameInit_digits_refused hinit hcount hlast.noSlash hlast.noAt hdigits hbad

/-- A text with a part of the digits gives another version. -/
theorem not_exactOrRefused_cut {init : List CString} {last d e : CString}
    (htext : versionedText base v = pathOf (init ++ [last]) ++ atSign :: d)
    (hinit : ∀ x ∈ init, PathComponent x) (hcount : init.length + 1 ≤ psirpMaxComponents)
    (hlast : PathComponent last) (hshort : (last ++ atSign :: d).length < psirpMaxComponent)
    (hcut : d ++ e = decimal v.toNat) (hd : d ≠ []) (he : e ≠ []) : ¬ ExactOrRefused base v := by
  have hdigits : d.all isDigit = true := List.all_eq_true.mpr fun c hc =>
    isDigit_of_mem_decimal (hcut ▸ List.mem_append_left e hc)
  obtain ⟨hok, -, hver, -⟩ :=
    psirpNameInit_digits hinit hcount hlast.noSlash hlast.noAt hd hdigits hshort
  rw [← htext] at hok hver
  refine not_exactOrRefused hok (Or.inr ?_)
  rw [hver]
  exact version_ne_of_cut hcut hd he

/-- A text with all digits gives the version, if its last segment is not too long. -/
theorem exactOrRefused_whole {init : List CString} {last : CString}
    (hsplit : base.components = init ++ [last])
    (htext : versionedText base v = pathOf (init ++ [last]) ++ atSign :: decimal v.toNat)
    (hinit : ∀ x ∈ init, PathComponent x) (hcount : init.length + 1 ≤ psirpMaxComponents)
    (hlast : PathComponent last) : ExactOrRefused base v := by
  by_cases hshort : (last ++ atSign :: decimal v.toNat).length < psirpMaxComponent
  · obtain ⟨-, hread, hver, hhas⟩ := psirpNameInit_versioned (v := v) hinit hcount hlast.noSlash
      hlast.noAt hshort
    rw [← htext] at hread hver hhas
    intro out hout
    rw [pubsubVersionedName] at hout
    rw [hout] at hread hver hhas
    exact ⟨hread.trans hsplit.symm, hhas, hver⟩
  · exact exactOrRefused_of_bad htext hinit hcount hlast
      (List.all_eq_true.mpr fun _ => isDigit_of_mem_decimal) (Or.inr (Nat.not_lt.mp hshort))

/-- A base written in full, with the digits that there is room for. -/
theorem exactOrRefused_path_iff (hn : Parsed base) (hv : base.hasVersion = false)
    (hne : base.components ≠ []) (hfit : (pathOf base.components).length + 1 < psirpMaxName) :
    ExactOrRefused base v ↔
      (pathOf base.components).length + 1 + (decimal v.toNat).length < psirpMaxName ∨
        (pathOf base.components).length + 2 = psirpMaxName ∨
        (pathOf base.components.dropLast).length + 1 + psirpMaxComponent < psirpMaxName := by
  obtain ⟨init, last, hsplit⟩ : ∃ init last, base.components = init ++ [last] :=
    ⟨_, _, (List.dropLast_append_getLast hne).symm⟩
  have hcount := base.count_le
  have hcomps := hn.pathComponent hv
  have htext := versionedText_path (v := v) hv hfit
  have hpath : (pathOf base.components).length = (pathOf init).length + 1 + last.length := by
    rw [hsplit, pathOf_append, pathOf_cons, pathOf_nil]
    simp only [List.length_append, List.length_cons, List.length_nil]
    omega
  rw [hsplit] at hcount hcomps
  rw [List.length_append, List.length_singleton] at hcount
  have hinit : ∀ x ∈ init, PathComponent x := fun x hx => hcomps x (List.mem_append_left _ hx)
  have hlast : PathComponent last := hcomps last (by simp)
  -- the digits that there is room for
  generalize hroom : psirpMaxName - 2 - (pathOf base.components).length = k at htext
  rw [hsplit] at htext
  rw [hsplit, List.dropLast_concat, ← hsplit]
  have hname : psirpMaxName = 1024 := rfl
  have hcap : psirpMaxComponent = 64 := rfl
  rcases Nat.lt_or_ge k (decimal v.toNat).length with hcut | hall
  · -- the number is cut
    have htake : ((decimal v.toNat).take k).length = k := List.length_take_of_le hcut.le
    have hseg : (last ++ atSign :: (decimal v.toNat).take k).length = last.length + 1 + k := by
      rw [List.length_append, List.length_cons, htake, Nat.add_right_comm, Nat.add_assoc]
    have hdigits : ((decimal v.toNat).take k).all isDigit = true :=
      List.all_eq_true.mpr fun c hc => isDigit_of_mem_decimal (List.mem_of_mem_take hc)
    have hbad := exactOrRefused_of_bad htext hinit hcount hlast hdigits
    rcases Nat.eq_zero_or_pos k with hk | hk
    · exact iff_of_true (hbad (Or.inl (List.eq_nil_of_length_eq_zero (htake.trans hk)))) (by omega)
    · by_cases hshort : last.length + 1 + k < psirpMaxComponent
      · refine iff_of_false ?_ (by omega)
        refine not_exactOrRefused_cut htext hinit hcount hlast (hseg.trans_lt hshort)
          (List.take_append_drop k _) ?_ ?_
        · exact List.ne_nil_of_length_pos (by rw [htake]; exact hk)
        · rw [ne_eq, List.drop_eq_nil_iff]
          omega
      · exact iff_of_true (hbad (Or.inr (by omega))) (by omega)
  · -- the number is written in full
    rw [List.take_of_length_le hall] at htext
    exact iff_of_true (exactOrRefused_whole hsplit htext hinit hcount hlast) (by omega)

end Unversioned

/-- **Versioned names** are exact or refused precisely where the version is kept. -/
theorem exactOrRefused_iff {path : CString} {base : PsirpName} (v : UInt64)
    (h : psirpNameInit path = (true, base)) (hv : base.hasVersion = false) :
    ExactOrRefused base v ↔ KeepsVersion base v := by
  have hn : Parsed base := ⟨path, h⟩
  rcases eq_or_ne base.components [] with hnil | hne
  · exact iff_of_false (not_exactOrRefused_nil hnil) fun hkeeps => hkeeps.ne_nil hnil
  · by_cases hfit : (pathOf base.components).length + 1 < psirpMaxName
    · rw [exactOrRefused_path_iff hn hv hne hfit]
      exact ⟨fun hfits => ⟨hne, hfit, hfits⟩, fun hkeeps => hkeeps.version_fits⟩
    · exact iff_of_false (not_exactOrRefused_long hn hv hfit) fun hkeeps => hfit hkeeps.base_fits

theorem exactOrRefused_iff_news :
    newsName.hasVersion = false ∧ (ExactOrRefused newsName 42 ↔ KeepsVersion newsName 42) :=
  ⟨by decide, @exactOrRefused_iff (text ['/', 'n', 'e', 'w', 's']) newsName 42
    (Prod.ext (by decide) rfl) (by decide)⟩

/-- `/` has no component, and its version 42 has an empty one. -/
theorem not_exactOrRefused_root :
    ∃ base, psirpNameInit [slash] = (true, base) ∧ base.hasVersion = false ∧
      ¬ ExactOrRefused base 42 := by
  refine ⟨(psirpNameInit [slash]).2, Prod.ext (by decide) rfl, by decide, fun h => ?_⟩
  have hof := h (pubsubVersionedName (psirpNameInit [slash]).2 42).2 (Prod.ext (by decide) rfl)
  exact absurd hof.components_eq (by decide)

end DsoBrowser

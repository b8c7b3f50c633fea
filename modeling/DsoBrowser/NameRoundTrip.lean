import DsoBrowser.NameEquality
import DsoBrowser.NameGrammar
import DsoBrowser.NameRender

/-!
# Names survive being written and read

Whatever text a name was read from, `psirp_name_to_string` writes it as its canonical path, with
its version at the end, and `psirp_name_init` reads that as the same name (`nameRoundTrip`). The
version is read modulo 2^64 and may have leading zeros, but it never gets longer by being written
again, so the last segment stays short enough.
-/

namespace DsoBrowser

open Segments

/-- The text of a name: the components, each with a slash before it, and the version. -/
def renderedText (n : PsirpName) : CString := pathOf n.components ++ versionText n

/-! ## Writing -/

/-- A name that the parser leaves behind is written in full, if there is room for two characters
more. -/
theorem PsirpName.WellFormed.toString_eq {n : PsirpName} (hw : n.WellFormed) {bufLen : Nat}
    (hbuf : (renderedText n).length + 2 ≤ bufLen) :
    psirpNameToString n bufLen = renderedText n := by
  rw [renderedText, List.length_append] at hbuf
  cases hv : n.hasVersion with
  | true =>
    have hlen : 0 < (versionText n).length := by
      rw [versionText, if_pos hv]
      exact Nat.succ_pos _
    exact psirpNameToString_eq (hw.components_ne hv) (by omega)
  | false =>
    have hfits : ([] : CString).length + (pathOf n.components).length + 1 < bufLen := by
      rw [List.length_nil]
      omega
    have hloop := nameToStringLoop_unversioned hv bufLen n.components [] [] hfits
    rw [List.append_nil, List.nil_append] at hloop
    rw [psirpNameToString, if_neg (by omega), hloop, renderedText, versionText, hv,
      if_neg Bool.false_ne_true, List.append_nil]
    rfl

/-! ## The digits -/

/-- Digits say a number that takes no more digits. -/
theorem numeralValue_lt {v : CString} (h : v.all isDigit = true) :
    numeralValue v < 10 ^ v.length := by
  rw [numeralValue]
  induction v with
  | nil => exact Nat.one_pos
  | cons p rest ih =>
    rw [List.all_cons, Bool.and_eq_true] at h
    have hdigit : p.val.toNat - '0'.toNat ≤ 9 := by
      have hp := h.1
      simp only [isDigit, Bool.and_eq_true, decide_eq_true_eq, UInt8.le_iff_toNat_le] at hp
      exact Nat.sub_le_sub_right hp.2 48
    have hrest := ih h.2
    rw [List.map_cons, Nat.ofDigitChars_cons, Nat.mul_zero, Nat.zero_add, toNat_charOfNat,
      Nat.ofDigitChars_eq_ofDigitChars_zero, List.length_map, List.length_cons, Nat.pow_succ]
    have hfront : 10 ^ rest.length * (p.val.toNat - '0'.toNat) ≤ 10 ^ rest.length * 9 :=
      Nat.mul_le_mul_left _ hdigit
    omega

/-- A version takes no more digits than it was read from. -/
theorem length_decimal_version {d : CString} (hne : d ≠ []) (h : d.all isDigit = true) :
    (decimal (UInt64.ofNat (numeralValue d)).toNat).length ≤ d.length := by
  refine length_decimal_le (List.length_pos_of_ne_nil hne) (lt_of_le_of_lt ?_ (numeralValue_lt h))
  rw [UInt64.toNat_ofNat']
  exact Nat.mod_le _ _

/-! ## Reading -/

/-- The segments of a text with a version at its end. -/
theorem VersionedText.segments_eq {p a d : CString} (h : VersionedText p a d) :
    ∃ b c, segments slash p = segments slash b ++ [c ++ atSign :: d] ∧ slash ∉ c ∧ atSign ∉ c ∧
      atSign ∉ b := by
  have hlast : ∀ c, slash ∉ c → segments slash (c ++ atSign :: d) = [c ++ atSign :: d] := by
    intro c hc
    refine segments_of_notMem (fun hm => ?_) (by simp)
    rcases List.mem_append.mp hm with hm | hm
    · exact hc hm
    · rcases List.mem_cons.mp hm with he | hm
      · exact atSign_ne_slash he.symm
      · exact h.noSlash hm
  by_cases hslash : slash ∈ a
  · obtain ⟨b, c, rfl, hc⟩ := exists_last_run hslash
    refine ⟨b, c, ?_, hc, fun hm => h.noAt (by simp [hm]), fun hm => h.noAt (by simp [hm])⟩
    rw [h.eq, List.append_assoc, List.cons_append, segments_append_cons, hlast c hc]
  · exact ⟨[], a, by rw [h.eq, hlast a hslash]; rfl, hslash, h.noAt, List.not_mem_nil⟩

theorem withoutVersion_concat {cs : List CString} (hcs : ∀ x ∈ cs, atSign ∉ x) {c : CString}
    (hc : atSign ∉ c) (d : CString) :
    withoutVersion (cs ++ [c ++ atSign :: d]) = cs ++ [c] := by
  rw [withoutVersion, List.map_append, List.map_singleton, takeWhile_append_cons hc]
  refine congrArg (· ++ [c]) ((List.map_congr_left fun x hx => ?_).trans (List.map_id _))
  exact takeWhile_of_notMem (hcs x hx)

/-- The segments of a path with something behind an `'@'` at its end. -/
theorem segments_pathOf_at {cs : List CString} {c d : CString}
    (hcs : ∀ x ∈ cs, PathComponent x) (hc : slash ∉ c) (hd : slash ∉ d) :
    segments slash (pathOf (cs ++ [c]) ++ atSign :: d) = cs ++ [c ++ atSign :: d] := by
  have hpath : pathOf (cs ++ [c]) ++ atSign :: d = pathOf cs ++ slash :: (c ++ atSign :: d) := by
    rw [pathOf_append, pathOf_cons, pathOf_nil, List.append_nil, List.append_assoc,
      List.cons_append]
  have hnoSlash : slash ∉ c ++ atSign :: d := by
    rw [List.mem_append, List.mem_cons]
    rintro (hm | he | hm)
    · exact hc hm
    · exact atSign_ne_slash he.symm
    · exact hd hm
  rw [hpath, segments_append_cons, segments_pathOf hcs, segments_of_notMem hnoSlash (by simp)]

theorem atSign_notMem_concat {cs : List CString} {c : CString}
    (hcs : ∀ x ∈ cs, PathComponent x) (hat : atSign ∉ c) : atSign ∉ pathOf (cs ++ [c]) := by
  refine atSign_notMem_pathOf fun x hx => ?_
  rcases List.mem_append.mp hx with hx | hx
  · exact (hcs x hx).noAt
  · rwa [List.mem_singleton.mp hx]

/-- The text of a name and digits is read as that name and version, if its last segment is short
enough. -/
theorem psirpNameInit_digits {cs : List CString} {c d : CString}
    (hcs : ∀ x ∈ cs, PathComponent x) (hcount : cs.length + 1 ≤ psirpMaxComponents)
    (hslash : slash ∉ c) (hat : atSign ∉ c) (hne : d ≠ []) (hd : d.all isDigit = true)
    (hlen : (c ++ atSign :: d).length < psirpMaxComponent) :
    let r := psirpNameInit (pathOf (cs ++ [c]) ++ atSign :: d)
    r.1 = true ∧ r.2.components = cs ++ [c] ∧ r.2.version = UInt64.ofNat (numeralValue d) ∧
      r.2.hasVersion = true := by
  have htext : VersionedText (pathOf (cs ++ [c]) ++ atSign :: d) (pathOf (cs ++ [c])) d :=
    ⟨rfl, atSign_notMem_concat hcs hat, hne, hd⟩
  have hsegs := segments_pathOf_at hcs hslash htext.noSlash
  have hv : Versioned psirpMaxComponents (pathOf (cs ++ [c]) ++ atSign :: d) d := by
    refine ⟨?_, ?_, _, htext⟩
    · rw [hsegs, List.length_append]
      exact hcount
    · rw [hsegs]
      intro x hx
      rcases List.mem_append.mp hx with hx | hx
      · exact (hcs x hx).length_lt
      · rwa [List.mem_singleton.mp hx]
  obtain ⟨hok, hcomps, hver, hhas⟩ := psirpNameInit_of_versioned hv
  refine ⟨hok, ?_, hver, hhas⟩
  rw [hcomps, hsegs, withoutVersion_concat (fun x hx => (hcs x hx).noAt) hat]

/-- It is refused if there are no digits or the last segment is too long. -/
theorem psirpNameInit_digits_refused {cs : List CString} {c d : CString}
    (hcs : ∀ x ∈ cs, PathComponent x) (hcount : cs.length + 1 ≤ psirpMaxComponents)
    (hslash : slash ∉ c) (hat : atSign ∉ c) (hd : d.all isDigit = true)
    (hbad : d = [] ∨ psirpMaxComponent ≤ (c ++ atSign :: d).length) :
    (psirpNameInit (pathOf (cs ++ [c]) ++ atSign :: d)).1 = false := by
  have hnoSlash : slash ∉ d := by
    intro hm
    have hdigit := List.all_eq_true.mp hd slash hm
    rw [slash_not_isDigit] at hdigit
    cases hdigit
  have hsegs := segments_pathOf_at hcs hslash hnoSlash
  rw [Bool.eq_false_iff, ne_eq, psirpNameInit_fst_iff, not_or]
  refine ⟨fun hp => ?_, ?_⟩
  · -- the last segment is one of the first sixteen
    rw [PlainFront, hsegs, List.take_of_length_le (by simpa using hcount)] at hp
    exact (hp _ (List.mem_append_right _ (List.mem_singleton_self _))).2 (by simp)
  · rintro ⟨e, hv⟩
    obtain ⟨a, ha⟩ := hv.version
    obtain ⟨-, rfl⟩ := ha.unique rfl (atSign_notMem_concat hcs hat)
    rcases hbad with hnil | hlong
    · exact ha.ne_nil hnil
    · have hshort := hv.short (c ++ atSign :: d) (by rw [hsegs]; simp)
      omega

/-- The text of a name and a version is read as that name and version, if its last segment is
short enough. -/
theorem psirpNameInit_versioned {cs : List CString} {c : CString} {v : UInt64}
    (hcs : ∀ x ∈ cs, PathComponent x) (hcount : cs.length + 1 ≤ psirpMaxComponents)
    (hslash : slash ∉ c) (hat : atSign ∉ c)
    (hlen : (c ++ atSign :: decimal v.toNat).length < psirpMaxComponent) :
    let r := psirpNameInit (pathOf (cs ++ [c]) ++ atSign :: decimal v.toNat)
    r.1 = true ∧ r.2.components = cs ++ [c] ∧ r.2.version = v ∧ r.2.hasVersion = true := by
  obtain ⟨hok, hcomps, hver, hhas⟩ := psirpNameInit_digits hcs hcount hslash hat
    (decimal_ne_nil _) (List.all_eq_true.mpr fun _ => isDigit_of_mem_decimal) hlen
  rw [numeralValue_decimal, UInt64.ofNat_toNat] at hver
  exact ⟨hok, hcomps, hver, hhas⟩

/-- The segments of a text that are short and have no version are components of a path. -/
theorem pathComponent_of_mem_segments {p s : CString} (hs : s ∈ segments slash p)
    (hlen : s.length < psirpMaxComponent) (hat : atSign ∉ s) : PathComponent s := by
  obtain ⟨hne, hslash, -⟩ := mem_segments hs
  exact ⟨⟨hlen, hslash, hat⟩, hne⟩

/-- **What is written is read as the same name**, whatever text the name was read from. -/
theorem psirpNameInit_renderedText {path : CString} {n : PsirpName}
    (h : psirpNameInit path = (true, n)) :
    ∃ n', psirpNameInit (renderedText n) = (true, n') ∧ DenoteSame n' n := by
  have hok : (psirpNameInit path).1 = true := by rw [h]
  rcases psirpNameInit_fst_iff.mp hok with hp | ⟨d, hv⟩
  · -- no version: the canonical path of the segments
    rw [psirpNameInit_of_plainFront hp] at h
    have hn := (Prod.mk.inj h).2
    have hhas : n.hasVersion = false := by rw [← hn]
    have hver : n.version = 0 := by rw [← hn]
    have hcomps : ∀ s ∈ n.components, PathComponent s := by
      rw [← hn]
      exact fun s hs => pathComponent_of_mem_segments (List.mem_of_mem_take hs) (hp s hs).1
        (hp s hs).2
    rw [renderedText, versionText, hhas, if_neg Bool.false_ne_true, List.append_nil]
    rcases eq_or_ne n.components [] with hnil | hne
    · rw [hnil]
      exact ⟨_, rfl, hnil.symm, hhas.symm, hver.symm⟩
    · exact ⟨_, psirpNameInit_pathOf hcomps hne n.count_le, rfl, hhas.symm, hver.symm⟩
  · obtain ⟨-, hcomps, hver, hhas⟩ := psirpNameInit_of_versioned hv
    rw [h] at hcomps hver hhas
    dsimp only at hcomps hver hhas
    obtain ⟨a, ha⟩ := hv.version
    obtain ⟨b, c, hsegs, hslash, hat, hb⟩ := ha.segments_eq
    have hcount := hv.count_le
    have hshort := hv.short
    rw [hsegs] at hcount hshort
    have hbs : ∀ s ∈ segments slash b, PathComponent s := fun s hs =>
      pathComponent_of_mem_segments hs (hshort s (List.mem_append_left _ hs))
        fun hm => hb ((mem_segments hs).2.2.subset hm)
    rw [hsegs, withoutVersion_concat (fun s hs => (hbs s hs).noAt) hat] at hcomps
    rw [List.length_append, List.length_singleton] at hcount
    -- the digits written are no more than those read
    have hlen : (c ++ atSign :: decimal n.version.toNat).length < psirpMaxComponent := by
      have hread := hshort _ (List.mem_append_right _ (List.mem_singleton_self _))
      have hwritten := length_decimal_version ha.ne_nil ha.digits
      rw [← hver] at hwritten
      rw [List.length_append, List.length_cons] at hread ⊢
      omega
    obtain ⟨hok', hcomps', hver', hhas'⟩ := psirpNameInit_versioned hbs hcount hslash hat hlen
    rw [renderedText, versionText, if_pos hhas, hcomps]
    exact ⟨_, Prod.ext hok' rfl, hcomps'.trans hcomps.symm, hhas'.trans hhas.symm, hver'⟩

theorem DenoteSame.renderedText_eq {a b : PsirpName} (h : DenoteSame a b) :
    renderedText a = renderedText b := by
  rw [renderedText, renderedText, versionText, versionText, h.components_eq, h.hasVersion_eq,
    h.version_eq]

/-- **Names survive being written and read.** -/
theorem nameRoundTrip {path : CString} {n : PsirpName} {bufLen : Nat}
    (h : psirpNameInit path = (true, n)) (hbuf : (renderedText n).length + 2 ≤ bufLen) :
    psirpNameToString n bufLen = renderedText n ∧
      ∃ n', psirpNameInit (renderedText n) = (true, n') ∧ DenoteSame n' n ∧
        psirpNameToString n' bufLen = renderedText n := by
  have hn : Parsed n := ⟨path, h⟩
  obtain ⟨n', hn', hsame⟩ := psirpNameInit_renderedText h
  have htext := hsame.renderedText_eq
  have hparsed : Parsed n' := ⟨_, hn'⟩
  refine ⟨hn.wellFormed.toString_eq hbuf, n', hn', hsame, ?_⟩
  rw [← htext] at hbuf ⊢
  exact hparsed.wellFormed.toString_eq hbuf

/-- `//x/@007` is written as `/x/@7`. -/
theorem nameRoundTrip_x7 :
    let n := (psirpNameInit (text ['/', '/', 'x', '/', '@', '0', '0', '7'])).2
    renderedText n = text ['/', 'x', '/', '@', '7'] ∧ psirpNameToString n 7 = renderedText n ∧
      ∃ n', psirpNameInit (renderedText n) = (true, n') ∧ DenoteSame n' n ∧
        psirpNameToString n' 7 = renderedText n :=
  ⟨by decide +kernel, @nameRoundTrip (text ['/', '/', 'x', '/', '@', '0', '0', '7']) _ 7
    (by decide +kernel) (by decide +kernel)⟩

end DsoBrowser

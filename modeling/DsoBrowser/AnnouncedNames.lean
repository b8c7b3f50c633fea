import DsoBrowser.NameParse

/-!
# What a prefix string announces

A prefix string announces its non-empty segments, without the version the string ends with
(`announcedComponents`). `psirp_name_init` makes a name of just these components if it accepts the
string and the string has no more segments than a name has room for
(`Representable.components_eq`).
-/

namespace DsoBrowser

open Segments

/-- A segment without the version at its end, if what follows its first `'@'` is one. -/
def stripVersion (seg : CString) : CString :=
  match seg.dropWhile (· ≠ atSign) with
  | _ :: d :: ds => if (d :: ds).all isDigit then seg.takeWhile (· ≠ atSign) else seg
  | _ => seg

/-- The non-empty segments of a prefix string, without the version the string ends with. -/
def announcedComponents (s : CString) : List CString :=
  if s.getLast? = some slash then segments slash s
  else (segments slash s).dropLast ++ ((segments slash s).getLast?.map stripVersion).toList

/-! ## Cutting the first segment off -/

theorem announcedComponents_of_segments_nil {s : CString} (h : segments slash s = []) :
    announcedComponents s = [] := by
  rw [announcedComponents, h]
  split <;> rfl

theorem announcedComponents_of_noSlash {s : CString} (hs : slash ∉ s) (hne : s ≠ []) :
    announcedComponents s = [stripVersion s] := by
  have hlast : s.getLast? ≠ some slash := fun h => hs (List.mem_of_getLast? h)
  rw [announcedComponents, if_neg hlast, segments_of_notMem hs hne]
  rfl

/-- A string that does not end in a slash has a segment. -/
theorem segments_ne_nil {s : CString} (hne : s ≠ []) (hlast : s.getLast? ≠ some slash) :
    segments slash s ≠ [] := by
  intro h
  apply hlast
  rw [List.getLast?_eq_some_getLast hne]
  exact congrArg some (eq_sep_of_segments_eq_nil h _ (List.getLast_mem hne))

theorem announcedComponents_append_cons {s : CString} (hs : slash ∉ s) (hne : s ≠ [])
    (r : CString) : announcedComponents (s ++ slash :: r) = s :: announcedComponents r := by
  have hcut : segments slash (s ++ slash :: r) = s :: segments slash r := by
    rw [segments_append_cons, segments_of_notMem hs hne]
    rfl
  cases r with
  | nil =>
    rw [announcedComponents, if_pos (by simp), hcut, segments_nil,
      announcedComponents_of_segments_nil segments_nil]
  | cons x xs =>
    have hend : (s ++ slash :: x :: xs).getLast? = (x :: xs).getLast? := by
      rw [List.getLast?_append, List.getLast?_cons_cons, List.getLast?_cons]
      rfl
    rw [announcedComponents, announcedComponents, hend, hcut]
    split
    · rfl
    · rename_i hlast
      obtain ⟨t, ts, hts⟩ :=
        List.exists_cons_of_ne_nil (segments_ne_nil (List.cons_ne_nil x xs) hlast)
      rw [hts, List.dropLast_cons_cons, List.getLast?_cons_cons]
      rfl

theorem announcedComponents_cons_slash (s : CString) :
    announcedComponents (slash :: s) = announcedComponents s := by
  cases s with
  | nil => rfl
  | cons x xs => rw [announcedComponents, announcedComponents, segments_cons, List.getLast?_cons_cons]

theorem announcedComponents_skipSlash (s : CString) :
    announcedComponents (skipSlash s) = announcedComponents s := by
  rw [skipSlash]
  split
  · rename_i h
    cases s with
    | nil => rfl
    | cons c cs =>
      obtain rfl : c = slash := by simpa using h
      rw [List.tail_cons, announcedComponents_cons_slash]
  · rfl

/-! ## The parser -/

/-- The digit loop takes nothing but digits. -/
theorem isDigit_of_versionLoop {v : CString} {ver ver' : UInt64}
    (h : versionLoop v ver = some ver') : v.all isDigit = true := by
  rw [List.all_eq_true]
  intro c hc
  by_contra hd
  rw [versionLoop_eq_none hc (Bool.eq_false_iff.mpr hd)] at h
  cases h

/-- At the end of the text, the parser strips the version. -/
theorem parseComponent_last {s comp : CString} {cap : Nat} {ver : UInt64} {hasVer : Bool}
    (h : parseComponent s s.length cap = some (comp, ver, hasVer)) : comp = stripVersion s := by
  rcases takeWhile_append_span atSign s with ⟨hs, hnil⟩ | ⟨b, hb, hs⟩
  · have hat : atSign ∉ s := by
      rw [hs]
      exact sep_notMem_takeWhile s
    rw [parseComponent_of_noAt (lt_cap_of_parseComponent h) (by rwa [List.take_length]),
      List.take_length] at h
    rw [stripVersion, hnil]
    exact (Prod.mk.inj (Option.some.inj h)).1.symm
  · have hat : atSign ∉ s.takeWhile (· ≠ atSign) := sep_notMem_takeWhile s
    have hlen : (s.takeWhile (· ≠ atSign)).length < s.length := by
      conv_rhs => rw [hs, List.length_append, List.length_cons]
      omega
    have hparse := parseComponent_of_at (b := b) cap hat hlen
    rw [← hs, h] at hparse
    split at hparse
    · cases hparse
    · rename_i hne
      obtain ⟨ver', hver, heq⟩ := Option.map_eq_some_iff.mp hparse.symm
      obtain ⟨d, ds, rfl⟩ := List.exists_cons_of_ne_nil fun he => hne (Or.inr he)
      rw [stripVersion, hb]
      simp only [isDigit_of_versionLoop hver, if_true]
      exact (Prod.mk.inj heq).1.symm

/-- Before a slash, the parser takes a whole segment or nothing. -/
theorem parseComponent_before_slash {seg r comp : CString} {cap : Nat} {ver : UInt64}
    {hasVer : Bool}
    (h : parseComponent (seg ++ slash :: r) seg.length cap = some (comp, ver, hasVer)) :
    comp = seg := by
  have hno := noAt_of_parseComponent_before_slash h
  rw [parseComponent_of_noAt (lt_cap_of_parseComponent h) (by rwa [List.take_left]),
    List.take_left] at h
  exact (Prod.mk.inj (Option.some.inj h)).1.symm

/-- The loop that accepts a text it has room for pushes what the text announces. -/
theorem NameRounds.components_eq {p : CString} {name : PsirpName} {r : Bool × PsirpName}
    (hr : NameRounds p name r)
    (hroom : name.components.length + (segments slash p).length ≤ psirpMaxComponents)
    (hok : r.1 = true) : r.2.components = name.components ++ announcedComponents p := by
  induction hr with
  | done name => rw [announcedComponents_of_segments_nil segments_nil, List.append_nil]
  | @full p name h =>
    -- only slashes are left
    have hnil : segments slash p = [] := List.eq_nil_of_length_eq_zero (by omega)
    rw [announcedComponents_of_segments_nil hnil, List.append_nil]
  | skip h hr ih =>
    rw [segments_cons] at hroom
    rw [announcedComponents_cons_slash]
    exact ih hroom hok
  | refused => cases hok
  | @taken p comp name ver hasVer r h hseg hparse hr ih =>
    have hne : p.takeWhile (· ≠ slash) ≠ [] := fun he => hseg (by rw [he]; rfl)
    have hslash : slash ∉ p.takeWhile (· ≠ slash) := sep_notMem_takeWhile p
    have hroom' : ((name.push comp h).setVersion ver hasVer).components.length +
        (segments slash ((p.dropWhile (· ≠ slash)).drop 1)).length ≤ psirpMaxComponents := by
      rw [segments_eq_cons hseg, List.length_cons] at hroom
      rw [PsirpName.components_setVersion, PsirpName.components_push, List.length_append,
        List.length_singleton]
      omega
    rw [ih hroom' hok, PsirpName.components_setVersion, PsirpName.components_push,
      List.append_assoc]
    apply congrArg (name.components ++ ·)
    rcases takeWhile_append_span slash p with ⟨hp, hnil⟩ | ⟨q, hq, hp⟩
    · -- the last segment
      rw [← hp] at hparse hne hslash
      rw [hnil, parseComponent_last hparse, announcedComponents_of_noSlash hslash hne,
        List.drop_nil, announcedComponents_of_segments_nil segments_nil]
      rfl
    · rw [hq, List.drop_succ_cons, List.drop_zero]
      generalize p.takeWhile (· ≠ slash) = seg at *
      rw [hp] at hparse ⊢
      rw [parseComponent_before_slash hparse, announcedComponents_append_cons hslash hne]
      rfl

/-- `psirp_name_init` accepts the string and has room for all its segments. -/
structure Representable (s : CString) : Prop where
  /-- the verdict -/
  accepted : (psirpNameInit s).1 = true
  /-- no segment is left over -/
  count_le : (segments slash s).length ≤ psirpMaxComponents

/-- **A representable string** is made a name of what it announces. -/
theorem Representable.components_eq {s : CString} (h : Representable s) :
    (psirpNameInit s).2.components = announcedComponents s := by
  have hok := h.accepted
  obtain ⟨hash, r, hr, he⟩ := psirpNameInit_rounds s
  rw [he] at hok ⊢
  have hcomps := hr.components_eq (by rw [segments_skipSlash]; simpa using h.count_le) hok
  rw [announcedComponents_skipSlash] at hcomps
  exact hcomps

end DsoBrowser

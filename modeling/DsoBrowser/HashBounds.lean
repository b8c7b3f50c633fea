import DsoBrowser.NameGrammar
import DsoBrowser.NameRender
import DsoBrowser.TextBuffer

/-!
# The hashed text of a name and its buffer

The two constructors of names once more, with the buffers of `PSIRP_MAX_NAME` bytes in which they
collect the text to hash, and with every access to them through an accessor that notices when it is
outside (`psirpNameInitChecked`, `psirpNameInitComponentsChecked`).

The components are short enough: sixteen of them, each with a slash before it, just fit. So
`psirp_name_init_components` stays inside. But `psirp_name_init` copies the whole text after an
optional slash, and what the loop has accepted says nothing about a slash after another or at the
end, nor about what follows the sixteenth segment. It stays inside exactly if these leave room
(`hashInside_iff`). So that is a third condition under which it accepts exactly what is in its
grammar (`parsesInside_iff`).
-/

namespace DsoBrowser

open Bounded Segments

/-- Where the text to hash is collected. -/
inductive HashBuffer
  /-- `hash_buf` of `psirp_name_init` -/
  | hashBuf
  /-- `path` of `psirp_name_init_components` -/
  | path
  deriving DecidableEq, Repr

/-- A step of a constructor. -/
abbrev HashStep (α : Type) : Type := Except (Stop HashBuffer) α

/-! ## The constructors -/

/-- The hashing step of `psirp_name_init`, on the path after an optional slash. -/
def hashPathChecked (path : CString) : HashStep UInt64 := do
  let hashLen := path.length + 1
  let buf ← putText .hashBuf (TextFront.empty : TextFront psirpMaxName) [slash]
  let buf ← putText .hashBuf buf path
  let hashed ← readRange .hashBuf buf.val 0 hashLen
  return fnv1aHash hashed.val

/-- `psirp_name_init`, checked. -/
def psirpNameInitChecked (path : CString) : HashStep (Bool × PsirpName) :=
  match nameInitLoop (skipSlash path).length (skipSlash path) PsirpName.zero with
  | (false, name) => .ok (false, name)
  | (true, name) => do
    let hash ← hashPathChecked (skipSlash path)
    return (true, { name with hash := hash })

/-- The loop of `psirp_name_init_components`, checked. -/
def nameInitComponentsLoopChecked : (components : List CString) → TextFront psirpMaxName →
    (name : PsirpName) → name.components.length + components.length ≤ psirpMaxComponents →
      HashStep (Bool × PsirpName)
  | [], path, name, _ => .ok (true, { name with hash := fnv1aHash path.val })
  | c :: cs, path, name, h =>
    if psirpMaxComponent ≤ c.length then .ok (false, name)
    else do
      let path ← putText .path path [slash]
      let path ← putText .path path c
      match parseComponent c c.length psirpMaxComponent with
      | none => return (false, name)
      | some (comp, ver, hasVer) =>
        nameInitComponentsLoopChecked cs path
          ((name.push comp (by rw [List.length_cons] at h; omega)).setVersion ver hasVer)
          (by rw [List.length_cons] at h; simp; omega)

/-- `psirp_name_init_components`, checked. -/
def psirpNameInitComponentsChecked (components : List CString) : HashStep (Bool × PsirpName) :=
  if h : components.length ≤ psirpMaxComponents then
    nameInitComponentsLoopChecked components TextFront.empty PsirpName.zero
      ((Nat.zero_add _).trans_le h)
  else .ok (false, PsirpName.zero)

/-! ## What they do -/

theorem hashPathChecked_eq (path : CString) :
    hashPathChecked path =
      if path.length < psirpMaxName then .ok (fnv1aHash (CString.bytes (slash :: path)))
      else .error (.outside .hashBuf) := by
  have hslash : putText HashBuffer.hashBuf (TextFront.empty : TextFront psirpMaxName) [slash] =
      .ok ⟨CString.bytes [slash], by decide⟩ := rfl
  rw [hashPathChecked, hslash]
  simp only [bind, Except.bind]
  rw [@putText_eq _ _ _ ⟨CString.bytes [slash], _⟩ [slash] rfl, List.singleton_append]
  have hlen : (CString.bytes (slash :: path)).length = path.length + 1 := by
    rw [CString.length_bytes, List.length_cons]
  by_cases hfits : path.length < psirpMaxName
  · rw [if_pos hfits, filled_text_of_le hfits]
    simp only
    rw [readRange, dif_pos (by rw [hlen, Nat.zero_add])]
    simp only [List.drop_zero, pure, Except.pure]
    rw [List.take_of_length_le hlen.le]
  · rw [if_neg hfits, filled_text_of_lt (Nat.lt_succ_of_le (Nat.not_lt.mp hfits))]

/-- **The checked parser** does what the other says, but for accepted texts that are too long. -/
theorem psirpNameInitChecked_eq (path : CString) :
    psirpNameInitChecked path =
      if (psirpNameInit path).1 = true ∧ psirpMaxName < (hashText path).length then
        .error (.outside .hashBuf)
      else .ok (psirpNameInit path) := by
  rw [psirpNameInitChecked, psirpNameInit]
  rcases nameInitLoop (skipSlash path).length (skipSlash path) PsirpName.zero with ⟨_ | _, name⟩
  · rfl
  · simp only [bind, Except.bind, hashPathChecked_eq, hashText, List.length_cons, true_and]
    by_cases hfits : (skipSlash path).length < psirpMaxName
    · rw [if_pos hfits, if_neg (Nat.not_lt.mpr hfits)]
      rfl
    · rw [if_neg hfits, if_pos (Nat.lt_succ_of_le (Nat.not_lt.mp hfits))]

/-- So far, the path has at most as many characters as there is room for in the components. -/
theorem nameInitComponentsLoopChecked_eq :
    ∀ (cs : List CString) (path : CString) (name : PsirpName)
      (h : name.components.length + cs.length ≤ psirpMaxComponents) (out : TextFront psirpMaxName),
      out.val = path.bytes → path.length ≤ psirpMaxComponent * name.components.length →
        nameInitComponentsLoopChecked cs out name h =
          .ok (nameInitComponentsLoop cs path name h) := by
  intro cs
  induction cs with
  | nil =>
    intro path name h out hout _
    rw [nameInitComponentsLoopChecked, nameInitComponentsLoop, hout]
  | cons c cs ih =>
    intro path name h out hout hpath
    rw [nameInitComponentsLoopChecked, nameInitComponentsLoop]
    split
    · rfl
    · rename_i hshort
      have hround : path.length + (c.length + 1) ≤
          psirpMaxComponent * (name.components.length + 1) := by
        rw [Nat.mul_succ]
        omega
      have hroom : psirpMaxComponent * (name.components.length + 1) ≤ psirpMaxName := by
        rw [psirpMaxName, Nat.mul_comm]
        refine Nat.mul_le_mul_right _ ?_
        rw [List.length_cons] at h
        omega
      have hslash : (path ++ [slash]).length ≤ psirpMaxName := by
        rw [List.length_append, List.length_singleton]
        omega
      have hcomp : (path ++ slash :: c).length ≤ psirpMaxName := by
        rw [List.length_append, List.length_cons]
        exact hround.trans hroom
      rw [putText_eq hout, filled_text_of_le hslash]
      simp only [bind, Except.bind]
      rw [@putText_eq _ _ _ ⟨CString.bytes (path ++ [slash]), _⟩ _ rfl, List.append_assoc,
        List.singleton_append, filled_text_of_le hcomp]
      simp only
      cases parseComponent c c.length psirpMaxComponent with
      | none => rfl
      | some res =>
        obtain ⟨comp, ver, hasVer⟩ := res
        refine ih _ _ _ _ rfl ?_
        simpa using hround

/-- **The components** never leave their buffer. -/
theorem psirpNameInitComponentsChecked_eq (cs : List CString) :
    psirpNameInitComponentsChecked cs = .ok (psirpNameInitComponents cs) := by
  rw [psirpNameInitComponentsChecked, psirpNameInitComponents]
  split
  · exact nameInitComponentsLoopChecked_eq cs [] _ _ _ rfl (Nat.zero_le _)
  · rfl

/-! ## The length of the hashed text -/

/-- The segments that are read. -/
def readSegments (path : CString) : List CString := (segments slash path).take psirpMaxComponents

/-- How many characters of the hashed text do not belong to the segments that are read, with one
slash before each: further slashes, and what follows the sixteenth segment. -/
def surplus (path : CString) : Nat :=
  (hashText path).length - (pathOf (readSegments path)).length

theorem length_pathOf_readSegments_le (path : CString) :
    (pathOf (readSegments path)).length ≤ (hashText path).length := by
  have hall : (pathOf (segments slash path)).length ≤ (hashText path).length := by
    rw [← segments_skipSlash path]
    exact length_flatMap_segments_le (skipSlash path)
  refine le_trans ?_ hall
  rw [readSegments]
  conv_rhs => rw [← List.take_append_drop psirpMaxComponents (segments slash path), pathOf_append]
  exact (List.prefix_append _ _).length_le

/-- The two parts of the hashed text. -/
theorem length_pathOf_add_surplus (path : CString) :
    (pathOf (readSegments path)).length + surplus path = (hashText path).length :=
  Nat.add_sub_cancel' (length_pathOf_readSegments_le path)

/-- The segments that are read from an accepted text, with a slash before each, fit the buffer. -/
theorem length_pathOf_readSegments_le_max {path : CString}
    (h : PlainFront psirpMaxComponents path ∨ ∃ d, Versioned psirpMaxComponents path d) :
    (pathOf (readSegments path)).length ≤ psirpMaxName := by
  have hshort : ∀ s ∈ readSegments path, s.length < psirpMaxComponent := by
    intro s hs
    rcases h with hplain | ⟨d, hversioned⟩
    · exact (hplain s hs).1
    · exact hversioned.short s (List.mem_of_mem_take hs)
  calc (pathOf (readSegments path)).length
      ≤ psirpMaxComponent * (readSegments path).length := length_pathOf_le hshort
    _ ≤ psirpMaxComponent * psirpMaxComponents := Nat.mul_le_mul_left _ (List.length_take_le _ _)
    _ = psirpMaxName := Nat.mul_comm _ _

/-! ## What is to hold -/

/-- If the text is hashed, it is not too long for the buffer, and the call stays inside. -/
structure HashInside (path : CString) : Prop where
  /-- the bound that nobody checks -/
  short : (psirpNameInit path).1 = true → (skipSlash path).length + 1 ≤ psirpMaxName
  /-- the copy and the hash loop stay inside the buffer -/
  inside : psirpNameInitChecked path = .ok (psirpNameInit path)

/-- In a text of plain segments, perhaps with a version at the end, the further slashes and what
follows the sixteenth segment take no more room than the segments that are read leave. -/
def RoomForSurplus (path : CString) : Prop :=
  (PlainFront psirpMaxComponents path ∨ ∃ d, Versioned psirpMaxComponents path d) →
    surplus path ≤ psirpMaxName - (pathOf (readSegments path)).length

theorem roomForSurplus_iff_length (path : CString) :
    RoomForSurplus path ↔
      ((psirpNameInit path).1 = true → (hashText path).length ≤ psirpMaxName) := by
  rw [RoomForSurplus, psirpNameInit_fst_iff]
  refine forall_congr' fun h => ?_
  have hsum := length_pathOf_add_surplus path
  have hmax := length_pathOf_readSegments_le_max h
  omega

/-- **The parser stays inside its buffer** exactly if there is room for the surplus. -/
theorem hashInside_iff_surplus (path : CString) : HashInside path ↔ RoomForSurplus path := by
  rw [roomForSurplus_iff_length]
  refine ⟨HashInside.short, fun h => ⟨h, ?_⟩⟩
  rw [psirpNameInitChecked_eq, if_neg]
  rintro ⟨haccepted, hlong⟩
  exact absurd (h haccepted) (Nat.not_le.mpr hlong)

/-- **The two constructors and their buffers.** The parser stays inside exactly if there is room
for the surplus, and the other constructor always does. -/
theorem hashInside_iff (path : CString) (components : List CString) :
    (HashInside path ↔ RoomForSurplus path) ∧
      psirpNameInitComponentsChecked components = .ok (psirpNameInitComponents components) :=
  ⟨hashInside_iff_surplus path, psirpNameInitComponentsChecked_eq components⟩

/-- As many components as there can be, as long as they can be. -/
def longestComponents : List CString :=
  List.replicate psirpMaxComponents (List.replicate (psirpMaxComponent - 1) (ch 'a'))

/-- Their path, with a slash at the end. -/
def longestPath : CString := pathOf longestComponents ++ [slash]

theorem segments_longestPath : segments slash longestPath = longestComponents := by
  have hpath : ∀ c ∈ longestComponents, PathComponent c := by
    rw [longestComponents]
    intro c hc
    rw [List.eq_of_mem_replicate hc]
    decide
  rw [longestPath, segments_append_cons, segments_pathOf hpath, segments_nil, List.append_nil]

theorem psirpNameInit_longestPath : (psirpNameInit longestPath).1 = true := by
  refine psirpNameInit_fst_iff.mpr (Or.inl ?_)
  rw [PlainFront, segments_longestPath]
  intro s hs
  rw [List.eq_of_mem_replicate (List.mem_of_mem_take hs)]
  decide

/-- The slash at the end is one character too many. -/
theorem not_hashInside_longest :
    (psirpNameInit longestPath).1 = true ∧
      psirpNameInitChecked longestPath = .error (.outside .hashBuf) ∧ ¬ HashInside longestPath := by
  have hout : psirpNameInitChecked longestPath = .error (.outside .hashBuf) := by
    rw [psirpNameInitChecked_eq, if_pos ⟨psirpNameInit_longestPath, by decide +kernel⟩]
  refine ⟨psirpNameInit_longestPath, hout, fun h => ?_⟩
  have hinside := h.inside
  rw [hout] at hinside
  cases hinside

/-! ## The grammar, with the buffer -/

/-- The call stays inside its buffer, and what it gives is exact. -/
structure ParsesInside (path : CString) : Prop where
  /-- it returns -/
  inside : psirpNameInitChecked path = .ok (psirpNameInit path)
  /-- what it returns -/
  exactly : ParsesExactly path

/-- **Exact exactly when** the text is neither too deep nor its version too large, and there is room
for the surplus. -/
theorem parsesInside_iff (path : CString) :
    ParsesInside path ↔ ¬ Overdeep path ∧ ¬ Overlarge path ∧ RoomForSurplus path := by
  have hexactly := parsesExactly_iff path
  have hinside := hashInside_iff_surplus path
  refine ⟨fun h => ?_, fun ⟨hdeep, hlarge, hroom⟩ => ?_⟩
  · obtain ⟨hdeep, hlarge⟩ := hexactly.mp h.exactly
    refine ⟨hdeep, hlarge, (roomForSurplus_iff_length path).mpr fun haccepted => ?_⟩
    by_contra hlong
    have hout := h.inside
    rw [psirpNameInitChecked_eq, if_pos ⟨haccepted, Nat.not_le.mp hlong⟩] at hout
    cases hout
  · exact ⟨(hinside.mpr hroom).inside, hexactly.mpr ⟨hdeep, hlarge⟩⟩

/-- Two texts that are accepted and not in the grammar, and one for which the buffer is left. -/
theorem not_parsesInside_slips :
    ¬ ParsesInside overlargePath ∧ ¬ ParsesInside overdeepPath ∧ ¬ ParsesInside longestPath := by
  obtain ⟨hlarge, hdeep⟩ := not_parsesExactly_slips
  refine ⟨fun h => hlarge h.exactly, fun h => hdeep h.exactly, fun h => ?_⟩
  have hout := h.inside
  rw [psirpNameInitChecked_eq, if_pos ⟨psirpNameInit_longestPath, by decide +kernel⟩] at hout
  cases hout

end DsoBrowser

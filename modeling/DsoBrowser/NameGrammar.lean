import DsoBrowser.NameParse

/-!
# The grammar of names

`psirp_name_init` is meant to accept the texts of at most sixteen short segments, the last of which
may end in `'@'` and a decimal number (`InGrammar`). As long as it does not leave the buffer for the
text to hash, it does, with two exceptions (`parsesExactly_iff`): of a text with more segments than
fit, the rest is dropped in silence, and a number of 2^64 or more is taken modulo 2^64.

The proof goes over the rounds of the component loop. What is accepted either starts with as many
plain segments as there is room for (`PlainFront`), or has plain segments and a version at its
very end (`Versioned`).
-/

namespace DsoBrowser

open Segments

/-! ## Decimal numbers -/

/-- The number the digits say. -/
def numeralValue (v : CString) : Nat :=
  Nat.ofDigitChars 10 (v.map fun c => Char.ofNat c.val.toNat) 0

@[simp] theorem numeralValue_decimal (n : Nat) : numeralValue (decimal n) = n := by
  rw [numeralValue, decimal_map_toChar, Nat.ofDigitChars_ten_toDigits]

theorem toNat_charOfNat (p : CChar) : (Char.ofNat p.val.toNat).toNat = p.val.toNat := by
  have hvalid : p.val.toNat.isValidChar := Or.inl (p.val.toNat_lt.trans (by decide))
  rw [Char.ofNat, dif_pos hvalid]
  rfl

/-- One round of the digit loop. -/
theorem digit_step {p : CChar} (hp : isDigit p = true) (n : Nat) :
    UInt64.ofNat n * 10 + (p.val - 48).toUInt64 =
      UInt64.ofNat (10 * n + ((Char.ofNat p.val.toNat).toNat - '0'.toNat)) := by
  simp only [isDigit, Bool.and_eq_true, decide_eq_true_eq] at hp
  have hsub : (p.val - 48).toUInt64 = UInt64.ofNat (p.val.toNat - '0'.toNat) := by
    rw [← UInt64.ofNat_uInt8ToNat, UInt8.toNat_sub_of_le _ _ hp.1]
    rfl
  rw [toNat_charOfNat, hsub, UInt64.ofNat_add, UInt64.ofNat_mul, UInt64.mul_comm]
  rfl

/-- The digit loop computes the number modulo 2^64, and takes digits only. -/
theorem versionLoop_eq (v : CString) : ∀ (n : Nat),
    versionLoop v (UInt64.ofNat n) = if v.all isDigit then some (UInt64.ofNat
      (Nat.ofDigitChars 10 (v.map fun c => Char.ofNat c.val.toNat) n)) else none := by
  induction v with
  | nil =>
    intro n
    rfl
  | cons p rest ih =>
    intro n
    have hrange : (p.val < 48 ∨ 57 < p.val) ↔ ¬ isDigit p = true := by
      simp only [isDigit, Bool.and_eq_true, decide_eq_true_eq, not_and_or, UInt8.not_le]
    rw [versionLoop, List.all_cons, List.map_cons, Nat.ofDigitChars_cons]
    split
    · rename_i hbad
      rw [Bool.eq_false_iff.mpr (hrange.mp hbad)]
      rfl
    · rename_i hgood
      have hp : isDigit p = true := not_not.mp (mt hrange.mpr hgood)
      rw [digit_step hp, ih, hp, Bool.true_and]

theorem versionLoop_zero {v : CString} (h : v.all isDigit = true) :
    versionLoop v 0 = some (UInt64.ofNat (numeralValue v)) := by
  have hloop := versionLoop_eq v 0
  rw [if_pos h] at hloop
  exact hloop

/-! ## Texts with a version at the end -/

/-- `p` is `a`, without `'@'`, then one, then the digits `d` and nothing more. -/
structure VersionedText (p a d : CString) : Prop where
  /-- the text -/
  eq : p = a ++ atSign :: d
  /-- the `'@'` is the first -/
  noAt : atSign ∉ a
  /-- there are digits -/
  ne_nil : d ≠ []
  /-- and only digits -/
  digits : d.all isDigit = true

theorem VersionedText.noSlash {p a d : CString} (h : VersionedText p a d) : slash ∉ d := by
  intro hm
  have hdigit := List.all_eq_true.mp h.digits slash hm
  rw [slash_not_isDigit] at hdigit
  cases hdigit

/-- The version is where the first `'@'` is. -/
theorem VersionedText.unique {p a d b e : CString} (h : VersionedText p a d)
    (hp : p = b ++ atSign :: e) (hb : atSign ∉ b) : b = a ∧ e = d := by
  have hcut : (p.takeWhile (· ≠ atSign)) = a ∧ p.dropWhile (· ≠ atSign) = atSign :: d := by
    rw [h.eq]
    exact ⟨takeWhile_append_cons h.noAt _, dropWhile_append_cons h.noAt _⟩
  rw [hp, takeWhile_append_cons hb, dropWhile_append_cons hb] at hcut
  exact ⟨hcut.1, (List.cons.inj hcut.2).2⟩

/-- Whatever is in front, but for another `'@'`, belongs to `a`. -/
theorem versionedText_cons {x : CChar} {p d : CString} (hx : atSign ≠ x) :
    (∃ a, VersionedText (x :: p) a d) ↔ ∃ a, VersionedText p a d := by
  refine ⟨?_, ?_⟩
  · rintro ⟨a, he, hat, hne, hd⟩
    cases a with
    | nil => exact absurd (List.cons.inj he).1.symm hx
    | cons y ys =>
      exact ⟨ys, (List.cons.inj he).2, fun hm => hat (List.mem_cons_of_mem _ hm), hne, hd⟩
  · rintro ⟨a, rfl, hat, hne, hd⟩
    refine ⟨x :: a, rfl, fun hm => ?_, hne, hd⟩
    rcases List.mem_cons.mp hm with he | hm
    · exact hx he
    · exact hat hm

theorem versionedText_append {s p d : CString} (hs : atSign ∉ s) :
    (∃ a, VersionedText (s ++ p) a d) ↔ ∃ a, VersionedText p a d := by
  induction s with
  | nil => rfl
  | cons x s ih =>
    rw [List.cons_append, versionedText_cons fun he => hs (he ▸ List.mem_cons_self)]
    exact ih fun hm => hs (List.mem_cons_of_mem _ hm)

/-- No segment before the last has an `'@'`. -/
theorem VersionedText.noAt_of_append_slash {s q a d : CString}
    (h : VersionedText (s ++ slash :: q) a d) : atSign ∉ s := by
  intro hm
  rcases takeWhile_append_span atSign s with ⟨hs, -⟩ | ⟨b, -, hs⟩
  · rw [hs] at hm
    exact sep_notMem_takeWhile s hm
  · -- the digits would contain the slash
    have hd : b ++ slash :: q = d := (h.unique (b := s.takeWhile (· ≠ atSign)) (by
      conv_lhs => rw [hs, List.append_assoc, List.cons_append]) (sep_notMem_takeWhile s)).2
    exact h.noSlash (hd ▸ List.mem_append_right _ List.mem_cons_self)

/-- A single segment with a version is taken apart at the `'@'`. -/
theorem parseComponent_versioned {p a d : CString} (h : VersionedText p a d)
    (hlen : p.length < psirpMaxComponent) :
    parseComponent p p.length psirpMaxComponent =
      some (a, UInt64.ofNat (numeralValue d), true) := by
  have hlt : a.length < p.length := by
    rw [h.eq, List.length_append, List.length_cons]
    omega
  have hparse := parseComponent_of_at (b := d) psirpMaxComponent h.noAt hlt
  rw [← h.eq, if_neg (not_or.mpr ⟨Nat.not_le.mpr hlen, h.ne_nil⟩),
    versionLoop_zero h.digits] at hparse
  exact hparse

/-- A whole text with an `'@'` is taken only if it ends in a version. -/
theorem versionedText_of_parseComponent {p : CString} {cap : Nat} {res : CString × UInt64 × Bool}
    (h : parseComponent p p.length cap = some res) (hat : atSign ∈ p) :
    ∃ a d, VersionedText p a d := by
  rcases takeWhile_append_span atSign p with ⟨hp, -⟩ | ⟨d, -, hp⟩
  · rw [hp] at hat
    exact absurd hat (sep_notMem_takeWhile p)
  · have hno : atSign ∉ p.takeWhile (· ≠ atSign) := sep_notMem_takeWhile p
    have hlt : (p.takeWhile (· ≠ atSign)).length < p.length := by
      conv_rhs => rw [hp, List.length_append, List.length_cons]
      omega
    have hparse := parseComponent_of_at (b := d) cap hno hlt
    rw [← hp, h] at hparse
    split at hparse
    · cases hparse
    · rename_i hne
      obtain ⟨ver, hver, -⟩ := Option.map_eq_some_iff.mp hparse.symm
      refine ⟨_, d, hp, hno, fun hd => hne (Or.inr hd), ?_⟩
      by_contra hdigits
      rw [show (0 : UInt64) = UInt64.ofNat 0 from rfl, versionLoop_eq, if_neg hdigits] at hver
      cases hver

/-! ## What the loop accepts -/

/-- The segments of the text are short, there is room for all of them, and the last ends in a
version. -/
structure Versioned (room : Nat) (p d : CString) : Prop where
  /-- there is room -/
  count_le : (segments slash p).length ≤ room
  /-- the segments are short -/
  short : ∀ s ∈ segments slash p, s.length < psirpMaxComponent
  /-- the digits of the version are at the end -/
  version : ∃ a, VersionedText p a d

/-- Where a slash is skipped, nothing changes. -/
theorem versioned_cons_slash {room : Nat} {p d : CString} :
    Versioned room (slash :: p) d ↔ Versioned room p d := by
  refine ⟨?_, ?_⟩
  · rintro ⟨hcount, hshort, hv⟩
    rw [segments_cons] at hcount hshort
    exact ⟨hcount, hshort, (versionedText_cons atSign_ne_slash).mp hv⟩
  · rintro ⟨hcount, hshort, hv⟩
    refine ⟨?_, ?_, (versionedText_cons atSign_ne_slash).mpr hv⟩
    · rwa [segments_cons]
    · rwa [segments_cons]

/-- A plain segment in front takes one place. -/
theorem versioned_append_slash {room : Nat} {s q d : CString} (hne : s ≠ []) (hslash : slash ∉ s)
    (hat : atSign ∉ s) (hlen : s.length < psirpMaxComponent) :
    Versioned (room + 1) (s ++ slash :: q) d ↔ Versioned room q d := by
  have hsegs : segments slash (s ++ slash :: q) = s :: segments slash q := by
    rw [segments_append_cons, segments_of_notMem hslash hne]
    rfl
  have hv : (∃ a, VersionedText (s ++ slash :: q) a d) ↔ ∃ a, VersionedText q a d := by
    rw [versionedText_append hat, versionedText_cons atSign_ne_slash]
  refine ⟨?_, ?_⟩
  · rintro ⟨hcount, hshort, hver⟩
    rw [hsegs] at hcount hshort
    exact ⟨Nat.le_of_succ_le_succ hcount, fun t ht => hshort t (List.mem_cons_of_mem _ ht),
      hv.mp hver⟩
  · rintro ⟨hcount, hshort, hver⟩
    refine ⟨?_, ?_, hv.mpr hver⟩
    · rw [hsegs]
      exact Nat.succ_le_succ hcount
    · rw [hsegs]
      exact List.forall_mem_cons.mpr ⟨hlen, hshort⟩

/-- When the text is used up, it is accepted. -/
theorem NameRounds.nil {name : PsirpName} {r : Bool × PsirpName} (hr : NameRounds [] name r) :
    r = (true, name) := by
  cases hr with
  | done => rfl
  | full => rfl
  | refused _ hseg => exact absurd rfl hseg
  | taken _ hseg => exact absurd rfl hseg

/-- There is always a segment before the end of a version. -/
theorem VersionedText.segments_ne_nil {p a d : CString} (h : VersionedText p a d) :
    segments slash p ≠ [] := by
  have hat : atSign ∈ p := by
    rw [h.eq]
    exact List.mem_append_right _ List.mem_cons_self
  obtain ⟨s, hs, -⟩ := exists_mem_segments hat atSign_ne_slash
  exact List.ne_nil_of_mem hs

/-- Either the segment at the front is the whole text, or a slash follows. -/
theorem front_cases {p : CString} (hseg : (p.takeWhile (· ≠ slash)).length ≠ 0) :
    (slash ∉ p ∧ p ≠ [] ∧ p.takeWhile (· ≠ slash) = p ∧ (p.dropWhile (· ≠ slash)).drop 1 = []) ∨
      ∃ s q, p = s ++ slash :: q ∧ s ≠ [] ∧ slash ∉ s ∧ p.takeWhile (· ≠ slash) = s ∧
        (p.dropWhile (· ≠ slash)).drop 1 = q := by
  have hne : p.takeWhile (· ≠ slash) ≠ [] := fun he => hseg (by rw [he]; rfl)
  have hslash : slash ∉ p.takeWhile (· ≠ slash) := sep_notMem_takeWhile p
  rcases takeWhile_append_span slash p with ⟨hp, hnil⟩ | ⟨q, hq, hp⟩
  · rw [← hp] at hne hslash
    exact Or.inl ⟨hslash, hne, hp.symm, by rw [hnil]; rfl⟩
  · exact Or.inr ⟨_, q, hp, hne, hslash, rfl, by rw [hq]; rfl⟩

/-- The segments without the version. -/
def withoutVersion (segs : List CString) : List CString := segs.map (·.takeWhile (· ≠ atSign))

/-- What the parser makes of the segment at the front: it is the last, or plain. -/
theorem Versioned.front {room : Nat} {p d : CString} (hv : Versioned (room + 1) p d)
    (hseg : (p.takeWhile (· ≠ slash)).length ≠ 0) :
    (parseComponent p (p.takeWhile (· ≠ slash)).length psirpMaxComponent =
        some (p.takeWhile (· ≠ atSign), UInt64.ofNat (numeralValue d), true) ∧
      segments slash p = [p] ∧ (p.dropWhile (· ≠ slash)).drop 1 = []) ∨
    (parseComponent p (p.takeWhile (· ≠ slash)).length psirpMaxComponent =
        some (p.takeWhile (· ≠ slash), 0, false) ∧ atSign ∉ p.takeWhile (· ≠ slash) ∧
      Versioned room ((p.dropWhile (· ≠ slash)).drop 1) d) := by
  have hlen : (p.takeWhile (· ≠ slash)).length < psirpMaxComponent := by
    refine hv.short _ ?_
    rw [segments_eq_cons hseg]
    exact List.mem_cons_self
  obtain ⟨a, ha⟩ := hv.version
  obtain ⟨hslash, hne, htake, hrest⟩ | ⟨s, q, hp, hne, hslash, htake, hrest⟩ := front_cases hseg
  · rw [htake] at hlen ⊢
    have hcomp : p.takeWhile (· ≠ atSign) = a := by
      rw [ha.eq, takeWhile_append_cons ha.noAt]
    rw [hcomp]
    exact Or.inl ⟨parseComponent_versioned ha hlen, segments_of_notMem hslash hne, hrest⟩
  · rw [htake] at hlen ⊢
    rw [hrest]
    rw [hp] at ha hv ⊢
    have hat : atSign ∉ s := ha.noAt_of_append_slash
    refine Or.inr ⟨?_, hat, (versioned_append_slash hne hslash hat hlen).mp hv⟩
    rw [parseComponent_of_noAt hlen (by rwa [List.take_left]), List.take_left]

/-- **A version at the end** of a text the loop has room for is accepted. -/
theorem NameRounds.of_versioned {p d : CString} {name : PsirpName} {r : Bool × PsirpName}
    (hr : NameRounds p name r)
    (hv : Versioned (psirpMaxComponents - name.components.length) p d) :
    r.1 = true ∧ r.2.components = name.components ++ withoutVersion (segments slash p) ∧
      r.2.version = UInt64.ofNat (numeralValue d) ∧ r.2.hasVersion = true := by
  induction hr with
  | done name =>
    obtain ⟨a, h⟩ := hv.version
    exact absurd segments_nil h.segments_ne_nil
  | full h =>
    obtain ⟨a, hva⟩ := hv.version
    have hcount := hv.count_le
    rw [Nat.sub_eq_zero_of_le (Nat.not_lt.mp h), Nat.le_zero] at hcount
    exact absurd (List.eq_nil_of_length_eq_zero hcount) hva.segments_ne_nil
  | skip h hr ih =>
    rw [segments_cons]
    exact ih (versioned_cons_slash.mp hv)
  | @refused p name h hseg hparse =>
    rw [PsirpName.room_push name [] h] at hv
    obtain ⟨hfront, -⟩ | ⟨hfront, -⟩ := hv.front hseg
    · rw [hfront] at hparse
      cases hparse
    · rw [hfront] at hparse
      cases hparse
  | @taken p comp name ver hasVer r h hseg hparse hr ih =>
    rw [PsirpName.room_push name comp h] at hv
    obtain ⟨hfront, hsegs, hrest⟩ | ⟨hfront, hat, hv'⟩ := hv.front hseg
    · -- the last segment
      rw [hfront] at hparse
      cases hparse
      rw [hrest] at hr
      rw [hr.nil, hsegs]
      exact ⟨rfl, rfl, rfl, rfl⟩
    · rw [hfront] at hparse
      cases hparse
      obtain ⟨hok, hcomps, hver⟩ := ih hv'
      have hplain : (p.takeWhile (· ≠ slash)).takeWhile (· ≠ atSign) = p.takeWhile (· ≠ slash) :=
        takeWhile_of_notMem hat
      have hcons : withoutVersion (segments slash p) = p.takeWhile (· ≠ slash) ::
          withoutVersion (segments slash ((p.dropWhile (· ≠ slash)).drop 1)) := by
        rw [segments_eq_cons hseg, withoutVersion, List.map_cons, hplain]
        rfl
      refine ⟨hok, ?_, hver⟩
      rw [hcomps, hcons, List.append_cons]
      rfl

/-- **What is accepted** starts with as many plain segments as there is room for, or ends in a
version. -/
theorem NameRounds.accepted {p : CString} {name : PsirpName} {r : Bool × PsirpName}
    (hr : NameRounds p name r) (hok : r.1 = true) :
    PlainFront (psirpMaxComponents - name.components.length) p ∨
      ∃ d, Versioned (psirpMaxComponents - name.components.length) p d := by
  induction hr with
  | done name =>
    refine Or.inl ?_
    rw [PlainFront, segments_nil, List.take_nil]
    exact List.forall_mem_nil _
  | full h =>
    refine Or.inl ?_
    rw [PlainFront, Nat.sub_eq_zero_of_le (Nat.not_lt.mp h), List.take_zero]
    exact List.forall_mem_nil _
  | skip h hr ih =>
    rw [PlainFront, segments_cons]
    refine (ih hok).imp_right ?_
    rintro ⟨d, hv⟩
    exact ⟨d, versioned_cons_slash.mpr hv⟩
  | refused => cases hok
  | @taken p comp name ver hasVer r h hseg hparse hr ih =>
    have hlen := lt_cap_of_parseComponent hparse
    rw [PsirpName.room_push name comp h]
    obtain ⟨hslash, hne, htake, -⟩ | ⟨s, q, rfl, hne, hslash, htake, hrest⟩ := front_cases hseg
    · -- the last segment, with or without a version
      have hsegs : segments slash p = [p] := segments_of_notMem hslash hne
      rw [htake] at hparse hlen
      by_cases hat : atSign ∈ p
      · obtain ⟨a, d, hv⟩ := versionedText_of_parseComponent hparse hat
        refine Or.inr ⟨d, ?_, ?_, a, hv⟩
        · rw [hsegs]
          exact Nat.succ_le_succ (Nat.zero_le _)
        · rw [hsegs]
          exact List.forall_mem_singleton.mpr hlen
      · refine Or.inl ?_
        rw [PlainFront, hsegs, List.take_succ_cons, List.take_nil]
        exact List.forall_mem_singleton.mpr ⟨hlen, hat⟩
    · rw [htake] at hparse hlen
      have hat := noAt_of_parseComponent_before_slash hparse
      rw [parseComponent_of_noAt hlen (by rwa [List.take_left])] at hparse
      cases hparse
      rw [hrest] at ih
      have hsegs : segments slash (s ++ slash :: q) = s :: segments slash q := by
        rw [segments_append_cons, segments_of_notMem hslash hne]
        rfl
      rcases ih hok with hplain | ⟨d, hv⟩
      · refine Or.inl ?_
        rw [PlainFront, hsegs, List.take_succ_cons]
        exact List.forall_mem_cons.mpr ⟨⟨hlen, hat⟩, hplain⟩
      · exact Or.inr ⟨d, (versioned_append_slash hne hslash hat hlen).mpr hv⟩

/-! ## The constructor -/

theorem versioned_skipSlash {room : Nat} {path d : CString} :
    Versioned room (skipSlash path) d ↔ Versioned room path d := by
  rw [skipSlash]
  split
  · rename_i h
    cases path with
    | nil => rfl
    | cons c cs =>
      obtain rfl : c = slash := by simpa using h
      exact versioned_cons_slash.symm
  · rfl

/-- A text with a version at its end, with room for its segments, gives the name it says. -/
theorem psirpNameInit_of_versioned {path d : CString}
    (hv : Versioned psirpMaxComponents path d) :
    (psirpNameInit path).1 = true ∧
      (psirpNameInit path).2.components = withoutVersion (segments slash path) ∧
      (psirpNameInit path).2.version = UInt64.ofNat (numeralValue d) ∧
      (psirpNameInit path).2.hasVersion = true := by
  obtain ⟨hash, r, hr, he⟩ := psirpNameInit_rounds path
  have hloop := hr.of_versioned (versioned_skipSlash.mpr hv)
  rw [segments_skipSlash] at hloop
  rw [he]
  exact hloop

/-- **Acceptance.** The texts accepted are those that start with sixteen plain segments, or have
fewer and only plain ones, and those that end in a version. -/
theorem psirpNameInit_fst_iff {path : CString} :
    (psirpNameInit path).1 = true ↔
      PlainFront psirpMaxComponents path ∨ ∃ d, Versioned psirpMaxComponents path d := by
  refine ⟨?_, ?_⟩
  · intro hok
    obtain ⟨hash, r, hr, he⟩ := psirpNameInit_rounds path
    rw [he] at hok
    refine (hr.accepted hok).imp (fun hp => ?_) fun ⟨d, hv⟩ => ⟨d, versioned_skipSlash.mp hv⟩
    rw [PlainFront, segments_skipSlash] at hp
    exact hp
  · rintro (hp | ⟨d, hv⟩)
    · rw [psirpNameInit_of_plainFront hp]
    · exact (psirpNameInit_of_versioned hv).1

/-! ## The grammar -/

/-- The texts that name something: at most sixteen segments, all short, and an `'@'` only before
the digits that the text ends with, of a number below 2^64. -/
structure InGrammar (path : CString) : Prop where
  /-- the number of segments -/
  count_le : (segments slash path).length ≤ psirpMaxComponents
  /-- their lengths -/
  short : ∀ s ∈ segments slash path, s.length < psirpMaxComponent
  /-- what an `'@'` is for -/
  version : atSign ∈ path → ∃ a d, VersionedText path a d ∧ numeralValue d < 2 ^ 64

/-- The constructor accepts the text exactly if it is in the grammar, and then gives what it
says. -/
structure ParsesExactly (path : CString) : Prop where
  /-- the verdict -/
  accepts_iff : (psirpNameInit path).1 = true ↔ InGrammar path
  /-- the components are the segments without the version -/
  components_eq : InGrammar path →
    (psirpNameInit path).2.components = withoutVersion (segments slash path)
  /-- whether there is a version -/
  hasVersion_iff : InGrammar path →
    ((psirpNameInit path).2.hasVersion = true ↔ atSign ∈ path)
  /-- the version is the number -/
  version_eq : InGrammar path → ∀ a d, VersionedText path a d →
    (psirpNameInit path).2.version.toNat = numeralValue d

/-- More segments than fit, those that fit being plain. -/
def Overdeep (path : CString) : Prop :=
  psirpMaxComponents < (segments slash path).length ∧ PlainFront psirpMaxComponents path

/-- A version of 2^64 or more, on a text that has nothing else wrong with it. -/
def Overlarge (path : CString) : Prop :=
  ∃ d, Versioned psirpMaxComponents path d ∧ 2 ^ 64 ≤ numeralValue d

/-- A text in the grammar without an `'@'` has plain segments, all of which fit. -/
theorem InGrammar.plainFront {path : CString} (h : InGrammar path) (hat : atSign ∉ path) :
    PlainFront psirpMaxComponents path := by
  intro s hs
  have hmem := List.mem_of_mem_take hs
  exact ⟨h.short s hmem, fun hm => hat ((mem_segments hmem).2.2.subset hm)⟩

/-- If all segments are plain, there is no `'@'`. -/
theorem PlainFront.noAt {path : CString} (h : PlainFront psirpMaxComponents path)
    (hcount : (segments slash path).length ≤ psirpMaxComponents) : atSign ∉ path := by
  intro hat
  obtain ⟨s, hs, hm⟩ := exists_mem_segments hat atSign_ne_slash
  rw [PlainFront, List.take_of_length_le hcount] at h
  exact (h s hs).2 hm

theorem InGrammar.versioned {path a d : CString} (h : InGrammar path)
    (hv : VersionedText path a d) : Versioned psirpMaxComponents path d :=
  ⟨h.count_le, h.short, a, hv⟩

theorem VersionedText.mem {p a d : CString} (h : VersionedText p a d) : atSign ∈ p := by
  rw [h.eq]
  exact List.mem_append_right _ List.mem_cons_self

/-- **What is in the grammar** is accepted and gives the name it says. -/
theorem InGrammar.result {path : CString} (h : InGrammar path) :
    (psirpNameInit path).1 = true ∧
      (psirpNameInit path).2.components = withoutVersion (segments slash path) ∧
      ((psirpNameInit path).2.hasVersion = true ↔ atSign ∈ path) ∧
      ∀ a d, VersionedText path a d → (psirpNameInit path).2.version.toNat = numeralValue d := by
  by_cases hat : atSign ∈ path
  · obtain ⟨a, d, hv, hsmall⟩ := h.version hat
    obtain ⟨hok, hcomps, hver, hhas⟩ := psirpNameInit_of_versioned (h.versioned hv)
    refine ⟨hok, hcomps, iff_of_true hhas hat, fun b e hb => ?_⟩
    obtain ⟨-, rfl⟩ := hv.unique hb.eq hb.noAt
    rw [hver]
    exact UInt64.toNat_ofNat_of_lt' hsmall
  · have hplain : withoutVersion (segments slash path) = segments slash path := by
      refine (List.map_congr_left fun s hs => ?_).trans (List.map_id _)
      exact takeWhile_of_notMem fun hm => hat ((mem_segments hs).2.2.subset hm)
    rw [psirpNameInit_of_plainFront (h.plainFront hat), hplain]
    exact ⟨rfl, List.take_of_length_le h.count_le, iff_of_false Bool.false_ne_true hat,
      fun a d hv => absurd hv.mem hat⟩

/-- **Exact exactly when** the text is neither too deep nor its version too large. -/
theorem parsesExactly_iff (path : CString) :
    ParsesExactly path ↔ ¬ Overdeep path ∧ ¬ Overlarge path := by
  refine ⟨?_, ?_⟩
  · intro h
    refine ⟨?_, ?_⟩
    · rintro ⟨hdeep, hp⟩
      have hgrammar := h.accepts_iff.mp (psirpNameInit_fst_iff.mpr (Or.inl hp))
      exact absurd hgrammar.count_le (Nat.not_le.mpr hdeep)
    · rintro ⟨d, hv, hlarge⟩
      have hgrammar := h.accepts_iff.mp (psirpNameInit_fst_iff.mpr (Or.inr ⟨d, hv⟩))
      obtain ⟨a, ha⟩ := hv.version
      obtain ⟨b, e, hb, hsmall⟩ := hgrammar.version ha.mem
      obtain ⟨-, rfl⟩ := ha.unique hb.eq hb.noAt
      exact absurd hsmall (Nat.not_lt.mpr hlarge)
  · rintro ⟨hdeep, hlarge⟩
    refine ⟨⟨fun hok => ?_, fun h => h.result.1⟩, fun h => h.result.2.1,
      fun h => h.result.2.2.1, fun h => h.result.2.2.2⟩
    rcases psirpNameInit_fst_iff.mp hok with hp | ⟨d, hv⟩
    · have hcount : (segments slash path).length ≤ psirpMaxComponents :=
        Nat.not_lt.mp fun hlt => hdeep ⟨hlt, hp⟩
      refine ⟨hcount, fun s hs => ?_, fun hat => absurd hat (hp.noAt hcount)⟩
      rw [PlainFront, List.take_of_length_le hcount] at hp
      exact (hp s hs).1
    · obtain ⟨a, ha⟩ := hv.version
      exact ⟨hv.count_le, hv.short, fun _ =>
        ⟨a, d, ha, Nat.not_le.mp fun hge => hlarge ⟨d, hv, hge⟩⟩⟩

/-- `/x` and a version of 2^64, which is taken for `0`. -/
def overlargePath : CString :=
  text ['/', 'x', '@', '1', '8', '4', '4', '6', '7', '4', '4', '0', '7', '3', '7', '0', '9', '5',
    '5', '1', '6', '1', '6']

/-- Seventeen segments, of which the last is dropped. -/
def overdeepPath : CString := (List.replicate 17 (text ['/', 'a'])).flatten

/-- Both are accepted, and neither is in the grammar. -/
theorem not_parsesExactly_slips :
    ¬ ParsesExactly overlargePath ∧ ¬ ParsesExactly overdeepPath := by
  refine ⟨?_, ?_⟩
  · intro h
    have hgrammar := h.accepts_iff.mp (by decide +kernel)
    have hv : VersionedText overlargePath (text ['/', 'x']) (overlargePath.drop 3) :=
      ⟨by decide, by decide, by decide, by decide⟩
    obtain ⟨a, d, hv', hsmall⟩ := hgrammar.version hv.mem
    obtain ⟨-, rfl⟩ := hv.unique hv'.eq hv'.noAt
    exact absurd hsmall (by decide +kernel)
  · intro h
    have hgrammar := h.accepts_iff.mp (by decide +kernel)
    exact absurd hgrammar.count_le (by decide +kernel)

end DsoBrowser

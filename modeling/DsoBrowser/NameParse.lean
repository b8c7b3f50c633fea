import DsoBrowser.Name
import DsoBrowser.Lib.Segments

/-!
# What the name constructors build

Facts about `psirpNameInit` and `psirpNameInitComponents` that every client of names uses:

* every name the parser leaves behind, even a rejected one, is **well formed**
  (`psirpNameInit_wellFormed`): its components are short and free of `'/'` and `'@'`, an
  unversioned one has version `0` and no empty component, a versioned one has a component;
* a text without `'@'` is cut at the slashes and at most sixteen segments are kept
  (`psirpNameInit_of_noAt`), so a canonical path gives its own component list
  (`psirpNameInit_pathOf`);
* a text with a slash after its first `'@'` is rejected (`psirpNameInit_at_inner`), because the
  digits of a version are read up to the end of the whole text;
* rebuilding a name from the components of a parsed one keeps them and hashes the canonical
  path (`psirpNameInitComponents_of_plain`), whatever text the parsed one came from.
-/

namespace DsoBrowser

open Segments

/-! ## One component -/

/-- A component as the parser stores it. -/
structure PlainComponent (c : CString) : Prop where
  /-- it fits its buffer -/
  length_lt : c.length < psirpMaxComponent
  /-- it is one path segment -/
  noSlash : slash ∉ c
  /-- its version has been split off -/
  noAt : atSign ∉ c

/-- A component without `'@'` is taken as it is. -/
theorem parseComponent_of_noAt {src : CString} {len outCap : Nat} (hlen : len < outCap)
    (h : atSign ∉ src.take len) :
    parseComponent src len outCap = some (src.take len, 0, false) := by
  have hidx : (src.take len).findIdx? (· = atSign) = none := by
    rw [List.findIdx?_eq_none_iff]
    intro c hc
    simpa using fun hca : c = atSign => h (hca ▸ hc)
  rw [parseComponent, if_neg (by omega), hidx]

/-- A component that does not fit its buffer is refused. -/
theorem lt_cap_of_parseComponent {src comp : CString} {len outCap : Nat} {ver : UInt64}
    {hasVer : Bool} (h : parseComponent src len outCap = some (comp, ver, hasVer)) :
    len < outCap := by
  by_contra hge
  rw [parseComponent, if_pos (Nat.not_lt.mp hge)] at h
  cases h

/-- Inversion: either there was no `'@'`, or the component is what precedes it. -/
theorem parseComponent_eq_some {src comp : CString} {len outCap : Nat} {ver : UInt64}
    {hasVer : Bool} (h : parseComponent src len outCap = some (comp, ver, hasVer)) :
    (comp = src.take len ∧ ver = 0 ∧ hasVer = false ∧ atSign ∉ comp) ∨
      ∃ i < len, hasVer = true ∧ comp = src.take i ∧ atSign ∉ comp := by
  simp only [parseComponent] at h
  split at h
  · simp at h
  · split at h
    · rename_i hidx
      cases h
      refine Or.inl ⟨rfl, rfl, rfl, fun hat => ?_⟩
      simpa using List.findIdx?_eq_none_iff.mp hidx _ hat
    · rename_i i hidx
      obtain ⟨hi, -, hbefore⟩ := List.findIdx?_eq_some_iff_getElem.mp hidx
      rw [List.length_take] at hi
      split at h
      · simp at h
      · split at h
        · simp at h
        · split at h
          · simp at h
          · -- nothing before the first `'@'` is one
            cases h
            refine Or.inr ⟨i, by omega, rfl, rfl, fun hat => ?_⟩
            obtain ⟨j, hj, hje⟩ := List.mem_iff_getElem.mp hat
            rw [List.length_take] at hj
            have := hbefore j (by omega)
            rw [List.getElem_take] at hje this
            simp [hje] at this

/-- The digit loop fails at a character that is no digit. -/
theorem versionLoop_eq_none {v : CString} {c : CChar} (hc : c ∈ v) (hd : isDigit c = false)
    (ver : UInt64) : versionLoop v ver = none := by
  induction v generalizing ver with
  | nil => cases hc
  | cons p rest ih =>
    rw [versionLoop]
    split
    · rfl
    · rename_i hp
      rcases List.mem_cons.mp hc with rfl | hc
      · simp only [isDigit, Bool.and_eq_false_iff, decide_eq_false_iff_not, UInt8.not_le] at hd
        exact absurd hd hp
      · exact ih hc _

/-- A component with an `'@'` is what precedes it, if digits follow to the end of the whole text. -/
theorem parseComponent_of_at {a b : CString} {len : Nat} (outCap : Nat) (ha : atSign ∉ a)
    (hlen : a.length < len) :
    parseComponent (a ++ atSign :: b) len outCap =
      if outCap ≤ len ∨ b = [] then none
      else (versionLoop b 0).map fun ver => (a, ver, true) := by
  have hidx : ((a ++ atSign :: b).take len).findIdx? (· = atSign) = some a.length := by
    rw [List.findIdx?_eq_some_iff_getElem]
    refine ⟨by simp; omega, by simp, fun j hj => ?_⟩
    rw [List.getElem_take, List.getElem_append_left hj]
    simpa using fun he : a[j] = atSign => ha (he ▸ List.getElem_mem hj)
  have hdrop : (a ++ atSign :: b).drop (a.length + 1) = b := by
    rw [List.drop_append]
    simp
  rw [parseComponent]
  split
  · rename_i hcap
    rw [if_pos (Or.inl hcap)]
  · rename_i hcap
    rw [hidx]
    simp only [hdrop]
    cases b with
    | nil => rw [if_pos (Or.inr rfl)]
    | cons v rest =>
      rw [if_neg (by rintro (h | h); exacts [hcap h, List.cons_ne_nil _ _ h])]
      cases hver : versionLoop (v :: rest) 0 with
      | none => simp only [hver, Option.map_none]
      | some ver =>
        simp only [hver, List.take_left, Option.map_some]
        rw [if_neg (by omega)]

/-- A component with an `'@'` is refused when some character between the `'@'` and the end of
the whole text is no digit. -/
theorem parseComponent_at_bad {a b : CString} {c : CChar} {len : Nat} (outCap : Nat)
    (ha : atSign ∉ a) (hlen : a.length < len) (hc : c ∈ b) (hd : isDigit c = false) :
    parseComponent (a ++ atSign :: b) len outCap = none := by
  rw [parseComponent_of_at outCap ha hlen, versionLoop_eq_none hc hd]
  split <;> rfl

/-- Before a slash, the parser takes no segment with an `'@'`: the digits of a version would be read
up to the slash. -/
theorem noAt_of_parseComponent_before_slash {seg r : CString} {cap : Nat}
    {res : CString × UInt64 × Bool}
    (h : parseComponent (seg ++ slash :: r) seg.length cap = some res) : atSign ∉ seg := by
  rcases takeWhile_append_span atSign seg with ⟨hs, -⟩ | ⟨b, -, hs⟩
  · rw [hs]
    exact sep_notMem_takeWhile seg
  · have hno : atSign ∉ seg.takeWhile (· ≠ atSign) := sep_notMem_takeWhile seg
    have hlen : (seg.takeWhile (· ≠ atSign)).length < seg.length := by
      conv_rhs => rw [hs, List.length_append, List.length_cons]
      omega
    have hbad := parseComponent_at_bad (b := b ++ slash :: r) cap hno hlen
      (List.mem_append_right _ List.mem_cons_self) slash_not_isDigit
    rw [← List.cons_append, ← List.append_assoc, ← hs, h] at hbad
    cases hbad

/-- What the parser makes of the segment at the front of a text: without a version, the whole
segment. -/
theorem parseComponent_front {p comp : CString} {outCap : Nat} {ver : UInt64} {hasVer : Bool}
    (h : parseComponent p (p.takeWhile (· ≠ slash)).length outCap = some (comp, ver, hasVer)) :
    comp.length < outCap ∧ slash ∉ comp ∧ atSign ∉ comp ∧
      (hasVer = false → ver = 0 ∧ comp = p.takeWhile (· ≠ slash)) := by
  have hcap := lt_cap_of_parseComponent h
  have htake := take_length_takeWhile slash p
  have hslash : slash ∉ p.takeWhile (· ≠ slash) := sep_notMem_takeWhile p
  rcases parseComponent_eq_some h with ⟨rfl, rfl, -, hat⟩ | ⟨i, hi, rfl, rfl, hat⟩
  · rw [htake] at hat ⊢
    exact ⟨hcap, hslash, hat, fun _ => ⟨rfl, rfl⟩⟩
  · -- what precedes the `'@'` is an initial part of the segment
    have hsub : p.take i = (p.takeWhile (· ≠ slash)).take i := by
      rw [← htake, List.take_take, min_eq_left hi.le]
    refine ⟨?_, fun hs => hslash ?_, hat, fun hf => by cases hf⟩
    · rw [List.length_take]
      omega
    · rw [hsub] at hs
      exact List.mem_of_mem_take hs

/-! ## The component loop -/

/-- The rounds of the component loop: on the text `p`, with `name` so far, it ends with the verdict
and the name `r`. -/
inductive NameRounds : CString → PsirpName → Bool × PsirpName → Prop
  /-- the text is used up -/
  | done (name : PsirpName) : NameRounds [] name (true, name)
  /-- the table is full, and the rest of the text is dropped -/
  | full {p : CString} {name : PsirpName} (h : ¬ name.components.length < psirpMaxComponents) :
      NameRounds p name (true, name)
  /-- a slash is skipped -/
  | skip {p : CString} {name : PsirpName} {r : Bool × PsirpName}
      (h : name.components.length < psirpMaxComponents) (hr : NameRounds p name r) :
      NameRounds (slash :: p) name r
  /-- the segment at the front is refused -/
  | refused {p : CString} {name : PsirpName} (h : name.components.length < psirpMaxComponents)
      (hseg : (p.takeWhile (· ≠ slash)).length ≠ 0)
      (hparse : parseComponent p (p.takeWhile (· ≠ slash)).length psirpMaxComponent = none) :
      NameRounds p name (false, name)
  /-- the segment at the front is taken -/
  | taken {p comp : CString} {name : PsirpName} {ver : UInt64} {hasVer : Bool}
      {r : Bool × PsirpName} (h : name.components.length < psirpMaxComponents)
      (hseg : (p.takeWhile (· ≠ slash)).length ≠ 0)
      (hparse : parseComponent p (p.takeWhile (· ≠ slash)).length psirpMaxComponent =
        some (comp, ver, hasVer))
      (hr : NameRounds ((p.dropWhile (· ≠ slash)).drop 1)
        ((name.push comp h).setVersion ver hasVer) r) :
      NameRounds p name r

/-- The length of the text is enough fuel. -/
theorem nameRounds_nameInitLoop (fuel : Nat) : ∀ (p : CString) (name : PsirpName),
    p.length ≤ fuel → NameRounds p name (nameInitLoop fuel p name) := by
  induction fuel with
  | zero =>
    intro p name hfuel
    obtain rfl : p = [] := List.eq_nil_of_length_eq_zero (Nat.le_zero.mp hfuel)
    exact .done name
  | succ fuel ih =>
    intro p name hfuel
    cases p with
    | nil => exact .done name
    | cons c cs =>
      rw [List.length_cons] at hfuel
      rw [nameInitLoop]
      split
      · rename_i h
        simp only
        split
        · rename_i hseg
          obtain rfl := eq_of_length_takeWhile_eq_zero hseg
          exact .skip h (ih cs name (Nat.le_of_succ_le_succ hfuel))
        · rename_i hseg
          split
          · rename_i hlen
            exact .refused h hseg (by rw [parseComponent, if_pos hlen])
          · split
            · rename_i hparse
              exact .refused h hseg hparse
            · rename_i comp ver hasVer hparse
              have hshrink : (((c :: cs).dropWhile (· ≠ slash)).drop 1).length ≤ fuel :=
                (length_rest_le c cs).trans (Nat.le_of_succ_le_succ hfuel)
              exact .taken h hseg hparse (ih _ _ hshrink)
      · rename_i h
        exact .full h

/-- The constructor is the loop after an optional slash; it only adds the hash. -/
theorem psirpNameInit_rounds (path : CString) : ∃ hash r,
    NameRounds (skipSlash path) PsirpName.zero r ∧
      psirpNameInit path = (r.1, { r.2 with hash := hash }) := by
  have hloop := nameRounds_nameInitLoop _ (skipSlash path) PsirpName.zero le_rfl
  rw [psirpNameInit]
  split
  · rename_i name he
    rw [he] at hloop
    exact ⟨name.hash, _, hloop, rfl⟩
  · rename_i name he
    rw [he] at hloop
    exact ⟨_, _, hloop, rfl⟩

/-- **Loop rule.** What holds of the name so far and survives every push holds of the name the
loop leaves behind, accepted or not. -/
theorem NameRounds.inv {I : PsirpName → Prop}
    (hpush : ∀ (name : PsirpName) (comp : CString) (ver : UInt64) (hasVer : Bool) h, I name →
      PlainComponent comp → (hasVer = false → ver = 0 ∧ comp ≠ []) →
      I ((name.push comp h).setVersion ver hasVer))
    {p : CString} {name : PsirpName} {r : Bool × PsirpName} (hr : NameRounds p name r)
    (hI : I name) : I r.2 := by
  induction hr with
  | done => exact hI
  | full => exact hI
  | skip h hr ih => exact ih hI
  | refused => exact hI
  | taken h hseg hparse hr ih =>
    obtain ⟨hlen, hslash, hat, hver⟩ := parseComponent_front hparse
    refine ih (hpush _ _ _ _ h hI ⟨hlen, hslash, hat⟩ fun hf => ?_)
    obtain ⟨hzero, rfl⟩ := hver hf
    exact ⟨hzero, fun he => hseg (by rw [he]; rfl)⟩

/-- A name the parser can leave behind. -/
structure PsirpName.WellFormed (n : PsirpName) : Prop where
  /-- each component is stored as the parser stores components -/
  plain : ∀ c ∈ n.components, PlainComponent c
  /-- an unversioned name has version `0` -/
  version_eq : n.hasVersion = false → n.version = 0
  /-- an unversioned name has no empty component -/
  ne_nil : n.hasVersion = false → ∀ c ∈ n.components, c ≠ []
  /-- a versioned name has the component the version came with -/
  components_ne : n.hasVersion = true → n.components ≠ []

theorem PsirpName.wellFormed_zero : PsirpName.zero.WellFormed :=
  ⟨by simp, fun _ => rfl, by simp, fun h => by cases h⟩

theorem PsirpName.WellFormed.push {name : PsirpName} (hw : name.WellFormed) {comp : CString}
    {ver : UInt64} {hasVer : Bool} {h} (hp : PlainComponent comp)
    (hv : hasVer = false → ver = 0 ∧ comp ≠ []) :
    ((name.push comp h).setVersion ver hasVer).WellFormed := by
  have hplain : ∀ c ∈ name.components ++ [comp], PlainComponent c := by
    intro c hc
    rcases List.mem_append.mp hc with hc | hc
    · exact hw.plain c hc
    · exact List.mem_singleton.mp hc ▸ hp
  cases hasVer with
  | true =>
    refine ⟨hplain, ?_, ?_, fun _ => List.append_ne_nil_of_right_ne_nil _ (List.cons_ne_nil _ _)⟩
    · intro hf
      cases hf
    · intro hf
      cases hf
  | false =>
    refine ⟨hplain, hw.version_eq, fun hf c hc => ?_, fun _ => by simp⟩
    rcases List.mem_append.mp hc with hc | hc
    · exact hw.ne_nil hf c hc
    · exact List.mem_singleton.mp hc ▸ (hv rfl).2

/-- Hashing changes none of what well-formedness speaks of. -/
theorem PsirpName.WellFormed.withHash {n : PsirpName} (hw : n.WellFormed) (hash : UInt64) :
    PsirpName.WellFormed { n with hash := hash } :=
  ⟨hw.plain, hw.version_eq, hw.ne_nil, hw.components_ne⟩

/-- **The parser leaves a well-formed name behind**, whether it accepts the text or not. -/
theorem psirpNameInit_wellFormed (path : CString) : (psirpNameInit path).2.WellFormed := by
  obtain ⟨hash, r, hr, he⟩ := psirpNameInit_rounds path
  have hloop : r.2.WellFormed :=
    hr.inv (fun _ _ _ _ _ hw hp hv => hw.push hp hv) PsirpName.wellFormed_zero
  rw [he]
  exact hloop.withHash hash

/-- The hash of an accepted name is that of its text. -/
theorem hash_of_psirpNameInit {path : CString} {n : PsirpName}
    (h : psirpNameInit path = (true, n)) : n.hash = fnv1aHash (hashText path).bytes := by
  simp only [psirpNameInit] at h
  split at h
  · simp at h
  · cases h
    rfl

/-- A name `psirp_name_init` built. -/
def Parsed (n : PsirpName) : Prop := ∃ path, psirpNameInit path = (true, n)

theorem Parsed.wellFormed {n : PsirpName} (h : Parsed n) : n.WellFormed := by
  obtain ⟨path, hpath⟩ := h
  have := psirpNameInit_wellFormed path
  rwa [hpath] at this

/-! ## Texts without a version -/

/-- A version stays. -/
theorem NameRounds.hasVersion {p : CString} {name : PsirpName} {r : Bool × PsirpName}
    (hr : NameRounds p name r) (h : name.hasVersion = true) : r.2.hasVersion = true := by
  refine hr.inv (I := fun n => n.hasVersion = true) ?_ h
  intro name comp ver hasVer _ hI _ _
  cases hasVer
  · exact hI
  · rfl

/-- A segment that is taken leaves one place less. -/
theorem PsirpName.room_push (name : PsirpName) (comp : CString) (h) :
    psirpMaxComponents - name.components.length =
      psirpMaxComponents - (name.push comp h).components.length + 1 := by
  rw [PsirpName.components_push, List.length_append, List.length_singleton]
  omega

/-- Where no version is taken, the loop pushes segments as they are, and an accepted text gives as
many as there is room for. -/
theorem NameRounds.unversioned {p : CString} {name : PsirpName} {r : Bool × PsirpName}
    (hr : NameRounds p name r) (hplain : atSign ∉ p ∨ r.2.hasVersion = false) :
    r.2.components <+: name.components ++ segments slash p ∧
      (r.1 = true → r.2.components = name.components ++
        (segments slash p).take (psirpMaxComponents - name.components.length)) := by
  induction hr with
  | done name => simp
  | full h =>
    rw [Nat.sub_eq_zero_of_le (Nat.not_lt.mp h), List.take_zero, List.append_nil]
    exact ⟨List.prefix_append _ _, fun _ => rfl⟩
  | skip h hr ih =>
    rw [segments_cons]
    exact ih (hplain.imp_left fun hat hm => hat (List.mem_cons_of_mem _ hm))
  | refused => exact ⟨List.prefix_append _ _, fun he => by cases he⟩
  | @taken p comp name ver hasVer r h hseg hparse hr ih =>
    -- a version would show in the end
    obtain rfl : hasVer = false := by
      rcases hplain with hat | hver
      · rw [parseComponent_of_noAt (lt_cap_of_parseComponent hparse)
          fun hm => hat (List.mem_of_mem_take hm)] at hparse
        cases hparse
        rfl
      · cases hasVer with
        | false => rfl
        | true =>
          rw [hr.hasVersion rfl] at hver
          cases hver
    obtain ⟨-, rfl⟩ := (parseComponent_front hparse).2.2.2 rfl
    obtain ⟨hpre, hall⟩ := ih (hplain.imp_left fun hat hm => hat (mem_of_mem_rest hm))
    rw [PsirpName.setVersion_false, PsirpName.components_push, List.append_assoc] at hpre hall
    rw [segments_eq_cons hseg, PsirpName.room_push name _ h, List.take_succ_cons]
    exact ⟨hpre, hall⟩

/-- The segments of a text that there is room for are short and have no version. -/
def PlainFront (room : Nat) (p : CString) : Prop :=
  ∀ s ∈ (segments slash p).take room, s.length < psirpMaxComponent ∧ atSign ∉ s

/-- The first of the segments there is room for is taken as it is. -/
theorem parseComponent_front_of_plain {p : CString} {n : Nat} (h : n < psirpMaxComponents)
    (hseg : (p.takeWhile (· ≠ slash)).length ≠ 0) (hp : PlainFront (psirpMaxComponents - n) p) :
    parseComponent p (p.takeWhile (· ≠ slash)).length psirpMaxComponent =
      some (p.takeWhile (· ≠ slash), 0, false) := by
  obtain ⟨k, hk⟩ := Nat.exists_eq_succ_of_ne_zero (Nat.sub_ne_zero_of_lt h)
  rw [PlainFront, segments_eq_cons hseg, hk, List.take_succ_cons] at hp
  obtain ⟨hlen, hat⟩ := hp _ List.mem_cons_self
  rw [← take_length_takeWhile slash p] at hat
  rw [parseComponent_of_noAt hlen hat, take_length_takeWhile]

/-- The loop accepts a text whose first segments are plain, as many as it has room for; it pushes
them and sets no version. -/
theorem NameRounds.of_plainFront {p : CString} {name : PsirpName} {r : Bool × PsirpName}
    (hr : NameRounds p name r)
    (hp : PlainFront (psirpMaxComponents - name.components.length) p) :
    r.1 = true ∧ r.2.components = name.components ++
        (segments slash p).take (psirpMaxComponents - name.components.length) ∧
      r.2.version = name.version ∧ r.2.hasVersion = name.hasVersion := by
  induction hr with
  | done name => simp
  | full h =>
    rw [Nat.sub_eq_zero_of_le (Nat.not_lt.mp h), List.take_zero, List.append_nil]
    exact ⟨rfl, rfl, rfl, rfl⟩
  | skip h hr ih =>
    rw [PlainFront, segments_cons] at hp
    rw [segments_cons]
    exact ih hp
  | refused h hseg hparse =>
    rw [parseComponent_front_of_plain h hseg hp] at hparse
    cases hparse
  | @taken p comp name ver hasVer r h hseg hparse hr ih =>
    rw [parseComponent_front_of_plain h hseg hp] at hparse
    cases hparse
    rw [PlainFront, segments_eq_cons hseg, PsirpName.room_push name _ h, List.take_succ_cons] at hp
    rw [segments_eq_cons hseg, PsirpName.room_push name _ h, List.take_succ_cons,
      List.append_cons]
    exact ih fun s hs => hp s (List.mem_cons_of_mem _ hs)

theorem segments_skipSlash (path : CString) :
    segments slash (skipSlash path) = segments slash path := by
  rw [skipSlash]
  split
  · rename_i h
    cases path with
    | nil => rfl
    | cons c cs =>
      obtain rfl : c = slash := by simpa using h
      rw [List.tail_cons, segments_cons]
  · rfl

theorem mem_of_mem_skipSlash {path : CString} {c : CChar} (h : c ∈ skipSlash path) : c ∈ path := by
  simp only [skipSlash] at h
  split at h
  · exact List.mem_of_mem_tail h
  · exact h

/-- **Unversioned texts.** A text whose first sixteen segments are plain is accepted, and its name
has those segments. -/
theorem psirpNameInit_of_plainFront {path : CString} (hp : PlainFront psirpMaxComponents path) :
    psirpNameInit path = (true, ⟨(segments slash path).take psirpMaxComponents,
      fnv1aHash (hashText path).bytes, 0, false, List.length_take_le _ _⟩) := by
  obtain ⟨hash, r, hr, he⟩ := psirpNameInit_rounds path
  obtain ⟨hok, hcomps, hver, hhas⟩ := hr.of_plainFront (by
    rw [PlainFront, segments_skipSlash]
    exact hp)
  rw [segments_skipSlash] at hcomps
  rw [hok] at he
  obtain rfl := hash_of_psirpNameInit he
  rw [he]
  exact congrArg (Prod.mk true) (PsirpName.ext hcomps rfl hver hhas)

/-- In particular a text without `'@'` is, if these segments are short enough. -/
theorem psirpNameInit_of_noAt {path : CString} (hat : atSign ∉ path)
    (hlen : ∀ s ∈ (segments slash path).take psirpMaxComponents,
      s.length < psirpMaxComponent) :
    psirpNameInit path = (true, ⟨(segments slash path).take psirpMaxComponents,
      fnv1aHash (hashText path).bytes, 0, false, List.length_take_le _ _⟩) :=
  psirpNameInit_of_plainFront fun s hs => ⟨hlen s hs, fun hm =>
    hat ((mem_segments (List.mem_of_mem_take hs)).2.2.subset hm)⟩

/-- The constructor starts after an optional slash. -/
theorem psirpNameInit_congr {s t : CString} (h : skipSlash s = skipSlash t) :
    psirpNameInit s = psirpNameInit t := by
  rw [psirpNameInit, psirpNameInit, hashText, hashText, h]

/-- **A name without a version** has segments of its text, as many as it has room for if the text
is accepted. -/
theorem psirpNameInit_unversioned {path : CString}
    (h : atSign ∉ path ∨ (psirpNameInit path).2.hasVersion = false) :
    (psirpNameInit path).2.components <+: segments slash path ∧
      ((psirpNameInit path).1 = true →
        (psirpNameInit path).2.components = (segments slash path).take psirpMaxComponents) := by
  obtain ⟨hash, r, hr, he⟩ := psirpNameInit_rounds path
  rw [he] at h ⊢
  have hloop := hr.unversioned (h.imp_left fun hat hm => hat (mem_of_mem_skipSlash hm))
  rw [segments_skipSlash] at hloop
  exact hloop

/-- A component of a canonical path: short, non-empty, one segment, without a version. -/
structure PathComponent (c : CString) : Prop extends PlainComponent c where
  /-- the path names it -/
  ne_nil : c ≠ []

instance (c : CString) : Decidable (PathComponent c) :=
  decidable_of_iff (c.length < psirpMaxComponent ∧ slash ∉ c ∧ atSign ∉ c ∧ c ≠ [])
    ⟨fun ⟨hlen, hslash, hat, hne⟩ => ⟨⟨hlen, hslash, hat⟩, hne⟩,
      fun h => ⟨h.length_lt, h.noSlash, h.noAt, h.ne_nil⟩⟩

/-- The components of an unversioned name are those of a path. -/
theorem Parsed.pathComponent {n : PsirpName} (hn : Parsed n) (hv : n.hasVersion = false) :
    ∀ c ∈ n.components, PathComponent c := fun c hc =>
  ⟨hn.wellFormed.plain c hc, hn.wellFormed.ne_nil hv c hc⟩

theorem segments_pathOf {cs : List CString} (h : ∀ c ∈ cs, PathComponent c) :
    segments slash (pathOf cs) = cs :=
  segments_flatMap_cons fun c hc => ⟨(h c hc).ne_nil, (h c hc).noSlash⟩

theorem atSign_notMem_pathOf {cs : List CString} (h : ∀ c ∈ cs, atSign ∉ c) :
    atSign ∉ pathOf cs := by
  intro hm
  obtain ⟨c, hc, hm⟩ := List.mem_flatMap.mp hm
  rcases List.mem_cons.mp hm with he | hm
  · exact atSign_ne_slash he
  · exact h c hc hm

theorem hashText_pathOf {cs : List CString} (hne : cs ≠ []) : hashText (pathOf cs) = pathOf cs := by
  cases cs with
  | nil => exact absurd rfl hne
  | cons c cs =>
    simp [hashText, skipSlash]

/-- **Canonical paths** give their own component list and the hash of their own text. -/
theorem psirpNameInit_pathOf {cs : List CString} (h : ∀ c ∈ cs, PathComponent c) (hne : cs ≠ [])
    (hle : cs.length ≤ psirpMaxComponents) :
    psirpNameInit (pathOf cs) = (true, ⟨cs, fnv1aHash (pathOf cs).bytes, 0, false, hle⟩) := by
  have htake : (segments slash (pathOf cs)).take psirpMaxComponents = cs := by
    rw [segments_pathOf h, List.take_of_length_le hle]
  rw [psirpNameInit_of_noAt (atSign_notMem_pathOf fun c hc => (h c hc).noAt)
    (by rw [htake]; exact fun c hc => (h c hc).length_lt)]
  exact congrArg (Prod.mk true)
    (PsirpName.ext htake (by rw [hashText_pathOf hne]) rfl rfl)

/-! ## Texts with a version that is not at the end -/

/-- The loop never gets past an `'@'` that is followed by a character other than a digit. -/
theorem NameRounds.at_bad {a b : CString} {c : CChar} {name : PsirpName} {r : Bool × PsirpName}
    (hr : NameRounds (a ++ atSign :: b) name r) (hat : atSign ∉ a) (hc : c ∈ b)
    (hd : isDigit c = false)
    (hroom : name.components.length + (segments slash a).length < psirpMaxComponents) :
    r.1 = false := by
  generalize hp : a ++ atSign :: b = p at hr
  induction hr generalizing a with
  | done name => simp at hp
  | full h => omega
  | skip h hr ih =>
    -- the slash belongs to `a`
    cases a with
    | nil => exact absurd (List.cons.inj hp).1 atSign_ne_slash
    | cons x xs =>
      obtain ⟨rfl, rfl⟩ := List.cons.inj hp
      rw [segments_cons] at hroom
      exact ih (fun h => hat (List.mem_cons_of_mem _ h)) hroom rfl
  | refused => rfl
  | @taken p comp name ver hasVer r h hseg hparse hr ih =>
    subst hp
    rcases takeWhile_append_span slash a with ⟨ha, -⟩ | ⟨q, hdrop, ha⟩
    · -- the segment reaches the `'@'`
      have hsl : slash ∉ a := by
        rw [ha]
        exact sep_notMem_takeWhile a
      have hlong : a.length < ((a ++ atSign :: b).takeWhile (· ≠ slash)).length := by
        rw [takeWhile_append_of_notMem hsl, List.takeWhile_cons_of_pos (by decide),
          List.length_append, List.length_cons]
        omega
      rw [parseComponent_at_bad _ hat hlong hc hd] at hparse
      cases hparse
    · -- a whole segment of `a` comes first
      have hs : slash ∉ a.takeWhile (· ≠ slash) := sep_notMem_takeWhile a
      have hdw : ((a ++ atSign :: b).dropWhile (· ≠ slash)).drop 1 = q ++ atSign :: b := by
        rw [ha, List.append_assoc, List.cons_append, dropWhile_append_cons hs]
        rfl
      have hatq : atSign ∉ q := fun h => hat (by rw [ha]; simp [h])
      have hseg' : (a.takeWhile (· ≠ slash)).length ≠ 0 := by
        rw [ha, List.append_assoc, List.cons_append, takeWhile_append_cons hs] at hseg
        exact hseg
      refine ih hatq ?_ hdw.symm
      rw [segments_eq_cons hseg', hdrop, List.drop_succ_cons, List.drop_zero,
        List.length_cons] at hroom
      rw [PsirpName.components_setVersion, PsirpName.components_push, List.length_append,
        List.length_singleton]
      omega

/-- **A version that is not at the end** makes the parser reject the text, unless sixteen
components come before it. -/
theorem psirpNameInit_at_inner {a b : CString} (hat : atSign ∉ a) (hb : slash ∈ b)
    (hroom : (segments slash a).length < psirpMaxComponents) :
    (psirpNameInit (a ++ atSign :: b)).1 = false := by
  have hskip : skipSlash (a ++ atSign :: b) = skipSlash a ++ atSign :: b := by
    cases a with
    | nil => rfl
    | cons x xs =>
      rcases eq_or_ne x slash with rfl | hx
      · simp [skipSlash]
      · simp [skipSlash, hx]
  obtain ⟨hash, r, hr, he⟩ := psirpNameInit_rounds (a ++ atSign :: b)
  rw [hskip] at hr
  rw [he]
  exact hr.at_bad (fun h => hat (mem_of_mem_skipSlash h)) hb slash_not_isDigit
    (by rw [segments_skipSlash]; simpa using hroom)

/-! ## Rebuilding a name from its components -/

theorem nameInitComponentsLoop_of_plain :
    ∀ (cs : List CString) (path : CString) (name : PsirpName) h,
      (∀ c ∈ cs, PlainComponent c) →
      (nameInitComponentsLoop cs path name h).1 = true ∧
      (nameInitComponentsLoop cs path name h).2.components = name.components ++ cs ∧
      (nameInitComponentsLoop cs path name h).2.hash = fnv1aHash (path ++ pathOf cs).bytes ∧
      (nameInitComponentsLoop cs path name h).2.version = name.version ∧
      (nameInitComponentsLoop cs path name h).2.hasVersion = name.hasVersion := by
  intro cs
  induction cs with
  | nil =>
    intro path name h hcs
    simp [nameInitComponentsLoop]
  | cons c cs ih =>
    intro path name h hcs
    have hc := hcs c List.mem_cons_self
    have htake : c.take c.length = c := List.take_length
    rw [nameInitComponentsLoop, if_neg (Nat.not_le.mpr hc.length_lt)]
    simp only [parseComponent_of_noAt hc.length_lt (by rw [htake]; exact hc.noAt), htake]
    obtain ⟨hok, hcomps, hhash, hrest⟩ :=
      ih (path ++ slash :: c) _ _ fun d hd => hcs d (List.mem_cons_of_mem _ hd)
    refine ⟨hok, ?_, ?_, hrest⟩
    · rw [hcomps]
      simp
    · rw [hhash]
      simp

/-- **Rebuilding.** The components of a parsed name come back as they are; the hash is that of
their canonical path and the version is gone. -/
theorem psirpNameInitComponents_of_plain {cs : List CString} (h : ∀ c ∈ cs, PlainComponent c)
    (hle : cs.length ≤ psirpMaxComponents) :
    psirpNameInitComponents cs = (true, ⟨cs, fnv1aHash (pathOf cs).bytes, 0, false, hle⟩) := by
  obtain ⟨hok, hcomps, hhash, hver, hhas⟩ :=
    nameInitComponentsLoop_of_plain cs [] PsirpName.zero (by simpa using hle) h
  rw [psirpNameInitComponents, dif_pos hle]
  exact Prod.ext hok (PsirpName.ext hcomps hhash hver hhas)

end DsoBrowser

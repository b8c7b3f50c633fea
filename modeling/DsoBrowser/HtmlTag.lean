import DsoBrowser.CString

/-!
# Tags and attributes

A tag is given to the helpers of the parser as the bytes from its `<` up to its `>`, and a
comparison by `strncasecmp` reads on past them. So the helpers here take the bytes of the tag and
the bytes of the memory `after` it, and a comparison that finds no difference before the memory
ends is a fault.
-/

namespace DsoBrowser

/-- What the parser may do outside its buffers. -/
inductive HtmlFault
  /-- a read past the page's bytes -/
  | htmlRead
  /-- a write past a resource's name -/
  | nameWrite
  /-- a write past the inline CSS buffer -/
  | cssWrite
  deriving DecidableEq, Repr

/-- What a step that is followed by another gives. -/
theorem exists_of_bind_ok {ε α β : Type} {x : Except ε α} {f : α → Except ε β} {b : β}
    (h : x >>= f = .ok b) : ∃ a, x = .ok a ∧ f a = .ok b := by
  cases x with
  | error e => cases h
  | ok a => exact ⟨a, rfl, h⟩

/-- `HTML_MAX_ATTR_LEN` -/
def htmlMaxAttrLen : Nat := 256

/-- `HTML_MAX_TAG_LEN` -/
def htmlMaxTagLen : Nat := 64

/-! ## Characters -/

/-- What is asked of the bytes of a list is decided along the list, not for all bytes there are. -/
instance (priority := high) decidableForallMem (l : List UInt8) (p : UInt8 → Prop)
    [DecidablePred p] : Decidable (∀ b ∈ l, p b) :=
  List.decidableBAll p l

instance (priority := high) decidableForallChar (s : CString) (p : CChar → Prop)
    [DecidablePred p] : Decidable (∀ c ∈ s, p c) :=
  List.decidableBAll p s

/-- `isspace` -/
def isSpace (b : UInt8) : Bool := b = 32 || (9 ≤ b && b ≤ 13)

/-- `tolower` -/
def toLower (b : UInt8) : UInt8 := if 65 ≤ b && b ≤ 90 then b + 32 else b

/-- Only letters change. -/
theorem toLower_eq {b c : UInt8} (hc : ¬ (97 ≤ c.toNat ∧ c.toNat ≤ 122)) (h : toLower b = c) :
    b = c := by
  rw [toLower] at h
  split at h
  · rename_i hupper
    simp only [Bool.and_eq_true, decide_eq_true_eq, UInt8.le_iff_toNat_le] at hupper
    obtain ⟨hlo, hhi⟩ : 65 ≤ b.toNat ∧ b.toNat ≤ 90 := hupper
    have hsum : c.toNat = b.toNat + 32 := by
      rw [← h, UInt8.toNat_add]
      exact Nat.mod_eq_of_lt (by change b.toNat + 32 < 256; omega)
    omega
  · exact h

/-- `strcasecmp(a, b) == 0` -/
def equalsCase (a b : CString) : Bool := a.bytes.map toLower = b.bytes.map toLower

/-- `strncasecmp(s, lit, strlen(lit)) == 0`, where `s` is what can be read from there. -/
def startsWithCase : List UInt8 → CString → Except HtmlFault Bool
  | _, [] => .ok true
  | [], _ :: _ => .error .htmlRead
  | b :: mem, c :: lit =>
    if toLower b = toLower c.val then startsWithCase mem lit else .ok false

/-- A comparison fails only where the memory ends. -/
theorem startsWithCase_error {mem : List UInt8} {lit : CString} {e : HtmlFault}
    (h : startsWithCase mem lit = .error e) : e = .htmlRead := by
  induction lit generalizing mem with
  | nil =>
    rw [startsWithCase] at h
    cases h
  | cons c lit ih =>
    cases mem with
    | nil =>
      rw [startsWithCase] at h
      exact (Except.error.inj h).symm
    | cons b mem =>
      rw [startsWithCase] at h
      split at h
      · exact ih h
      · cases h

/-- A comparison that ends does not look at what comes behind. -/
theorem startsWithCase_append_ok {mem : List UInt8} {lit : CString} {x : Bool}
    (h : startsWithCase mem lit = .ok x) (more : List UInt8) :
    startsWithCase (mem ++ more) lit = .ok x := by
  induction lit generalizing mem with
  | nil =>
    rw [startsWithCase] at h ⊢
    exact h
  | cons c lit ih =>
    cases mem with
    | nil =>
      rw [startsWithCase] at h
      cases h
    | cons b mem =>
      rw [startsWithCase] at h
      rw [List.cons_append, startsWithCase]
      split at h
      · rename_i hb
        rw [if_pos hb]
        exact ih h
      · rename_i hb
        rw [if_neg hb]
        exact h

/-- A comparison ends at a terminator. -/
theorem startsWithCase_terminated (mem rest : List UInt8) (lit : CString) :
    ∃ x, startsWithCase (mem ++ 0 :: rest) lit = .ok x := by
  induction lit generalizing mem with
  | nil => exact ⟨true, by rw [startsWithCase]⟩
  | cons c lit ih =>
    cases mem with
    | nil =>
      refine ⟨false, ?_⟩
      rw [List.nil_append, startsWithCase, if_neg]
      intro he
      exact c.property (toLower_eq (by decide) he.symm)
    | cons b mem =>
      rw [List.cons_append, startsWithCase]
      split
      · exact ih mem
      · exact ⟨false, rfl⟩

/-- A comparison that has enough to look at ends. -/
theorem exists_startsWithCase {lit : CString} : ∀ {mem : List UInt8}, lit.length ≤ mem.length →
    ∃ x, startsWithCase mem lit = .ok x := by
  induction lit with
  | nil => exact fun _ => ⟨true, by rw [startsWithCase]⟩
  | cons c lit ih =>
    intro mem h
    cases mem with
    | nil => exact absurd h (Nat.not_succ_le_zero _)
    | cons b mem =>
      rw [startsWithCase]
      split
      · exact ih (Nat.le_of_succ_le_succ h)
      · exact ⟨false, rfl⟩

/-! ## Tags -/

/-- `is_self_closing` -/
def isSelfClosing (tag : List UInt8) : Bool := tag.getLast? = some slash.val

/-- The bytes of a name or of an unquoted value stop here. -/
def endsWord (b : UInt8) : Bool := isSpace b || b = (ch '>').val || b = slash.val

/-- `if (i < tag_len && tag[i] == c) i++;` -/
def skipByte (c : CChar) : List UInt8 → List UInt8
  | [] => []
  | b :: bs => if b = c.val then bs else b :: bs

/-- `extract_tag_name` -/
def extractTagName (tag : List UInt8) : CString :=
  let rest := skipByte slash (skipByte (ch '<') tag)
  CString.ofBytes ((rest.takeWhile fun b => !endsWord b).take (htmlMaxTagLen - 1))

/-! ## Attributes -/

/-- The value that starts at these bytes: up to the matching quote, or one word. -/
def attrValue : List UInt8 → List UInt8
  | [] => []
  | quote :: rest =>
    if quote = (ch '"').val || quote = (ch '\'').val then rest.takeWhile (· ≠ quote)
    else (quote :: rest).takeWhile fun b => !endsWord b

/-- The loop of `extract_attr`. A name that no `=` follows is passed over where it ends, any other
word where the next whitespace is. -/
def extractAttrLoop (after : List UInt8) (attrName : CString) (outLen : Nat) :
    Nat → List UInt8 → Except HtmlFault (List UInt8)
  | 0, _ => .ok []
  | fuel + 1, tag => do
    let tag := tag.dropWhile isSpace
    if tag = [] then return []
    if ← startsWithCase (tag ++ after) attrName then
      let tag := (tag.drop attrName.length).dropWhile isSpace
      if tag.head? = some (ch '=').val then
        return (attrValue (tag.tail.dropWhile isSpace)).take (outLen - 1)
      else extractAttrLoop after attrName outLen fuel tag
    else extractAttrLoop after attrName outLen fuel (tag.dropWhile fun b => !isSpace b)

/-- `extract_attr`, as the string that the caller's buffer then holds. -/
def extractAttr (tag after : List UInt8) (attrName : CString) (outLen : Nat) :
    Except HtmlFault CString :=
  (extractAttrLoop after attrName outLen (tag.length + 1) tag).map CString.ofBytes

end DsoBrowser

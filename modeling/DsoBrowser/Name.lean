import DsoBrowser.CString
import Mathlib.Data.List.TakeWhile

/-!
# Content names

The naming half of `psirp.c`: the FNV-1a hash, the component parser with its `@version` suffix,
the two constructors of a name, the comparisons and the rendering.

A `PsirpName` has the fields of the C struct; `count` is the length of `components` and the
table bound `PSIRP_MAX_COMPONENTS` is a field, so no name with more components can be built. A
failed constructor leaves a partly filled name behind, which some callers go on to use, so the
constructors return it next to their verdict. `malloc` is taken to succeed.
-/

namespace DsoBrowser

/-- `PSIRP_MAX_COMPONENTS` -/
def psirpMaxComponents : Nat := 16

/-- `PSIRP_MAX_COMPONENT` -/
def psirpMaxComponent : Nat := 64

/-- `PSIRP_MAX_NAME` -/
def psirpMaxName : Nat := psirpMaxComponents * psirpMaxComponent

/-! ## FNV-1a -/

/-- `fnv1a_hash` -/
def fnv1aHash (data : List UInt8) : UInt64 :=
  data.foldl (fun hash b => (hash ^^^ b.toUInt64) * 1099511628211) 14695981039346656037

/-! ## Names -/

/-- `psirp_name` -/
structure PsirpName where
  /-- path components -/
  components : List CString
  /-- hash compared before the components are -/
  hash : UInt64
  /-- version, `0` for an unversioned name -/
  version : UInt64
  /-- whether an `@version` was present -/
  hasVersion : Bool
  /-- the component table's size -/
  count_le : components.length ≤ psirpMaxComponents
  deriving DecidableEq

namespace PsirpName

/-- A name after `memset(name, 0, sizeof(*name))`. -/
def zero : PsirpName := ⟨[], 0, 0, false, Nat.zero_le _⟩

/-- `name->components[name->count++] = comp` -/
def push (name : PsirpName) (comp : CString)
    (h : name.components.length < psirpMaxComponents) : PsirpName :=
  { name with
    components := name.components ++ [comp]
    count_le := by rw [List.length_append]; exact h }

/-- `if (has_ver) { name->version = ver; name->has_version = true; }` -/
def setVersion (name : PsirpName) (ver : UInt64) (hasVer : Bool) : PsirpName :=
  if hasVer then { name with version := ver, hasVersion := true } else name

@[simp] theorem components_zero : zero.components = [] := rfl

@[simp] theorem components_push (name : PsirpName) (comp : CString) (h) :
    (name.push comp h).components = name.components ++ [comp] := rfl

@[simp] theorem components_setVersion (name : PsirpName) (ver : UInt64) (hasVer : Bool) :
    (name.setVersion ver hasVer).components = name.components := by
  cases hasVer <;> rfl

@[simp] theorem setVersion_false (name : PsirpName) (ver : UInt64) :
    name.setVersion ver false = name := rfl

/-- Names are determined by their four data fields. -/
theorem ext {a b : PsirpName} (hc : a.components = b.components) (hh : a.hash = b.hash)
    (hv : a.version = b.version) (hb : a.hasVersion = b.hasVersion) : a = b := by
  cases a; cases b
  subst hc; subst hh; subst hv; subst hb
  rfl

end PsirpName

/-- The canonical path of a component list, `/c1/.../ck`. -/
def pathOf (components : List CString) : CString := components.flatMap (slash :: ·)

@[simp] theorem pathOf_nil : pathOf [] = [] := rfl

@[simp] theorem pathOf_cons (c : CString) (cs : List CString) :
    pathOf (c :: cs) = slash :: c ++ pathOf cs := rfl

theorem pathOf_append (cs ds : List CString) : pathOf (cs ++ ds) = pathOf cs ++ pathOf ds :=
  List.flatMap_append

/-! ## Parsing -/

/-- The digit loop of `parse_component`, from the character after the `'@'` to the NUL. -/
def versionLoop : CString → UInt64 → Option UInt64
  | [], ver => some ver
  | p :: rest, ver =>
    if p.val < 48 ∨ 57 < p.val then none
    else versionLoop rest (ver * 10 + (p.val - 48).toUInt64)

/-- `parse_component`: `src` is the whole text from the component on, of which the first `len`
characters are the component. The `'@'` is looked for inside the component, but the digits after
it are read up to the terminator of `src`. -/
def parseComponent (src : CString) (len outCap : Nat) : Option (CString × UInt64 × Bool) :=
  if outCap ≤ len then none
  else
    match (src.take len).findIdx? (· = atSign) with
    | none => some (src.take len, 0, false)
    | some baseLen =>
      match src.drop (baseLen + 1) with
      | [] => none
      | v :: rest =>
        match versionLoop (v :: rest) 0 with
        | none => none
        | some ver =>
          if outCap ≤ baseLen then none else some (src.take baseLen, ver, true)

/-- The component loop of `psirp_name_init`, on the text from `p` on. Each round takes at least
one character, so the length of the text is enough fuel. -/
def nameInitLoop : Nat → CString → PsirpName → Bool × PsirpName
  | 0, _, name => (true, name)
  | _ + 1, [], name => (true, name)
  | fuel + 1, c :: cs, name =>
    if h : name.components.length < psirpMaxComponents then
      let seg := (c :: cs).takeWhile (· ≠ slash)
      let rest := (c :: cs).dropWhile (· ≠ slash)
      if seg.length = 0 then nameInitLoop fuel cs name
      else if psirpMaxComponent ≤ seg.length then (false, name)
      else
        match parseComponent (c :: cs) seg.length psirpMaxComponent with
        | none => (false, name)
        | some (comp, ver, hasVer) =>
          nameInitLoop fuel (rest.drop 1) ((name.push comp h).setVersion ver hasVer)
    else (true, name)

/-- `path` after the optional leading slash. -/
def skipSlash (path : CString) : CString := if path.head? = some slash then path.tail else path

/-- The bytes `psirp_name_init` hashes: a slash and the text after an optional leading one. The
buffer they are copied to is taken to be large enough; it has `PSIRP_MAX_NAME` bytes, and a longer
text runs over its end. -/
def hashText (path : CString) : CString := slash :: skipSlash path

/-- `psirp_name_init` -/
def psirpNameInit (path : CString) : Bool × PsirpName :=
  match nameInitLoop (skipSlash path).length (skipSlash path) PsirpName.zero with
  | (false, name) => (false, name)
  | (true, name) => (true, { name with hash := fnv1aHash (hashText path).bytes })

/-- The loop of `psirp_name_init_components`; `path` is the text written so far. -/
def nameInitComponentsLoop : (components : List CString) → CString → (name : PsirpName) →
    name.components.length + components.length ≤ psirpMaxComponents → Bool × PsirpName
  | [], path, name, _ => (true, { name with hash := fnv1aHash path.bytes })
  | c :: cs, path, name, h =>
    if psirpMaxComponent ≤ c.length then (false, name)
    else
      match parseComponent c c.length psirpMaxComponent with
      | none => (false, name)
      | some (comp, ver, hasVer) =>
        nameInitComponentsLoop cs (path ++ slash :: c)
          ((name.push comp (by rw [List.length_cons] at h; omega)).setVersion ver hasVer)
          (by rw [List.length_cons] at h; simp; omega)

/-- `psirp_name_init_components` -/
def psirpNameInitComponents (components : List CString) : Bool × PsirpName :=
  if h : components.length ≤ psirpMaxComponents then
    nameInitComponentsLoop components [] PsirpName.zero (by simpa using h)
  else (false, PsirpName.zero)

/-! ## Comparison -/

/-- `name_base_equal` -/
def nameBaseEqual (a b : PsirpName) : Bool := a.components = b.components

/-- `psirp_name_equal` -/
def psirpNameEqual (a b : PsirpName) : Bool :=
  a.components.length = b.components.length && a.hash = b.hash && a.components = b.components

/-- `psirp_name_is_prefix` -/
def psirpNameIsPrefix (pre name : PsirpName) : Bool :=
  pre.components.isPrefixOf name.components

/-! ## Rendering -/

/-- The loop of `psirp_name_to_string`; `out` is the text written so far. -/
def nameToStringLoop (name : PsirpName) (bufLen : Nat) : List CString → CString → CString
  | [], out => out
  | c :: cs, out =>
    if out.length < bufLen - 1 then
      let out := out ++ [slash]
      if bufLen - 1 ≤ out.length + c.length then out
      else
        let out := out ++ c
        if name.hasVersion ∧ cs = [] ∧ out.length + 1 < bufLen - 1 then
          -- `vbuf` has 24 bytes, which `'@'` and 20 digits always fit
          nameToStringLoop name bufLen cs (out ++ atSign :: decimal name.version.toNat)
        else nameToStringLoop name bufLen cs out
    else out

/-- `psirp_name_to_string`: the text written before the NUL. -/
def psirpNameToString (name : PsirpName) (bufLen : Nat) : CString :=
  if bufLen = 0 then [] else nameToStringLoop name bufLen name.components []

end DsoBrowser

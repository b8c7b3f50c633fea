import Mathlib.Algebra.GroupWithZero.Nat
import Mathlib.Data.List.Basic
import Mathlib.Data.List.TakeWhile

/-!
# C strings

The program handles names as NUL-terminated byte strings. A string is modelled by the bytes
before its terminator, none of which is NUL by type, so `strlen` is `List.length`, `strcmp(a, b)
== 0` is `a = b`, and a scan to the terminator is a scan of the list.
-/

namespace DsoBrowser

/-- A character of a C string: any byte but the terminating NUL. -/
abbrev CChar : Type := {c : UInt8 // c ≠ 0}

/-- A C string: the bytes before its terminating NUL. -/
abbrev CString : Type := List CChar

/-- A character literal. (Total: a NUL literal, of which the program has none, gives `\x01`.) -/
def ch (c : Char) : CChar :=
  if h : UInt8.ofNat c.toNat ≠ 0 then ⟨UInt8.ofNat c.toNat, h⟩ else ⟨1, by decide⟩

/-- A string literal, character by character. -/
def text (s : List Char) : CString := s.map ch

theorem ch_val_toNat {c : Char} (hpos : c.toNat ≠ 0) (hlt : c.toNat < 256) :
    (ch c).val.toNat = c.toNat := by
  have hn : (UInt8.ofNat c.toNat).toNat = c.toNat := UInt8.toNat_ofNat_of_lt hlt
  have hne : UInt8.ofNat c.toNat ≠ 0 := fun h => hpos (by rw [← hn, h]; rfl)
  rw [ch, dif_pos hne]
  exact hn

namespace CString

/-- The bytes of a string, as `memcpy` moves them. -/
def bytes (s : CString) : List UInt8 := s.map Subtype.val

/-- The string at a buffer: its bytes up to the first NUL. -/
def ofBytes : List UInt8 → CString
  | [] => []
  | b :: bs => if h : b = 0 then [] else ⟨b, h⟩ :: ofBytes bs

@[simp] theorem length_bytes (s : CString) : s.bytes.length = s.length := List.length_map ..

theorem bytes_append (s t : CString) : (s ++ t : CString).bytes = s.bytes ++ t.bytes :=
  List.map_append

/-- A string copied through a buffer comes back. -/
@[simp] theorem ofBytes_bytes (s : CString) : ofBytes s.bytes = s := by
  induction s with
  | nil => rfl
  | cons c s ih =>
    change ofBytes (c.val :: bytes s) = c :: s
    rw [ofBytes, dif_neg c.property, ih]

/-- What stands after the terminator is not part of the string. -/
theorem ofBytes_bytes_append (s : CString) (rest : List UInt8) :
    ofBytes (s.bytes ++ 0 :: rest) = s := by
  induction s with
  | nil => rfl
  | cons c s ih =>
    change ofBytes (c.val :: (bytes s ++ 0 :: rest)) = c :: s
    rw [ofBytes, dif_neg c.property, ih]

/-- A buffer read as a string is cut at its first NUL. -/
theorem bytes_ofBytes (buf : List UInt8) : (ofBytes buf).bytes = buf.takeWhile (· ≠ 0) := by
  induction buf with
  | nil => rfl
  | cons b buf ih =>
    by_cases hb : b = 0
    · rw [ofBytes, dif_pos hb, List.takeWhile_cons_of_neg (by simp [hb])]
      rfl
    · rw [ofBytes, dif_neg hb, List.takeWhile_cons_of_pos (by simp [hb]), ← ih]
      rfl

theorem length_ofBytes_le (buf : List UInt8) : (ofBytes buf).length ≤ buf.length := by
  rw [← length_bytes, bytes_ofBytes]
  exact (List.takeWhile_sublist _).length_le

/-- A buffer is kept whole exactly when it has no NUL. -/
theorem bytes_ofBytes_eq_iff {buf : List UInt8} :
    (ofBytes buf).bytes = buf ↔ (0 : UInt8) ∉ buf := by
  rw [bytes_ofBytes, List.takeWhile_eq_self_iff]
  constructor
  · intro h hmem
    exact absurd (h 0 hmem) (by decide)
  · intro h b hb
    simpa using fun hzero : b = 0 => h (hzero ▸ hb)

end CString

/-- The path separator. -/
def slash : CChar := ch '/'

/-- The character that introduces a version. -/
def atSign : CChar := ch '@'

theorem atSign_ne_slash : atSign ≠ slash := by decide

/-! ## Decimal numerals -/

/-- `'0' <= c <= '9'`. -/
def isDigit (c : CChar) : Bool := 48 ≤ c.val && c.val ≤ 57

/-- `snprintf` of `%zu` or `%llu`. -/
def decimal (n : Nat) : CString := (Nat.toDigits 10 n).map ch

theorem slash_not_isDigit : isDigit slash = false := by decide

theorem atSign_not_isDigit : isDigit atSign = false := by decide

/-- What `Char.isDigit` says about a character's code. -/
theorem toNat_of_isDigit {c : Char} (h : c.isDigit = true) : 48 ≤ c.toNat ∧ c.toNat ≤ 57 := by
  simp only [Char.isDigit, Bool.and_eq_true, decide_eq_true_eq] at h
  exact ⟨h.1, h.2⟩

theorem decimal_ne_nil (n : Nat) : decimal n ≠ [] := by
  simp [decimal]

/-- A numeral is made of digits. -/
theorem isDigit_of_mem_decimal {n : Nat} {c : CChar} (h : c ∈ decimal n) : isDigit c = true := by
  obtain ⟨d, hd, rfl⟩ := List.mem_map.mp h
  obtain ⟨hlo, hhi⟩ := toNat_of_isDigit
    (Nat.isDigit_of_mem_toDigits (by decide) (by decide) hd)
  have hval : (ch d).val.toNat = d.toNat := ch_val_toNat (by omega) (by omega)
  simp only [isDigit, Bool.and_eq_true, decide_eq_true_eq, UInt8.le_iff_toNat_le, hval]
  exact ⟨hlo, hhi⟩

theorem slash_notMem_decimal (n : Nat) : slash ∉ decimal n := fun h => by
  have := isDigit_of_mem_decimal h
  rw [slash_not_isDigit] at this
  cases this

theorem atSign_notMem_decimal (n : Nat) : atSign ∉ decimal n := fun h => by
  have := isDigit_of_mem_decimal h
  rw [atSign_not_isDigit] at this
  cases this

/-- A numeral read back as characters. -/
theorem decimal_map_toChar (n : Nat) :
    (decimal n).map (fun c => Char.ofNat c.val.toNat) = Nat.toDigits 10 n := by
  rw [decimal, List.map_map]
  refine (List.map_congr_left fun d hd => ?_).trans (List.map_id _)
  obtain ⟨hlo, hhi⟩ := toNat_of_isDigit
    (Nat.isDigit_of_mem_toDigits (by decide) (by decide) hd)
  rw [Function.comp_apply, ch_val_toNat (by omega) (by omega), Char.ofNat_toNat]
  rfl

/-- Different numbers have different numerals. -/
theorem decimal_injective : Function.Injective decimal := by
  intro m n h
  have hdigits : Nat.toDigits 10 m = Nat.toDigits 10 n := by
    rw [← decimal_map_toChar, h, decimal_map_toChar]
  rw [← Nat.ofDigitChars_ten_toDigits (n := m), hdigits, Nat.ofDigitChars_ten_toDigits]

/-- A number below `10 ^ k` takes at most `k` digits. -/
theorem length_decimal_le {n k : Nat} (hk : 0 < k) (h : n < 10 ^ k) : (decimal n).length ≤ k := by
  rw [decimal, List.length_map]
  exact (Nat.length_toDigits_le_iff (by decide) hk).mpr h

end DsoBrowser

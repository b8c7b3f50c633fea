import Mathlib.Data.List.Basic
import Mathlib.Tactic.NormNum
import Mathlib.Tactic.Ring

/-!
# Fixed-width integers as bytes

`leBytes k n` are the `k` bytes of `n` in little-endian order, as a little-endian machine lays
an integer out in memory, and `beBytes k n` the same bytes in network order. Reading them back
gives `n` modulo `256 ^ k`.

A **reader** takes a value off the front of a byte list and returns it with the bytes that are
left. `readU64` reads a little-endian word, `readList` an array of values of one size.
-/

namespace ByteOrder

/-- The low `k` bytes of `n`, least significant first. -/
def leBytes : Nat → Nat → List UInt8
  | 0, _ => []
  | k + 1, n => UInt8.ofNat n :: leBytes k (n / 256)

/-- The number whose bytes, least significant first, are given. -/
def ofLeBytes : List UInt8 → Nat
  | [] => 0
  | b :: bs => b.toNat + 256 * ofLeBytes bs

/-- The low `k` bytes of `n`, most significant first. -/
def beBytes (k n : Nat) : List UInt8 := (leBytes k n).reverse

/-- The number whose bytes, most significant first, are given. -/
def ofBeBytes (bs : List UInt8) : Nat := ofLeBytes bs.reverse

@[simp] theorem length_leBytes (k n : Nat) : (leBytes k n).length = k := by
  induction k generalizing n with
  | zero => rfl
  | succ k ih => rw [leBytes, List.length_cons, ih]

@[simp] theorem length_beBytes (k n : Nat) : (beBytes k n).length = k := by
  rw [beBytes, List.length_reverse, length_leBytes]

theorem ofLeBytes_leBytes (k n : Nat) : ofLeBytes (leBytes k n) = n % 256 ^ k := by
  induction k generalizing n with
  | zero => rw [pow_zero, Nat.mod_one]; rfl
  | succ k ih =>
    rw [leBytes, ofLeBytes, ih, pow_succ', Nat.mod_mul]
    simp

theorem ofBeBytes_beBytes (k n : Nat) : ofBeBytes (beBytes k n) = n % 256 ^ k := by
  rw [ofBeBytes, beBytes, List.reverse_reverse, ofLeBytes_leBytes]

theorem leBytes_ofLeBytes (bs : List UInt8) : leBytes bs.length (ofLeBytes bs) = bs := by
  induction bs with
  | nil => rfl
  | cons b bs ih =>
    have hlow : UInt8.ofNat (b.toNat + 256 * ofLeBytes bs) = b := by
      apply UInt8.toNat_inj.mp
      rw [UInt8.toNat_ofNat']
      have := b.toNat_lt
      omega
    have hhigh : (b.toNat + 256 * ofLeBytes bs) / 256 = ofLeBytes bs := by
      have := b.toNat_lt
      omega
    rw [List.length_cons, ofLeBytes, leBytes, hlow, hhigh, ih]

/-- What was read is written the same. -/
theorem beBytes_ofBeBytes {bs : List UInt8} {k : Nat} (h : bs.length = k) :
    beBytes k (ofBeBytes bs) = bs := by
  have hrev := leBytes_ofLeBytes bs.reverse
  rw [List.length_reverse, h] at hrev
  rw [beBytes, ofBeBytes, hrev, List.reverse_reverse]

theorem ofBeBytes_lt {bs : List UInt8} {k : Nat} (h : bs.length = k) : ofBeBytes bs < 256 ^ k := by
  rw [← beBytes_ofBeBytes h, ofBeBytes_beBytes]
  exact Nat.mod_lt _ (Nat.pow_pos (by decide))

/-- A word that was read in network order is written the same. -/
theorem beBytes_toUInt64 {bs : List UInt8} (h : bs.length = 8) :
    beBytes 8 (UInt64.ofNat (ofBeBytes bs)).toNat = bs := by
  have hlt : ofBeBytes bs < UInt64.size := (ofBeBytes_lt h).trans_eq (by norm_num)
  rw [UInt64.toNat_ofNat_of_lt' hlt, beBytes_ofBeBytes h]

theorem beBytes_toUInt32 {bs : List UInt8} (h : bs.length = 4) :
    beBytes 4 (UInt32.ofNat (ofBeBytes bs)).toNat = bs := by
  have hlt : ofBeBytes bs < UInt32.size := (ofBeBytes_lt h).trans_eq (by norm_num)
  rw [UInt32.toNat_ofNat_of_lt' hlt, beBytes_ofBeBytes h]

/-! ## Readers -/

universe u

variable {α : Type u}

/-- A word as a little-endian machine stores it. -/
def u64Bytes (x : UInt64) : List UInt8 := leBytes 8 x.toNat

/-- Read such a word. -/
def readU64 (bs : List UInt8) : UInt64 × List UInt8 :=
  (UInt64.ofNat (ofLeBytes (bs.take 8)), bs.drop 8)

/-- Read an array of `n` values. -/
def readList (read : List UInt8 → α × List UInt8) : Nat → List UInt8 → List α × List UInt8
  | 0, bs => ([], bs)
  | n + 1, bs => ((read bs).1 :: (readList read n (read bs).2).1, (readList read n (read bs).2).2)

@[simp] theorem length_u64Bytes (x : UInt64) : (u64Bytes x).length = 8 := length_leBytes _ _

@[simp] theorem readU64_append (x : UInt64) (rest : List UInt8) :
    readU64 (u64Bytes x ++ rest) = (x, rest) := by
  have hx : x.toNat % 256 ^ 8 = x.toNat := Nat.mod_eq_of_lt (x.toNat_lt.trans_eq (by norm_num))
  have htake : (u64Bytes x ++ rest).take 8 = u64Bytes x := List.take_left' (length_u64Bytes x)
  have hdrop : (u64Bytes x ++ rest).drop 8 = rest := List.drop_left' (length_u64Bytes x)
  rw [readU64, htake, hdrop, u64Bytes, ofLeBytes_leBytes, hx, UInt64.ofNat_toNat]

@[simp] theorem length_readList (read : List UInt8 → α × List UInt8) (n : Nat) (bs : List UInt8) :
    (readList read n bs).1.length = n := by
  induction n generalizing bs with
  | zero => rfl
  | succ n ih => rw [readList, List.length_cons, ih]

/-- An array is read back as it was written. -/
theorem readList_flatMap {read : List UInt8 → α × List UInt8} {write : α → List UInt8}
    (h : ∀ a rest, read (write a ++ rest) = (a, rest)) (l : List α) (rest : List UInt8) :
    readList read l.length (l.flatMap write ++ rest) = (l, rest) := by
  induction l with
  | nil => rfl
  | cons a l ih =>
    rw [List.flatMap_cons, List.append_assoc, List.length_cons, readList, h, ih]

theorem length_flatMap_of_const {write : α → List UInt8} {k : Nat}
    (h : ∀ a, (write a).length = k) (l : List α) : (l.flatMap write).length = l.length * k := by
  induction l with
  | nil => simp
  | cons a l ih =>
    rw [List.flatMap_cons, List.length_append, ih, h, List.length_cons, Nat.succ_mul, Nat.add_comm]

end ByteOrder

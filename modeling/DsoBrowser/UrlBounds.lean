import DsoBrowser.HtmlUrl
import DsoBrowser.Lib.Bounded

/-!
# URL resolution and its buffers

`html_resolve_url` once more, with every read of the two strings and every write of the caller's
buffer through an accessor that notices when it is outside (`htmlResolveUrlChecked`). It reads only
inside the strings and does what `htmlResolveUrl` says (`htmlResolveUrlChecked_eq`).

It is to write inside the buffer a text with its terminator, and to return that text's length. All
branches cut what they copy to the buffer but the relative one, which copies first; and an empty
base makes that branch copy the base's terminator (`resolvesSafely_iff`).
-/

namespace DsoBrowser

open Bounded

/-- What `html_resolve_url` reads and writes. -/
inductive UrlBuffer
  /-- `base_name` -/
  | base
  /-- `rel_url` -/
  | rel
  /-- `out` -/
  | out
  deriving DecidableEq, Repr

/-- A step of the resolution. -/
abbrev UrlStep (α : Type) : Type := Except (Stop UrlBuffer) α

/-- The memory of a string, with its terminator. -/
def memory (s : CString) : List UInt8 := s.bytes ++ [0]

/-! ## The loops -/

/-- `strlen`, from a position on: where the terminator is. -/
def strlenChecked (buffer : UrlBuffer) (mem : List UInt8) : Nat → Nat → UrlStep Nat
  | 0, i => .ok i
  | fuel + 1, i => do
    let b ← readAt buffer mem i
    if b = 0 then return i else strlenChecked buffer mem fuel (i + 1)

/-- `strncasecmp` with a literal of `len` characters, from a position on. -/
def sameCaseChecked (mem : List UInt8) : Nat → CString → UrlStep Bool
  | _, [] => .ok true
  | i, c :: lit => do
    let b ← readAt .rel mem i
    if toLower b = toLower c.val then sameCaseChecked mem (i + 1) lit else return false

/-- `while (*path && *path != '/') path++;` -/
def skipHostChecked (mem : List UInt8) : Nat → Nat → UrlStep Nat
  | 0, i => .ok i
  | fuel + 1, i => do
    let b ← readAt .rel mem i
    if b = 0 ∨ b = slash.val then return i else skipHostChecked mem fuel (i + 1)

/-- The loop that looks for the last `/` of the base, of which `n` characters are left. -/
def lastSlashChecked (mem : List UInt8) : Nat → Nat → Nat → UrlStep Nat
  | 0, _, lastSlash => .ok lastSlash
  | n + 1, i, lastSlash => do
    let b ← readAt .base mem i
    lastSlashChecked mem n (i + 1) (if b = slash.val then i else lastSlash)

/-! ## The branches -/

/-- Copy from a position of the URL, cut to the buffer, and terminate. -/
def copyChecked (mem : List UInt8) (pos len : Nat) (out : List UInt8) :
    UrlStep (Nat × List UInt8) := do
  let len := if out.length ≤ len then out.length - 1 else len
  let bytes ← readRange .rel mem pos len
  let out ← writeRange .out out 0 bytes.val
  let out ← writeRange .out out len [0]
  return (len, out)

/-- The branches for a URL with a scheme. -/
def absoluteChecked (mem : List UInt8) (skip : Nat) (out : List UInt8) :
    UrlStep (Nat × List UInt8) := do
  let path ← skipHostChecked mem mem.length skip
  let stop ← strlenChecked .rel mem mem.length path
  copyChecked mem path (stop - path) out

/-- The branch for a relative URL and a base. -/
def relativeChecked (base rel : List UInt8) (rlen : Nat) (out : List UInt8) :
    UrlStep (Nat × List UInt8) := do
  let blen ← strlenChecked .base base base.length 0
  let lastSlash ← lastSlashChecked base blen 0 0
  let prefixLen := lastSlash + 1
  let total := prefixLen + rlen
  let total := if out.length ≤ total then out.length - 1 else total
  let front ← readRange .base base 0 prefixLen
  let out ← writeRange .out out 0 front.val
  let back ← readRange .rel rel 0 rlen
  let out ← writeRange .out out prefixLen back.val
  let out ← writeRange .out out total [0]
  return (total, out)

/-- `html_resolve_url`, checked: the length it returns and the buffer it leaves. -/
def htmlResolveUrlChecked (base : Option CString) (rel : CString) (out : List UInt8) :
    UrlStep (Nat × List UInt8) :=
  if out.length = 0 then .ok (0, out)
  else do
    let mem := memory rel
    let rlen ← strlenChecked .rel mem mem.length 0
    if ← (if http.length ≤ rlen then sameCaseChecked mem 0 http else .ok false) then
      absoluteChecked mem http.length out
    else if ← (if https.length ≤ rlen then sameCaseChecked mem 0 https else .ok false) then
      absoluteChecked mem https.length out
    else do
      let first ← readAt .rel mem 0
      if first = slash.val then copyChecked mem 0 rlen out
      else
        match base with
        | none => copyChecked mem 0 rlen out
        | some base => relativeChecked (memory base) mem rlen out

/-! ## What the loops do -/

@[simp] theorem length_memory (s : CString) : (memory s).length = s.length + 1 := by
  rw [memory, List.length_append, CString.length_bytes, List.length_singleton]

/-- The character at a position, and the terminator at the end. -/
theorem readAt_memory (buffer : UrlBuffer) (u : CString) (c : CChar) (v : CString) :
    readAt buffer (memory (u ++ c :: v)) u.length = .ok c.val := by
  have hget : (memory (u ++ c :: v))[u.length]? = some c.val := by
    rw [memory, CString.bytes_append, List.append_assoc, List.getElem?_append_right (by simp)]
    simp [CString.bytes]
  rw [readAt, hget]

theorem readAt_memory_end (buffer : UrlBuffer) (u : CString) :
    readAt buffer (memory u) u.length = .ok 0 := by
  have hget : (memory u)[u.length]? = some 0 := by
    rw [memory, List.getElem?_append_right (by simp)]
    simp
  rw [readAt, hget]

theorem strlenChecked_eq (buffer : UrlBuffer) (v : CString) : ∀ (u : CString) (fuel : Nat),
    v.length < fuel →
      strlenChecked buffer (memory (u ++ v)) fuel u.length = .ok (u ++ v).length := by
  induction v with
  | nil =>
    intro u fuel hfuel
    obtain ⟨n, rfl⟩ : ∃ n, fuel = n + 1 := ⟨fuel - 1, by simp at hfuel; omega⟩
    rw [List.append_nil, strlenChecked, readAt_memory_end]
    rfl
  | cons c v ih =>
    intro u fuel hfuel
    rw [List.length_cons] at hfuel
    obtain ⟨n, rfl⟩ : ∃ n, fuel = n + 1 := ⟨fuel - 1, by omega⟩
    have hnext := ih (u ++ [c]) n (by omega)
    rw [List.append_assoc, List.singleton_append, List.length_append, List.length_singleton]
      at hnext
    rw [strlenChecked, readAt_memory]
    simp only [bind, Except.bind]
    rw [if_neg c.property, hnext]

theorem sameCaseChecked_eq (lit : CString) : ∀ (u v : CString), lit.length ≤ v.length →
    sameCaseChecked (memory (u ++ v)) u.length lit = .ok (equalsCase (v.take lit.length) lit) := by
  induction lit with
  | nil => exact fun _ _ _ => rfl
  | cons c lit ih =>
    intro u v hlen
    cases v with
    | nil => simp at hlen
    | cons d v =>
      have hnext := ih (u ++ [d]) v (Nat.le_of_succ_le_succ hlen)
      rw [List.append_assoc, List.singleton_append, List.length_append, List.length_singleton]
        at hnext
      rw [sameCaseChecked, readAt_memory]
      simp only [bind, Except.bind]
      split
      · rename_i he
        rw [hnext]
        simp [equalsCase, CString.bytes, he]
      · rename_i hne
        simp [equalsCase, CString.bytes, hne]
        rfl

theorem skipHostChecked_eq (v : CString) : ∀ (u : CString) (fuel : Nat), v.length < fuel →
    skipHostChecked (memory (u ++ v)) fuel u.length =
      .ok (u.length + (v.takeWhile (· ≠ slash)).length) := by
  induction v with
  | nil =>
    intro u fuel hfuel
    obtain ⟨n, rfl⟩ : ∃ n, fuel = n + 1 := ⟨fuel - 1, by simp at hfuel; omega⟩
    rw [List.append_nil, skipHostChecked, readAt_memory_end]
    rfl
  | cons c v ih =>
    intro u fuel hfuel
    rw [List.length_cons] at hfuel
    obtain ⟨n, rfl⟩ : ∃ n, fuel = n + 1 := ⟨fuel - 1, by omega⟩
    have hnext := ih (u ++ [c]) n (by omega)
    rw [List.append_assoc, List.singleton_append, List.length_append, List.length_singleton]
      at hnext
    rw [skipHostChecked, readAt_memory]
    simp only [bind, Except.bind]
    by_cases hc : c = slash
    · rw [if_pos (Or.inr (congrArg Subtype.val hc)), List.takeWhile_cons_of_neg (by simp [hc])]
      rfl
    · rw [if_neg (by rw [not_or]; exact ⟨c.property, fun he => hc (Subtype.ext he)⟩), hnext,
        List.takeWhile_cons_of_pos (by simp [hc]), List.length_cons]
      exact congrArg Except.ok (by omega)

theorem lastSlashChecked_eq (v : CString) : ∀ (u : CString) (last : Nat),
    lastSlashChecked (memory (u ++ v)) v.length u.length last =
      .ok (lastSlashLoop u.length last v) := by
  induction v with
  | nil => exact fun _ _ => rfl
  | cons c v ih =>
    intro u last
    have hnext := ih (u ++ [c]) (if c = slash then u.length else last)
    rw [List.append_assoc, List.singleton_append, List.length_append, List.length_singleton]
      at hnext
    rw [List.length_cons, lastSlashChecked, readAt_memory, lastSlashLoop, ← hnext]
    simp only [bind, Except.bind, Subtype.ext_iff]

/-! ## What the branches do -/

theorem readRange_memory (buffer : UrlBuffer) (u v : CString) {k : Nat} (hk : k ≤ v.length) :
    ∃ ys, readRange buffer (memory (u ++ v)) u.length k = .ok ys ∧
      ys.val = CString.bytes (v.take k) := by
  have hlen : u.length + k ≤ (memory (u ++ v)).length := by simp; omega
  refine ⟨_, by rw [readRange, dif_pos hlen], ?_⟩
  have hdrop : (memory (u ++ v)).drop u.length = memory v := by
    rw [memory, memory, CString.bytes_append, List.append_assoc]
    exact List.drop_left' (CString.length_bytes u)
  change ((memory (u ++ v)).drop u.length).take k = _
  rw [hdrop, memory, List.take_append_of_le_length (by simpa using hk)]
  exact List.map_take.symm

/-- A write behind what is there already. -/
theorem writeRange_append (buffer : UrlBuffer) (front rest ys : List UInt8) :
    writeRange buffer (front ++ rest) front.length ys =
      if ys.length ≤ rest.length then .ok (front ++ ys ++ rest.drop ys.length)
      else .error (.outside buffer) := by
  rw [writeRange, List.length_append]
  by_cases h : ys.length ≤ rest.length
  · rw [if_pos h, if_pos (by omega), List.take_left, List.drop_append, List.drop_of_length_le
      (by omega), Nat.add_sub_cancel_left, List.nil_append]
  · rw [if_neg h, if_neg (by omega)]

/-- A write at the start. -/
theorem writeRange_zero (buffer : UrlBuffer) (out ys : List UInt8) :
    writeRange buffer out 0 ys =
      if ys.length ≤ out.length then .ok (ys ++ out.drop ys.length)
      else .error (.outside buffer) := by
  have happend := writeRange_append buffer [] out ys
  rwa [List.nil_append, List.nil_append, List.length_nil] at happend

theorem copyChecked_eq (u v : CString) {out : List UInt8} (hout : 0 < out.length) :
    copyChecked (memory (u ++ v)) u.length v.length out =
      .ok ((copied v out.length).1,
        (copied v out.length).2 ++ out.drop (copied v out.length).2.length) := by
  have hlen : (if out.length ≤ v.length then out.length - 1 else v.length) =
      (v.take (out.length - 1)).length := by
    rw [List.length_take]
    split <;> omega
  have hcut : v.take (v.take (out.length - 1)).length = v.take (out.length - 1) := by
    rw [List.length_take, ← List.take_eq_take_min]
  have hfit : (v.take (out.length - 1)).length < out.length := by
    rw [List.length_take]
    omega
  obtain ⟨⟨bs, hbs⟩, hread, hval⟩ :=
    readRange_memory .rel u v (List.length_take_le' (out.length - 1) v)
  rw [hcut] at hval
  obtain rfl : bs = CString.bytes (v.take (out.length - 1)) := hval
  have hfirst := writeRange_zero .out out (CString.bytes (v.take (out.length - 1)))
  rw [CString.length_bytes, if_pos hfit.le] at hfirst
  have hlast := writeRange_append .out (CString.bytes (v.take (out.length - 1)))
    (out.drop (v.take (out.length - 1)).length) [0]
  rw [CString.length_bytes, if_pos (by rw [List.length_drop, List.length_singleton]; omega),
    List.drop_drop] at hlast
  rw [copyChecked, hlen]
  simp only [bind, Except.bind, hread, hfirst, hlast, copied]
  simp [pure, Except.pure]

/-- The path behind the host is copied. -/
theorem absoluteChecked_eq (u v : CString) {out : List UInt8} (hout : 0 < out.length) :
    absoluteChecked (memory (u ++ v)) u.length out =
      .ok ((copied (v.dropWhile (· ≠ slash)) out.length).1,
        (copied (v.dropWhile (· ≠ slash)) out.length).2 ++
          out.drop (copied (v.dropWhile (· ≠ slash)) out.length).2.length) := by
  have hfuel : v.length < (memory (u ++ v)).length := by
    rw [length_memory, List.length_append]
    omega
  have hskip := skipHostChecked_eq v u _ hfuel
  have hsplit : u ++ v = (u ++ v.takeWhile (· ≠ slash)) ++ v.dropWhile (· ≠ slash) := by
    rw [List.append_assoc, List.takeWhile_append_dropWhile]
  rw [absoluteChecked, hskip]
  simp only [bind, Except.bind]
  rw [← List.length_append]
  generalize hw : v.takeWhile (· ≠ slash) = w at hsplit ⊢
  generalize hx : v.dropWhile (· ≠ slash) = x at hsplit ⊢
  have hfuel' : x.length < (memory (u ++ w ++ x)).length := by
    rw [length_memory, List.length_append]
    omega
  rw [hsplit, strlenChecked_eq .rel x (u ++ w) _ hfuel']
  simp only
  rw [@List.length_append _ (u ++ w), Nat.add_sub_cancel_left, copyChecked_eq _ _ hout]

theorem lastSlashLoop_lt (v : CString) : ∀ i last, last < i + v.length →
    lastSlashLoop i last v < i + v.length := by
  induction v with
  | nil => exact fun _ _ h => h
  | cons c v ih =>
    intro i last h
    rw [List.length_cons] at h ⊢
    rw [lastSlashLoop, ← Nat.add_assoc, Nat.add_right_comm]
    refine ih _ _ ?_
    split <;> omega

/-- The prefix that is copied is one of the base, but for an empty base. -/
theorem lastSlash_lt {base : CString} (h : base ≠ []) : lastSlash base < base.length := by
  have hlt := lastSlashLoop_lt base 0 0 (by rw [Nat.zero_add]; exact List.length_pos_of_ne_nil h)
  rwa [Nat.zero_add] at hlt

theorem lastSlash_lt_memory (base : CString) : lastSlash base < (memory base).length := by
  rw [length_memory]
  rcases eq_or_ne base [] with rfl | hne
  · exact Nat.one_pos
  · exact Nat.lt_succ_of_lt (lastSlash_lt hne)

/-- What the relative branch puts into the buffer, without the terminator. -/
def relativeBytes (base rel : CString) : List UInt8 :=
  (memory base).take (lastSlash base + 1) ++ rel.bytes

theorem length_relativeBytes (base rel : CString) :
    (relativeBytes base rel).length = lastSlash base + 1 + rel.length := by
  rw [relativeBytes, List.length_append, List.length_take, CString.length_bytes,
    Nat.min_eq_left (lastSlash_lt_memory base)]

theorem readRange_zero (buffer : UrlBuffer) (mem : List UInt8) {k : Nat} (hk : k ≤ mem.length) :
    ∃ ys, readRange buffer mem 0 k = .ok ys ∧ ys.val = mem.take k := by
  refine ⟨_, by rw [readRange, dif_pos (by omega)], ?_⟩
  change (mem.drop 0).take k = _
  rw [List.drop_zero]

/-- The terminator is written behind what was copied, or over its last byte. -/
theorem writeRange_terminator {bytes out : List UInt8} (hfit : bytes.length ≤ out.length)
    (hout : 0 < out.length) :
    writeRange UrlBuffer.out (bytes ++ out.drop bytes.length)
        (min bytes.length (out.length - 1)) [0] =
      .ok (bytes.take (out.length - 1) ++ [0] ++
        out.drop (min bytes.length (out.length - 1) + 1)) := by
  have hlen : (bytes.take (out.length - 1)).length = min bytes.length (out.length - 1) := by
    rw [List.length_take, Nat.min_comm]
  have hrest : (bytes.drop (out.length - 1) ++ out.drop bytes.length).drop 1 =
      out.drop (min bytes.length (out.length - 1) + 1) := by
    rcases Nat.lt_or_ge bytes.length out.length with hlt | hge
    · have hnil : bytes.drop (out.length - 1) = [] := List.drop_of_length_le (by omega)
      rw [hnil, List.nil_append, List.drop_drop, Nat.min_eq_left (by omega)]
    · have hnil : out.drop bytes.length = [] := List.drop_of_length_le hge
      have hnil' : out.drop (min bytes.length (out.length - 1) + 1) = [] :=
        List.drop_of_length_le (by omega)
      rw [hnil, hnil', List.append_nil, List.drop_drop]
      exact List.drop_of_length_le (by omega)
  have hsplit : bytes ++ out.drop bytes.length = bytes.take (out.length - 1) ++
      (bytes.drop (out.length - 1) ++ out.drop bytes.length) := by
    rw [← List.append_assoc, List.take_append_drop]
  rw [hsplit, ← hlen, writeRange_append, if_pos, List.length_singleton, hrest, hlen]
  simp
  omega

/-- The relative branch copies both parts, which may be too much, and then terminates. -/
theorem relativeChecked_eq (base rel : CString) {out : List UInt8} (hout : 0 < out.length) :
    relativeChecked (memory base) (memory rel) rel.length out =
      if (relativeBytes base rel).length ≤ out.length then
        .ok (min (relativeBytes base rel).length (out.length - 1),
          (relativeBytes base rel).take (out.length - 1) ++ [0] ++
            out.drop (min (relativeBytes base rel).length (out.length - 1) + 1))
      else .error (.outside .out) := by
  have hstrlen := strlenChecked_eq .base base [] (memory base).length (by simp)
  have hlast := lastSlashChecked_eq base [] 0
  rw [List.nil_append, List.length_nil] at hstrlen hlast
  obtain ⟨⟨front, hfront⟩, hreadFront, hval⟩ :=
    readRange_zero .base (memory base) (Nat.succ_le_of_lt (lastSlash_lt_memory base))
  obtain rfl : front = (memory base).take (lastSlash base + 1) := hval
  obtain ⟨⟨back, hback⟩, hreadBack, hval⟩ := readRange_memory .rel [] rel le_rfl
  rw [List.take_length] at hval
  obtain rfl : back = rel.bytes := hval
  rw [List.nil_append, List.length_nil] at hreadBack
  have htotal : (if out.length ≤ lastSlash base + 1 + rel.length then out.length - 1
      else lastSlash base + 1 + rel.length) =
        min (relativeBytes base rel).length (out.length - 1) := by
    rw [length_relativeBytes]
    split <;> omega
  rw [relativeChecked, hstrlen]
  simp only [bind, Except.bind]
  rw [hlast]
  simp only
  rw [← lastSlash, hreadFront]
  simp only
  rw [htotal, writeRange_zero]
  have hwrite := writeRange_append .out ((memory base).take (lastSlash base + 1))
    (out.drop (lastSlash base + 1)) rel.bytes
  rw [List.drop_drop, hfront, CString.length_bytes, List.length_drop] at hwrite
  rw [hfront]
  have hlen := length_relativeBytes base rel
  by_cases hprefix : lastSlash base + 1 ≤ out.length
  · rw [if_pos hprefix]
    simp only
    rw [hreadBack]
    simp only
    rw [hwrite]
    by_cases hfit : (relativeBytes base rel).length ≤ out.length
    · rw [if_pos hfit, if_pos (by omega)]
      simp only
      rw [← relativeBytes, ← hlen, writeRange_terminator hfit hout]
      rfl
    · rw [if_neg hfit, if_neg (by omega)]
  · rw [if_neg hprefix, if_neg (by omega)]

/-! ## The checked function -/

/-- What a resolution writes, in the caller's buffer. -/
def intoBuffer (out : List UInt8) : Except HtmlFault (Nat × List UInt8) →
    UrlStep (Nat × List UInt8)
  | .ok (len, bytes) => .ok (len, bytes ++ out.drop bytes.length)
  | .error _ => .error (.outside .out)

/-- The URL has no scheme and does not start at the root. -/
structure IsRelative (rel : CString) : Prop where
  noHttp : hasScheme http rel = false
  noHttps : hasScheme https rel = false
  noSlash : rel.head? ≠ some slash

instance (rel : CString) : Decidable (IsRelative rel) :=
  decidable_of_iff (hasScheme http rel = false ∧ hasScheme https rel = false ∧
    rel.head? ≠ some slash) ⟨fun h => ⟨h.1, h.2.1, h.2.2⟩, fun h => ⟨h.1, h.2, h.3⟩⟩

/-- The comparison with a scheme, which is made only if the URL is long enough. -/
theorem schemeChecked_eq (scheme rel : CString) :
    (if scheme.length ≤ rel.length then sameCaseChecked (memory rel) 0 scheme else .ok false) =
      .ok (hasScheme scheme rel) := by
  by_cases hlen : scheme.length ≤ rel.length
  · rw [if_pos hlen]
    exact sameCaseChecked_eq scheme [] rel hlen
  · rw [if_neg hlen, hasScheme, equalsCase, decide_eq_false]
    intro he
    have hmap := congrArg List.length he
    rw [List.length_map, List.length_map, CString.length_bytes, CString.length_bytes,
      List.length_take] at hmap
    omega

/-- With a scheme, the URL is the scheme and the rest. -/
theorem absoluteChecked_drop {scheme rel : CString} (h : hasScheme scheme rel = true)
    {out : List UInt8} (hout : 0 < out.length) :
    absoluteChecked (memory rel) scheme.length out =
      intoBuffer out
        (.ok (copied ((rel.drop scheme.length).dropWhile (· ≠ slash)) out.length)) := by
  have hlen : (rel.take scheme.length).length = scheme.length := by
    rw [hasScheme, equalsCase, decide_eq_true_eq] at h
    have hmap := congrArg List.length h
    rwa [List.length_map, List.length_map, CString.length_bytes, CString.length_bytes] at hmap
  have habsolute := absoluteChecked_eq (rel.take scheme.length) (rel.drop scheme.length) hout
  rwa [List.take_append_drop, hlen] at habsolute

/-- The branches of the checked function. -/
theorem htmlResolveUrlChecked_branches (base : Option CString) (rel : CString) {out : List UInt8}
    (hout : 0 < out.length) :
    htmlResolveUrlChecked base rel out =
      if hasScheme http rel = true then
        intoBuffer out (.ok (copied ((rel.drop http.length).dropWhile (· ≠ slash)) out.length))
      else if hasScheme https rel = true then
        intoBuffer out (.ok (copied ((rel.drop https.length).dropWhile (· ≠ slash)) out.length))
      else if rel.head? = some slash then intoBuffer out (.ok (copied rel out.length))
      else
        match base with
        | none => intoBuffer out (.ok (copied rel out.length))
        | some base => relativeChecked (memory base) (memory rel) rel.length out := by
  have hstrlen := strlenChecked_eq .rel rel [] (memory rel).length (by simp)
  rw [List.nil_append, List.length_nil] at hstrlen
  have hwhole : copyChecked (memory rel) 0 rel.length out =
      intoBuffer out (.ok (copied rel out.length)) := copyChecked_eq [] rel hout
  have hfirst : readAt UrlBuffer.rel (memory rel) 0 =
      .ok ((rel.head?.map Subtype.val).getD 0) := by
    cases rel with
    | nil => exact readAt_memory_end .rel []
    | cons c rel => exact readAt_memory .rel [] c rel
  have hslash : (rel.head?.map Subtype.val).getD 0 = slash.val ↔ rel.head? = some slash := by
    cases rel with
    | nil => decide
    | cons c rel => simp [Subtype.ext_iff]
  rw [htmlResolveUrlChecked, if_neg hout.ne']
  simp only [bind, Except.bind, hstrlen, schemeChecked_eq, hfirst, hslash, hwhole]
  by_cases hhttp : hasScheme http rel = true
  · rw [if_pos hhttp, if_pos hhttp, absoluteChecked_drop hhttp hout]
  rw [if_neg hhttp, if_neg hhttp]
  by_cases hhttps : hasScheme https rel = true
  · rw [if_pos hhttps, if_pos hhttps, absoluteChecked_drop hhttps hout]
  rw [if_neg hhttps, if_neg hhttps]

/-- What the relative branch does is what was said. -/
theorem relativeChecked_intoBuffer (base rel : CString) {out : List UInt8} (hout : 0 < out.length)
    (hrel : IsRelative rel) : relativeChecked (memory base) (memory rel) rel.length out =
      intoBuffer out (htmlResolveUrl (some base) rel out.length) := by
  rw [relativeChecked_eq base rel hout, length_relativeBytes, htmlResolveUrl.eq_def,
    if_neg hout.ne', if_neg (Bool.eq_false_iff.mp hrel.noHttp),
    if_neg (Bool.eq_false_iff.mp hrel.noHttps), if_neg hrel.noSlash]
  simp only
  split
  · have hcut : (relativeBytes base rel).take (out.length - 1) = (relativeBytes base rel).take
        (min (lastSlash base + 1 + rel.length) (out.length - 1)) := by
      rw [← length_relativeBytes, Nat.min_comm, ← List.take_eq_take_min]
    have hlen : ((relativeBytes base rel).take
        (min (lastSlash base + 1 + rel.length) (out.length - 1)) ++ [0]).length =
          min (lastSlash base + 1 + rel.length) (out.length - 1) + 1 := by
      rw [List.length_append, List.length_take, length_relativeBytes, List.length_singleton]
      omega
    rw [hcut, ← hlen]
    rfl
  · rfl

/-- **The checked function** does what the other says, and never reads outside a string. -/
theorem htmlResolveUrlChecked_eq (base : Option CString) (rel : CString) {out : List UInt8}
    (hout : 0 < out.length) :
    htmlResolveUrlChecked base rel out = intoBuffer out (htmlResolveUrl base rel out.length) := by
  rw [htmlResolveUrlChecked_branches base rel hout]
  by_cases hhttp : hasScheme http rel = true
  · rw [if_pos hhttp, htmlResolveUrl.eq_def, if_neg hout.ne', if_pos hhttp]
  by_cases hhttps : hasScheme https rel = true
  · rw [if_neg hhttp, if_pos hhttps, htmlResolveUrl.eq_def, if_neg hout.ne', if_neg hhttp,
      if_pos hhttps]
  by_cases hroot : rel.head? = some slash
  · rw [if_neg hhttp, if_neg hhttps, if_pos hroot, htmlResolveUrl.eq_def, if_neg hout.ne',
      if_neg hhttp, if_neg hhttps, if_pos hroot]
  rw [if_neg hhttp, if_neg hhttps, if_neg hroot]
  cases base with
  | none =>
    rw [htmlResolveUrl.eq_def, if_neg hout.ne', if_neg hhttp, if_neg hhttps, if_neg hroot]
  | some base =>
    exact relativeChecked_intoBuffer base rel hout
      ⟨Bool.eq_false_iff.mpr hhttp, Bool.eq_false_iff.mpr hhttps, hroot⟩

/-! ## What is to hold -/

/-- The call stays inside the strings and the buffer, leaves a terminated text there and returns its
length. -/
def ResolvesSafely (base : Option CString) (rel : CString) (out : List UInt8) : Prop :=
  ∃ (s : CString) (rest : List UInt8),
    htmlResolveUrlChecked base rel out = .ok (s.length, s.bytes ++ 0 :: rest) ∧
      (s.bytes ++ 0 :: rest).length = out.length

/-- In the relative branch, the directory of the base and the URL fit the buffer, the terminator
not counted, and the base is not empty, or nothing is. -/
def RoomForUrl (base : Option CString) (rel : CString) (outLen : Nat) : Prop :=
  ∀ b, base = some b → IsRelative rel →
    (b ≠ [] ∧ lastSlash b + 1 + rel.length ≤ outLen) ∨ (b = [] ∧ rel = [] ∧ outLen = 1)

/-- A text with its terminator, put into the buffer, is safe. -/
theorem resolvesSafely_of_text {base : Option CString} {rel s : CString} {out : List UInt8}
    (h : htmlResolveUrlChecked base rel out =
      .ok (s.length, s.bytes ++ [0] ++ out.drop (s.length + 1)))
    (hfit : s.length < out.length) : ResolvesSafely base rel out := by
  refine ⟨s, out.drop (s.length + 1), ?_, ?_⟩
  · rw [h, List.append_assoc, List.singleton_append]
  · rw [List.length_append, List.length_cons, List.length_drop, CString.length_bytes]
    omega

/-- A string cut to the buffer is safe. -/
theorem resolvesSafely_of_copied {base : Option CString} {rel s : CString} {out : List UInt8}
    (hout : 0 < out.length)
    (h : htmlResolveUrlChecked base rel out = intoBuffer out (.ok (copied s out.length))) :
    ResolvesSafely base rel out := by
  refine @resolvesSafely_of_text _ _ (s.take (out.length - 1)) _ ?_ ?_
  · rw [h, copied, intoBuffer]
    simp
  · rw [List.length_take]
    omega

/-- What a base that is not empty gives is text. -/
theorem relativeBytes_eq {base : CString} (h : base ≠ []) (rel : CString) :
    relativeBytes base rel = CString.bytes (base.take (lastSlash base + 1) ++ rel) := by
  rw [relativeBytes, CString.bytes_append, memory,
    List.take_append_of_le_length (by rw [CString.length_bytes]; exact lastSlash_lt h)]
  exact congrArg (· ++ rel.bytes) List.map_take.symm

/-- The relative branch is safe exactly if there is room. -/
theorem resolvesSafely_relative_iff {base rel : CString} {out : List UInt8} (hout : 0 < out.length)
    (hchecked : htmlResolveUrlChecked (some base) rel out =
      relativeChecked (memory base) (memory rel) rel.length out) :
    ResolvesSafely (some base) rel out ↔
      (base ≠ [] ∧ lastSlash base + 1 + rel.length ≤ out.length) ∨
        (base = [] ∧ rel = [] ∧ out.length = 1) := by
  rw [relativeChecked_eq base rel hout] at hchecked
  have hlen := length_relativeBytes base rel
  by_cases hfit : (relativeBytes base rel).length ≤ out.length
  · rw [if_pos hfit] at hchecked
    rcases eq_or_ne base [] with rfl | hne
    · -- the terminator of the base comes first
      have hbytes : relativeBytes [] rel = 0 :: rel.bytes := rfl
      rw [hbytes, List.length_cons, CString.length_bytes] at hchecked hfit
      refine ⟨?_, ?_⟩
      · rintro ⟨s, rest, h, -⟩
        rw [hchecked] at h
        obtain ⟨hlength, hbuf⟩ := Prod.mk.inj (Except.ok.inj h)
        rcases Nat.lt_or_ge out.length 2 with hone | htwo
        · exact Or.inr ⟨rfl, List.eq_nil_of_length_eq_zero (by omega), by omega⟩
        · exfalso
          obtain ⟨k, hk⟩ : ∃ k, out.length - 1 = k + 1 := ⟨out.length - 2, by omega⟩
          rw [hk, List.take_succ_cons] at hbuf
          cases s with
          | nil =>
            rw [List.length_nil] at hlength
            omega
          | cons c s => exact c.property (List.cons.inj hbuf).1.symm
      · rintro (⟨hne, -⟩ | ⟨-, rfl, hone⟩)
        · exact absurd rfl hne
        · refine @resolvesSafely_of_text _ _ [] _ ?_ hout
          rw [hchecked, hone]
          rfl
    · refine iff_of_true ?_ (Or.inl ⟨hne, by omega⟩)
      have hbytes := relativeBytes_eq hne rel
      generalize base.take (lastSlash base + 1) ++ rel = s at hbytes
      rw [hbytes, CString.length_bytes] at hchecked hfit
      refine @resolvesSafely_of_text _ _ (s.take (out.length - 1)) _ ?_ ?_
      · rw [hchecked, List.length_take, Nat.min_comm, CString.bytes, ← List.map_take]
        rfl
      · rw [List.length_take]
        omega
  · rw [if_neg hfit] at hchecked
    refine iff_of_false ?_ ?_
    · rintro ⟨s, rest, h, -⟩
      rw [hchecked] at h
      cases h
    · rintro (⟨-, h⟩ | ⟨rfl, rfl, h⟩)
      · omega
      · exact hfit (by rw [h]; decide)

/-- **URL resolution** is safe exactly if there is room. -/
theorem resolvesSafely_iff (base : Option CString) (rel : CString) {out : List UInt8}
    (hout : 0 < out.length) :
    ResolvesSafely base rel out ↔ RoomForUrl base rel out.length := by
  have hbranches := htmlResolveUrlChecked_branches base rel hout
  by_cases hhttp : hasScheme http rel = true
  · rw [if_pos hhttp] at hbranches
    refine iff_of_true (resolvesSafely_of_copied hout hbranches) fun b _ hrel => ?_
    rw [hrel.noHttp] at hhttp
    cases hhttp
  rw [if_neg hhttp] at hbranches
  by_cases hhttps : hasScheme https rel = true
  · rw [if_pos hhttps] at hbranches
    refine iff_of_true (resolvesSafely_of_copied hout hbranches) fun b _ hrel => ?_
    rw [hrel.noHttps] at hhttps
    cases hhttps
  rw [if_neg hhttps] at hbranches
  by_cases hroot : rel.head? = some slash
  · rw [if_pos hroot] at hbranches
    exact iff_of_true (resolvesSafely_of_copied hout hbranches) fun b _ hrel =>
      absurd hroot hrel.noSlash
  rw [if_neg hroot] at hbranches
  cases base with
  | none => exact iff_of_true (resolvesSafely_of_copied hout hbranches) fun b hb => by cases hb
  | some base =>
    rw [resolvesSafely_relative_iff hout hbranches]
    refine ⟨fun h b hb _ => ?_, fun h => h base rfl
      ⟨Bool.eq_false_iff.mpr hhttp, Bool.eq_false_iff.mpr hhttps, hroot⟩⟩
    obtain rfl := Option.some.inj hb
    exact h

/-- `x` in a directory `/site/`, and a buffer of 16 bytes. -/
theorem resolvesSafely_iff_site :
    0 < (List.replicate 16 (0 : UInt8)).length ∧
      (ResolvesSafely (some (text ['/', 's', 'i', 't', 'e', '/'])) (text ['x'])
          (List.replicate 16 0) ↔
        RoomForUrl (some (text ['/', 's', 'i', 't', 'e', '/'])) (text ['x'])
          (List.replicate 16 (0 : UInt8)).length) :=
  ⟨by decide, resolvesSafely_iff _ _ (by decide)⟩

/-- Ten characters of a directory and five of a URL run over a buffer of eight bytes. -/
theorem not_resolvesSafely_long :
    0 < (List.replicate 8 (0 : UInt8)).length ∧
      htmlResolveUrlChecked (some (List.replicate 9 (ch 'b') ++ [slash]))
        (List.replicate 5 (ch 'x')) (List.replicate 8 0) = .error (.outside .out) ∧
      ¬ ResolvesSafely (some (List.replicate 9 (ch 'b') ++ [slash])) (List.replicate 5 (ch 'x'))
        (List.replicate 8 0) := by
  have hout : htmlResolveUrlChecked (some (List.replicate 9 (ch 'b') ++ [slash]))
      (List.replicate 5 (ch 'x')) (List.replicate 8 0) = .error (.outside .out) := by
    decide
  refine ⟨by decide, hout, ?_⟩
  rintro ⟨s, rest, h, -⟩
  rw [hout] at h
  cases h

end DsoBrowser

import DsoBrowser.HtmlParse

/-!
# What the parser reads of a page

`html_parse` and its helpers once more, by positions, with every read of the page through an
accessor that fails outside it (`htmlParseChecked`). All loops look at the length first and stay
inside; so do the copies. What is left are the comparisons, and there the two agree
(`scanStepAt_eq`). The title lies in the page (`InPage.scanLoopAt`).
-/

namespace DsoBrowser

/-- A byte of the page. -/
def byteAt (html : List UInt8) (i : Nat) : Except HtmlFault UInt8 :=
  match html[i]? with
  | some b => .ok b
  | none => .error .htmlRead

/-- What `memcpy` takes from the page. -/
def bytesAt (html : List UInt8) (i len : Nat) : Except HtmlFault (List UInt8) :=
  if i + len ≤ html.length then .ok ((html.drop i).take len) else .error .htmlRead

/-! ## The loops -/

/-- `while (i < end && p(s[i])) i++;`, with `n` positions left before the end. -/
def skipWhile (html : List UInt8) (p : UInt8 → Bool) : Nat → Nat → Except HtmlFault Nat
  | 0, i => .ok i
  | n + 1, i => do
    let b ← byteAt html i
    if p b then skipWhile html p n (i + 1) else return i

/-- `strncasecmp(s + i, lit, strlen(lit)) == 0` -/
def startsAt (html : List UInt8) : Nat → CString → Except HtmlFault Bool
  | _, [] => .ok true
  | i, c :: lit => do
    let b ← byteAt html i
    if toLower b = toLower c.val then startsAt html (i + 1) lit else return false

/-- `skip_to_case` -/
def skipToCaseAt (html : List UInt8) (len : Nat) (stop : CString) :
    Nat → Nat → Except HtmlFault Nat
  | 0, _ => .ok len
  | n + 1, i => do
    if i + stop.length ≤ len then
      if ← startsAt html i stop then return i else skipToCaseAt html len stop n (i + 1)
    else return len

/-- The value behind the `=` of an attribute, at most `max` bytes of it. -/
def valueAt (html : List UInt8) (tagEnd max i : Nat) : Except HtmlFault (List UInt8) := do
  let i ← skipWhile html isSpace (tagEnd - i) i
  if tagEnd ≤ i then return []
  else
    let quote ← byteAt html i
    if quote = (ch '"').val || quote = (ch '\'').val then
      let j ← skipWhile html (· ≠ quote) (tagEnd - (i + 1)) (i + 1)
      bytesAt html (i + 1) (min (j - (i + 1)) max)
    else
      let j ← skipWhile html (fun b => !endsWord b) (tagEnd - i) i
      bytesAt html i (min (j - i) max)

/-- The loop of `extract_attr`. -/
def extractAttrAt (html : List UInt8) (tagEnd : Nat) (attrName : CString) (outLen : Nat) :
    Nat → Nat → Except HtmlFault (List UInt8)
  | 0, _ => .ok []
  | fuel + 1, i => do
    let i ← skipWhile html isSpace (tagEnd - i) i
    if tagEnd ≤ i then return []
    else if ← startsAt html i attrName then
      if tagEnd ≤ i + attrName.length then return []
      else
        let i ← skipWhile html isSpace (tagEnd - (i + attrName.length)) (i + attrName.length)
        if tagEnd ≤ i then extractAttrAt html tagEnd attrName outLen fuel i
        else
          let b ← byteAt html i
          if b = (ch '=').val then valueAt html tagEnd (outLen - 1) (i + 1)
          else extractAttrAt html tagEnd attrName outLen fuel i
    else
      let i ← skipWhile html (fun b => !isSpace b) (tagEnd - i) i
      extractAttrAt html tagEnd attrName outLen fuel i

/-- `if (i < tag_len && tag[i] == c) i++;` -/
def skipByteAt (html : List UInt8) (tagEnd : Nat) (c : CChar) (i : Nat) : Except HtmlFault Nat :=
  if i < tagEnd then do
    let b ← byteAt html i
    return if b = c.val then i + 1 else i
  else .ok i

/-- `extract_tag_name` -/
def extractTagNameAt (html : List UInt8) (tag tagEnd : Nat) : Except HtmlFault CString := do
  let i ← skipByteAt html tagEnd (ch '<') tag
  let i ← skipByteAt html tagEnd slash i
  let j ← skipWhile html (fun b => !endsWord b) (tagEnd - i) i
  let name ← bytesAt html i (min (j - i) (htmlMaxTagLen - 1))
  return CString.ofBytes name

/-- `is_self_closing` -/
def isSelfClosingAt (html : List UInt8) (tag tagEnd : Nat) : Except HtmlFault Bool :=
  if tagEnd - tag = 0 then .ok false
  else do
    let b ← byteAt html (tagEnd - 1)
    return b = slash.val

/-! ## The parser -/

/-- The branches of `html_parse` on the name of the tag. -/
def readTagAt (html : List UInt8) (htmlLen : Nat) (base : Option CString) (i tagEnd : Nat)
    (tagName : CString) (s : HtmlScan) : Except HtmlFault HtmlScan := do
  let selfClosing ← isSelfClosingAt html i tagEnd
  let is name := equalsCase tagName (text name)
  let attr name outLen :=
    (extractAttrAt html tagEnd (text name) outLen (tagEnd - i + 1) i).map CString.ofBytes
  if is ['t', 'i', 't', 'l', 'e'] && !selfClosing then
    let titleEnd ← skipToCaseAt html htmlLen (text ['<', '/', 't', 'i', 't', 'l'])
      (htmlLen + 1) (tagEnd + 1)
    return { s with result := { s.result with
      title := some (tagEnd + 1), titleLen := titleEnd - (tagEnd + 1) } }
  else if is ['b', 'a', 's', 'e'] then
    let href ← attr ['h', 'r', 'e', 'f'] htmlMaxAttrLen
    return { s with result := ← s.result.setBase href }
  else if is ['l', 'i', 'n', 'k'] then
    let rel ← attr ['r', 'e', 'l'] 64
    let href ← attr ['h', 'r', 'e', 'f'] htmlMaxAttrLen
    let type := if equalsCase rel (text ['s', 't', 'y', 'l', 'e', 's', 'h', 'e', 'e', 't'])
      then HtmlResourceType.stylesheet else .link
    return { s with result := ← s.result.refer type base href }
  else if is ['s', 'c', 'r', 'i', 'p', 't'] then
    let src ← attr ['s', 'r', 'c'] htmlMaxAttrLen
    return { s with result := ← s.result.refer .script base src }
  else if is ['i', 'm', 'g'] then
    let src ← attr ['s', 'r', 'c'] htmlMaxAttrLen
    return { s with result := ← s.result.refer .image base src }
  else if is ['a'] then
    let href ← attr ['h', 'r', 'e', 'f'] htmlMaxAttrLen
    return { s with result := ← s.result.refer .link base href }
  else if is ['s', 't', 'y', 'l', 'e'] && !selfClosing then
    return { s with inStyle := true, styleStart := tagEnd + 1 }
  else return s

/-- The tag is a closing one. -/
def isClosingAt (html : List UInt8) (i tagEnd : Nat) : Except HtmlFault Bool :=
  if 1 < tagEnd - i then do
    let b ← byteAt html (i + 1)
    return b = slash.val
  else .ok false

/-- One pass of the loop. -/
def scanStepAt (html : List UInt8) (htmlLen : Nat) (base : Option CString) (s : HtmlScan) :
    Except HtmlFault (Option HtmlScan) := do
  if ¬ (s.i < htmlLen ∧ s.result.resources.length < htmlMaxResources) then return none
  else
    let i ← skipWhile html (· ≠ (ch '<').val) (htmlLen - s.i) s.i
    if htmlLen ≤ i then return none
    else if s.inStyle then
      if ← startsAt html i (text ['<', '/', 's', 't', 'y', 'l', 'e']) then
        let css ← bytesAt html s.styleStart (min (i - s.styleStart) (htmlMaxInlineCss - 1))
        let result ← s.result.closeStyle css 0 css.length
        return some { s with i := i + 1, inStyle := false, result := result }
      else return some { s with i := i + 1 }
    else
      let tagEnd ← skipWhile html (· ≠ (ch '>').val) (htmlLen - i) i
      if htmlLen ≤ tagEnd then return none
      else
        let tagName ← extractTagNameAt html i tagEnd
        if ← isClosingAt html i tagEnd then return some { s with i := tagEnd + 1 }
        else
          let s ← readTagAt html htmlLen base i tagEnd tagName s
          return some { s with i := tagEnd + 1 }

/-- The scan with the inline CSS buffer empty again. The buffer lies behind all of the result that
the scan goes by, and no read depends on it: where a body runs over its end, the scan goes on. -/
def HtmlScan.atFront (s : HtmlScan) : HtmlScan :=
  { s with result := { s.result with inlineCssBuf := [], inlineCssLen := 0 } }

/-- The loop of `html_parse`, with every body at the front of the buffer. -/
def scanLoopAt (html : List UInt8) (htmlLen : Nat) (base : Option CString) :
    Nat → HtmlScan → Except HtmlFault HtmlScan
  | 0, s => .ok s
  | fuel + 1, s => do
    match ← scanStepAt html htmlLen base s.atFront with
    | none => return s
    | some s => scanLoopAt html htmlLen base fuel s

/-- What `html_parse` reads of a page of which there is no more memory than its length. -/
def htmlParseChecked (html : List UInt8) (base : Option CString) :
    Except HtmlFault HtmlParseResult :=
  -- for a length of zero the terminator is looked for
  if html.length = 0 then .error .htmlRead
  else do
    let s ← scanLoopAt html html.length base (html.length + 1) ⟨0, false, 0, .zero⟩
    return s.result

/-! ## What the loops do -/

section Loops

variable {html : List UInt8} {i tagEnd : Nat}

/-- What is left of the page, or of a tag, from a position on. -/
def restAt (html : List UInt8) (tagEnd i : Nat) : List UInt8 := (html.take tagEnd).drop i

theorem restAt_add (html : List UInt8) (tagEnd i k : Nat) :
    restAt html tagEnd (i + k) = (restAt html tagEnd i).drop k := List.drop_drop.symm

theorem length_restAt (h : tagEnd ≤ html.length) : (restAt html tagEnd i).length = tagEnd - i := by
  rw [restAt, List.length_drop, List.length_take, Nat.min_eq_left h]

theorem restAt_nil (h : tagEnd ≤ i) : restAt html tagEnd i = [] :=
  List.drop_eq_nil_of_le ((List.length_take_le _ _).trans h)

theorem byteAt_of_lt (h : i < html.length) : byteAt html i = .ok html[i] := by
  rw [byteAt, List.getElem?_eq_getElem h]

/-- The next byte, and what is left behind it. -/
theorem byteAt_rest (h : tagEnd ≤ html.length) (hi : i < tagEnd) :
    ∃ b, byteAt html i = .ok b ∧ restAt html tagEnd i = b :: restAt html tagEnd (i + 1) := by
  have hlt : i < (html.take tagEnd).length := by
    rw [List.length_take]
    omega
  refine ⟨_, byteAt_of_lt (hi.trans_le h), ?_⟩
  rw [restAt, List.drop_eq_getElem_cons hlt, List.getElem_take]
  rfl

/-- **A loop** that looks at the length first stays inside. -/
theorem skipWhile_rest (h : tagEnd ≤ html.length) (p : UInt8 → Bool) : ∀ (n i : Nat),
    n = tagEnd - i → ∃ k, skipWhile html p n i = .ok (i + k) ∧
      k = ((restAt html tagEnd i).takeWhile p).length ∧
      restAt html tagEnd (i + k) = (restAt html tagEnd i).dropWhile p ∧
      (i ≤ tagEnd → i + k ≤ tagEnd) := by
  intro n
  induction n with
  | zero =>
    intro i hn
    have hnil : restAt html tagEnd i = [] := restAt_nil (by omega)
    exact ⟨0, rfl, by rw [hnil]; rfl, by rw [Nat.add_zero, hnil]; rfl, id⟩
  | succ n ih =>
    intro i hn
    obtain ⟨b, hb, hrest⟩ := byteAt_rest (i := i) h (by omega)
    rw [skipWhile, hb, hrest]
    simp only [bind, Except.bind]
    by_cases hp : p b = true
    · obtain ⟨k, hk, hlen, hdrop, hle⟩ := ih (i + 1) (by omega)
      refine ⟨k + 1, ?_, ?_, ?_, fun _ => ?_⟩
      · rw [if_pos hp, hk, Nat.add_assoc, Nat.add_comm 1]
      · rw [List.takeWhile_cons_of_pos hp, List.length_cons, hlen]
      · rw [List.dropWhile_cons_of_pos hp, ← hdrop, Nat.add_assoc, Nat.add_comm 1]
      · have := hle (by omega)
        omega
    · refine ⟨0, ?_, ?_, ?_, id⟩
      · rw [if_neg hp]
        rfl
      · rw [List.takeWhile_cons_of_neg hp]
        rfl
      · rw [List.dropWhile_cons_of_neg hp, Nat.add_zero, hrest]

/-- **A comparison** reads on as long as it finds no difference. -/
theorem startsAt_eq (html : List UInt8) (lit : CString) : ∀ i : Nat,
    startsAt html i lit = startsWithCase (html.drop i) lit := by
  induction lit with
  | nil =>
    intro i
    rw [startsAt, startsWithCase]
  | cons c lit ih =>
    intro i
    rw [startsAt]
    rcases Nat.lt_or_ge i html.length with hlt | hge
    · rw [byteAt_of_lt hlt, List.drop_eq_getElem_cons hlt, startsWithCase, ih]
      rfl
    · rw [byteAt, List.getElem?_eq_none hge, List.drop_eq_nil_of_le hge, startsWithCase]
      rfl

theorem drop_eq_restAt (h : tagEnd ≤ html.length) (hi : i ≤ tagEnd) :
    html.drop i = restAt html tagEnd i ++ html.drop tagEnd := by
  rw [restAt, ← List.drop_append_of_le_length (by rw [List.length_take]; omega),
    List.take_append_drop]

/-- A copy from inside. -/
theorem bytesAt_rest (h : tagEnd ≤ html.length) {len : Nat} (hlen : i + len ≤ tagEnd) :
    bytesAt html i len = .ok ((restAt html tagEnd i).take len) := by
  rw [bytesAt, if_pos (hlen.trans h), restAt, List.drop_take, List.take_take,
    Nat.min_eq_left (by omega)]

theorem skipToCaseLoop_of_short (stop : CString) {rest : List UInt8} : ∀ {i : Nat},
    rest.length < stop.length → skipToCaseLoop stop i rest = i + rest.length := by
  induction rest with
  | nil => exact fun _ => rfl
  | cons b rest ih =>
    intro i h
    rw [skipToCaseLoop, if_neg fun hle => absurd hle.1 (not_le.mpr h),
      ih ((Nat.lt_succ_self _).trans h), List.length_cons, Nat.add_assoc, Nat.add_comm 1]

/-- The search for the end of the title stays inside. -/
theorem skipToCaseAt_eq {len : Nat} (h : len ≤ html.length) (stop : CString) : ∀ (n i : Nat),
    i ≤ len → len < i + n →
      skipToCaseAt html len stop n i = .ok (skipToCaseLoop stop i (restAt html len i)) := by
  intro n
  induction n with
  | zero => exact fun i hi hn => absurd hn (not_lt.mpr hi)
  | succ n ih =>
    intro i hi hn
    have hrest := length_restAt (i := i) h
    rw [skipToCaseAt]
    by_cases hfit : i + stop.length ≤ len
    · obtain ⟨x, hx⟩ := @exists_startsWithCase stop (restAt html len i) (by omega)
      have hstarts : startsAt html i stop = .ok x := by
        rw [startsAt_eq, drop_eq_restAt h hi]
        exact startsWithCase_append_ok hx _
      rw [if_pos hfit, hstarts]
      cases hr : restAt html len i with
      | nil =>
        rw [hr] at hrest hx
        obtain rfl : stop = [] := List.eq_nil_of_length_eq_zero (by simp at hrest; omega)
        rw [startsWithCase] at hx
        cases hx
        rfl
      | cons b bs =>
        rw [hr] at hx hrest
        have hlen : stop.length ≤ (b :: bs).length := by omega
        rw [skipToCaseLoop]
        cases x with
        | true =>
          rw [if_pos ⟨hlen, hx⟩]
          rfl
        | false =>
          rw [if_neg fun hs => by rw [hx] at hs; exact Bool.false_ne_true (Except.ok.inj hs.2)]
          have hnext : restAt html len (i + 1) = bs := by
            rw [restAt_add, hr]
            rfl
          rw [← hnext]
          refine ih (i + 1) ?_ (by omega)
          rw [List.length_cons] at hrest
          omega
    · rw [if_neg hfit, skipToCaseLoop_of_short stop (by omega), hrest]
      exact congrArg Except.ok (by omega)

/-! ## What the helpers do -/

theorem take_takeWhile_length (p : UInt8 → Bool) (l : List UInt8) :
    l.take (l.takeWhile p).length = l.takeWhile p :=
  (List.prefix_iff_eq_take.mp (List.takeWhile_prefix p)).symm

theorem valueAt_eq (h : tagEnd ≤ html.length) (max : Nat) (hi : i ≤ tagEnd) :
    valueAt html tagEnd max i =
      .ok ((attrValue ((restAt html tagEnd i).dropWhile isSpace)).take max) := by
  obtain ⟨k, hk, -, hdrop, hle⟩ := skipWhile_rest h isSpace _ i rfl
  have hj := hle hi
  rw [valueAt, hk, ← hdrop]
  simp only [bind, Except.bind]
  rcases Nat.lt_or_ge (i + k) tagEnd with hlt | hge
  · obtain ⟨quote, hquote, hrest⟩ := byteAt_rest h hlt
    rw [if_neg (not_le.mpr hlt), hquote, hrest, attrValue]
    dsimp only
    by_cases hq : (quote = (ch '"').val || quote = (ch '\'').val) = true
    · obtain ⟨m, hm, hlen, -, hle'⟩ := skipWhile_rest h (· ≠ quote) _ (i + k + 1) rfl
      have hle'' := hle' hlt
      rw [if_pos hq, if_pos hq, hm]
      dsimp only
      rw [bytesAt_rest h (by omega), Nat.add_sub_cancel_left, hlen, Nat.min_comm,
        ← List.take_take]
      exact congrArg (fun l => Except.ok (List.take max l)) (take_takeWhile_length _ _)
    · obtain ⟨m, hm, hlen, -, hle'⟩ := skipWhile_rest h (fun b => !endsWord b) _ (i + k) rfl
      have hle'' := hle' hlt.le
      rw [if_neg hq, if_neg hq, hm]
      dsimp only
      rw [bytesAt_rest h (by omega), Nat.add_sub_cancel_left, hlen, Nat.min_comm,
        ← List.take_take, hrest]
      exact congrArg (fun l => Except.ok (List.take max l)) (take_takeWhile_length _ _)
  · rw [if_pos hge, restAt_nil hge, attrValue, List.take_nil]
    rfl

theorem extractAttrLoop_nil (after : List UInt8) (a : CString) (outLen fuel : Nat) :
    extractAttrLoop after a outLen fuel [] = .ok [] := by
  cases fuel <;> rfl

/-- **`extract_attr`** reads on only in its comparisons. -/
theorem extractAttrAt_eq (h : tagEnd ≤ html.length) (a : CString) (outLen : Nat) :
    ∀ fuel i, i ≤ tagEnd → extractAttrAt html tagEnd a outLen fuel i =
      extractAttrLoop (html.drop tagEnd) a outLen fuel (restAt html tagEnd i) := by
  intro fuel
  induction fuel with
  | zero => exact fun _ _ => rfl
  | succ fuel ih =>
    intro i hi
    obtain ⟨k, hk, -, hdrop, hle⟩ := skipWhile_rest h isSpace _ i rfl
    have hj := hle hi
    rw [extractAttrAt, hk, extractAttrLoop, ← hdrop]
    simp only [bind, Except.bind]
    generalize i + k = j at hj ⊢
    rcases Nat.lt_or_ge j tagEnd with hlt | hge
    swap
    · rw [if_pos hge, if_pos (restAt_nil hge)]
    have hne : restAt html tagEnd j ≠ [] := by
      obtain ⟨b, -, hrest⟩ := byteAt_rest h hlt
      rw [hrest]
      exact List.cons_ne_nil _ _
    rw [if_neg (not_le.mpr hlt), if_neg hne, startsAt_eq, drop_eq_restAt h hj]
    cases startsWithCase (restAt html tagEnd j ++ html.drop tagEnd) a with
    | error e => rfl
    | ok x =>
      cases x with
      | false =>
        obtain ⟨m, hm, -, hdrop', hle'⟩ := skipWhile_rest h (fun b => !isSpace b) _ j rfl
        simp only [if_neg Bool.false_ne_true]
        rw [hm, ← hdrop']
        exact ih (j + m) (hle' hj)
      | true =>
        simp only [if_pos]
        rw [← restAt_add]
        rcases Nat.lt_or_ge (j + a.length) tagEnd with hlt' | hge'
        swap
        · rw [if_pos hge', restAt_nil hge', List.dropWhile_nil, if_neg (by simp),
            extractAttrLoop_nil]
          rfl
        obtain ⟨m, hm, -, hdrop', hle'⟩ := skipWhile_rest h isSpace _ (j + a.length) rfl
        have hj' := hle' hlt'.le
        rw [if_neg (not_le.mpr hlt'), hm, ← hdrop']
        dsimp only
        generalize j + a.length + m = j' at hj' ⊢
        rcases Nat.lt_or_ge j' tagEnd with hlt'' | hge''
        swap
        · rw [if_pos hge'', restAt_nil hge'', if_neg (by simp), ih j' hj', restAt_nil hge'']
        obtain ⟨b, hb, hrest⟩ := byteAt_rest h hlt''
        rw [if_neg (not_le.mpr hlt''), hb, hrest]
        dsimp only
        by_cases heq : b = (ch '=').val
        · rw [if_pos heq, if_pos (by rw [heq]; rfl), valueAt_eq h _ hlt'']
          rfl
        · have hhead : ¬ (b :: restAt html tagEnd (j' + 1)).head? = some (ch '=').val :=
            fun he => heq (Option.some.inj he)
          rw [if_neg heq, if_neg hhead, ih j' hj', hrest]

theorem skipByteAt_rest (h : tagEnd ≤ html.length) (c : CChar) (hi : i ≤ tagEnd) :
    ∃ j, skipByteAt html tagEnd c i = .ok j ∧ j ≤ tagEnd ∧
      restAt html tagEnd j = skipByte c (restAt html tagEnd i) := by
  rw [skipByteAt]
  rcases Nat.lt_or_ge i tagEnd with hlt | hge
  · obtain ⟨b, hb, hrest⟩ := byteAt_rest h hlt
    rw [if_pos hlt, hb, hrest, skipByte]
    by_cases hc : b = c.val
    · refine ⟨i + 1, ?_, hlt, (if_pos hc).symm⟩
      simp only [bind, Except.bind, if_pos hc]
      rfl
    · refine ⟨i, ?_, hi, ?_⟩
      · simp only [bind, Except.bind, if_neg hc]
        rfl
      · rw [if_neg hc, hrest]
  · rw [if_neg (not_lt.mpr hge)]
    refine ⟨i, rfl, hi, ?_⟩
    rw [restAt_nil hge]
    rfl

/-- **`extract_tag_name`** stays inside the tag. -/
theorem extractTagNameAt_eq (h : tagEnd ≤ html.length) (hi : i ≤ tagEnd) :
    extractTagNameAt html i tagEnd = .ok (extractTagName (restAt html tagEnd i)) := by
  obtain ⟨j, hj, hle, hrest⟩ := skipByteAt_rest h (ch '<') hi
  obtain ⟨j', hj', hle', hrest'⟩ := skipByteAt_rest h slash hle
  obtain ⟨k, hk, hlen, -, hend⟩ := skipWhile_rest h (fun b => !endsWord b) _ j' rfl
  have hle'' := hend hle'
  rw [extractTagNameAt, hj]
  simp only [bind, Except.bind]
  rw [hj']
  dsimp only
  rw [hk]
  dsimp only
  rw [bytesAt_rest h (by omega), Nat.add_sub_cancel_left, hlen, Nat.min_comm, ← List.take_take,
    take_takeWhile_length, hrest', hrest]
  rfl

/-- **`is_self_closing`** reads the tag's last byte. -/
theorem isSelfClosingAt_eq (h : tagEnd ≤ html.length) :
    isSelfClosingAt html i tagEnd = .ok (isSelfClosing (restAt html tagEnd i)) := by
  have hlen := length_restAt (i := i) h
  rw [isSelfClosingAt]
  split
  · rename_i hzero
    rw [isSelfClosing, List.eq_nil_of_length_eq_zero (hlen.trans hzero)]
    rfl
  · have hlt : tagEnd - 1 < html.length := by omega
    have hlast : (restAt html tagEnd i).getLast? = some html[tagEnd - 1] := by
      rw [List.getLast?_eq_getElem?, hlen, restAt, List.getElem?_drop,
        List.getElem?_take_of_lt (by omega), ← List.getElem?_eq_getElem hlt]
      exact congrArg (html[·]?) (by omega)
    rw [byteAt_of_lt hlt, isSelfClosing, hlast]
    simp only [bind, Except.bind, Option.some.injEq]
    rfl

theorem isClosingAt_eq (h : tagEnd ≤ html.length) :
    isClosingAt html i tagEnd =
      .ok (decide (html[i + 1]? = some slash.val ∧ 1 < tagEnd - i)) := by
  rw [isClosingAt]
  split
  · rename_i hlt
    have hin : i + 1 < html.length := by omega
    rw [byteAt_of_lt hin, List.getElem?_eq_getElem hin]
    simp only [bind, Except.bind, Option.some.injEq, hlt, and_true]
    rfl
  · rename_i hge
    simp only [hge, and_false, decide_false]

end Loops

/-! ## What the parser does -/

section Parser

variable {html : List UInt8} {base : Option CString} {s : HtmlScan} {i tagEnd : Nat}

theorem readTagAt_eq (hend : tagEnd < html.length) (hi : i ≤ tagEnd) :
    readTagAt html html.length base i tagEnd (extractTagName (restAt html tagEnd i)) s =
      readTag html html.length base i tagEnd s := by
  have htag : (html.drop i).take (tagEnd - i) = restAt html tagEnd i := List.drop_take.symm
  have hattr : ∀ a outLen, (extractAttrAt html tagEnd a outLen (tagEnd - i + 1) i).map
      CString.ofBytes = extractAttr (restAt html tagEnd i) (html.drop tagEnd) a outLen := by
    intro a outLen
    rw [extractAttrAt_eq hend.le a outLen _ i hi, extractAttr, length_restAt hend.le]
  have htitle : skipToCaseAt html html.length (text ['<', '/', 't', 'i', 't', 'l'])
      (html.length + 1) (tagEnd + 1) = .ok (skipToCase html (tagEnd + 1) html.length
        (text ['<', '/', 't', 'i', 't', 'l'])) := by
    have hle : tagEnd + 1 ≤ html.length := hend
    rw [skipToCaseAt_eq le_rfl _ _ _ hle (by omega), skipToCase, if_pos hle]
    rfl
  rw [readTagAt, isSelfClosingAt_eq hend.le, readTag]
  simp only [hattr, htitle, htag]
  rfl

/-- What was copied from the page is put into the inline CSS buffer. -/
theorem closeStyle_copied (r : HtmlParseResult) {styleStart : Nat} {css : List UInt8}
    (hcss : (html.drop styleStart).take (min (i - styleStart) (htmlMaxInlineCss - 1)) = css) :
    r.closeStyle css 0 css.length = r.closeStyle html styleStart i := by
  have hlen : css.length ≤ min (css.length - 0) (htmlMaxInlineCss - 1) := by
    refine le_min le_rfl ?_
    rw [← hcss, List.length_take]
    omega
  rw [HtmlParseResult.closeStyle, HtmlParseResult.closeStyle, hcss, List.drop_zero,
    List.take_of_length_le hlen]

/-- **One pass** does the same, and copies only what it has passed. -/
theorem scanStepAt_eq (hstyle : s.styleStart ≤ s.i) :
    scanStepAt html html.length base s = scanStep html html.length base s := by
  rw [scanStepAt, scanStep]
  by_cases hroom : s.i < html.length ∧ s.result.resources.length < htmlMaxResources
  swap
  · rw [if_pos hroom, if_pos hroom]
  rw [if_neg (not_not.mpr hroom), if_neg (not_not.mpr hroom)]
  obtain ⟨k, hk, hlen, -, hle⟩ :=
    @skipWhile_rest html html.length le_rfl (· ≠ (ch '<').val) _ s.i rfl
  have hi := hle hroom.1.le
  have hskip : skipTo html s.i html.length (ch '<') = s.i + k := by
    rw [skipTo, hlen]
    rfl
  rw [hk, hskip]
  simp only [bind, Except.bind]
  rcases Nat.lt_or_ge (s.i + k) html.length with hlt | hge
  swap
  · rw [if_pos hge, if_pos hge]
  rw [if_neg (not_le.mpr hlt), if_neg (not_le.mpr hlt)]
  by_cases hin : s.inStyle = true
  · -- the body of a `<style>` element
    rw [if_pos hin, if_pos hin, startsAt_eq]
    cases startsWithCase (html.drop (s.i + k)) (text ['<', '/', 's', 't', 'y', 'l', 'e']) with
    | error e => rfl
    | ok closes =>
      cases closes with
      | false => rfl
      | true =>
        have hcopy : bytesAt html s.styleStart
            (min (s.i + k - s.styleStart) (htmlMaxInlineCss - 1)) =
              .ok ((html.drop s.styleStart).take
                (min (s.i + k - s.styleStart) (htmlMaxInlineCss - 1))) := by
          rw [bytesAt, if_pos (by omega)]
        simp only [if_pos, hcopy]
        rw [closeStyle_copied s.result rfl]
  · rw [if_neg hin, if_neg hin]
    obtain ⟨m, hm, hlen', -, hle'⟩ :=
      @skipWhile_rest html html.length le_rfl (· ≠ (ch '>').val) _ (s.i + k) rfl
    have hskip' : skipTo html (s.i + k) html.length (ch '>') = s.i + k + m := by
      rw [skipTo, hlen']
      rfl
    rw [hm, hskip']
    dsimp only
    rcases Nat.lt_or_ge (s.i + k + m) html.length with hlt' | hge'
    swap
    · rw [if_pos hge', if_pos hge']
    rw [if_neg (not_le.mpr hlt'), if_neg (not_le.mpr hlt'),
      extractTagNameAt_eq hlt'.le (Nat.le_add_right _ _)]
    dsimp only
    rw [isClosingAt_eq hlt'.le]
    dsimp only
    rw [readTagAt_eq hlt' (Nat.le_add_right _ _)]
    simp only [decide_eq_true_eq]

/-! ## Titles and places -/

/-- An update of the resources leaves the title. -/
def SameTitle (r r' : HtmlParseResult) : Prop := r'.title = r.title ∧ r'.titleLen = r.titleLen

theorem sameTitle_refer {r r' : HtmlParseResult} {type : HtmlResourceType} {url : CString}
    (h : r.refer type base url = .ok r') : SameTitle r r' := by
  rw [HtmlParseResult.refer] at h
  by_cases hurl : url = []
  · rw [if_pos hurl] at h
    cases h
    exact ⟨rfl, rfl⟩
  · rw [if_neg hurl] at h
    obtain ⟨out, -, hr'⟩ := exists_of_bind_ok h
    cases hr'
    exact ⟨rfl, rfl⟩

theorem sameTitle_setBase {r r' : HtmlParseResult} {href : CString}
    (h : r.setBase href = .ok r') : SameTitle r r' := by
  rw [HtmlParseResult.setBase] at h
  by_cases hhref : href = []
  · rw [if_pos hhref] at h
    cases h
    exact ⟨rfl, rfl⟩
  · rw [if_neg hhref] at h
    obtain ⟨buf, -, hr'⟩ := exists_of_bind_ok h
    cases hr'
    exact ⟨rfl, rfl⟩

theorem sameTitle_closeStyle {r r' : HtmlParseResult} {styleStart : Nat}
    (h : r.closeStyle html styleStart i = .ok r') : SameTitle r r' := by
  obtain ⟨buf, -, hr'⟩ := exists_of_bind_ok h
  cases hr'
  exact ⟨rfl, rfl⟩

/-- **What a tag does** to the scan: it updates the resources, sets the title or starts a `<style>`
element. -/
theorem readTag_cases {htmlLen : Nat} {s' : HtmlScan}
    (h : readTag html htmlLen base i tagEnd s = .ok s') :
    (∃ r, s' = { s with result := r } ∧ SameTitle s.result r) ∨
    s' = { s with result := { s.result with
      title := some (tagEnd + 1)
      titleLen := skipToCase html (tagEnd + 1) htmlLen (text ['<', '/', 't', 'i', 't', 'l']) -
        (tagEnd + 1) } } ∨
    s' = { s with inStyle := true, styleStart := tagEnd + 1 } := by
  have hrefer : ∀ (x : Except HtmlFault CString) (f : CString → HtmlResourceType),
      (x >>= fun url => s.result.refer (f url) base url >>= fun r =>
        pure { s with result := r }) = .ok s' →
      ∃ r, s' = { s with result := r } ∧ SameTitle s.result r := by
    intro x f hx
    obtain ⟨url, -, hurl⟩ := exists_of_bind_ok hx
    obtain ⟨r, hr, hs'⟩ := exists_of_bind_ok hurl
    cases hs'
    exact ⟨r, rfl, sameTitle_refer hr⟩
  rw [readTag] at h
  dsimp only at h
  split at h
  · cases h
    exact Or.inr (Or.inl rfl)
  split at h
  · obtain ⟨href, -, hhref⟩ := exists_of_bind_ok h
    obtain ⟨r, hr, hs'⟩ := exists_of_bind_ok hhref
    cases hs'
    exact Or.inl ⟨r, rfl, sameTitle_setBase hr⟩
  split at h
  · obtain ⟨rel, -, hrel⟩ := exists_of_bind_ok h
    exact Or.inl (hrefer _ (fun _ => _) hrel)
  split at h
  · exact Or.inl (hrefer _ (fun _ => _) h)
  split at h
  · exact Or.inl (hrefer _ (fun _ => _) h)
  split at h
  · exact Or.inl (hrefer _ (fun _ => _) h)
  split at h
  · cases h
    exact Or.inr (Or.inr rfl)
  · cases h
    exact Or.inl ⟨s.result, rfl, rfl, rfl⟩

theorem skipToCaseLoop_le (stop : CString) (rest : List UInt8) : ∀ i : Nat,
    skipToCaseLoop stop i rest ≤ i + rest.length := by
  induction rest with
  | nil => exact fun _ => le_rfl
  | cons b rest ih =>
    intro i
    rw [skipToCaseLoop]
    split
    · exact Nat.le_add_right _ _
    · refine (ih (i + 1)).trans ?_
      rw [List.length_cons]
      omega

theorem skipToCase_le {len : Nat} (stop : CString) : skipToCase html i len stop ≤ len := by
  rw [skipToCase]
  split
  · rename_i hi
    refine (skipToCaseLoop_le stop _ i).trans ?_
    rw [List.length_drop, List.length_take]
    omega
  · exact le_rfl

/-- The title lies in the page, and the `<style>` element starts behind what was read. -/
structure InPage (len : Nat) (s : HtmlScan) : Prop where
  style : s.styleStart ≤ s.i
  title : ∀ t, s.result.title = some t → t + s.result.titleLen ≤ len

theorem InPage.of_sameTitle {len : Nat} (h : InPage len s) {r : HtmlParseResult}
    (hr : SameTitle s.result r) {s' : HtmlScan} (hs' : s'.result = r)
    (hstyle : s'.styleStart ≤ s'.i) : InPage len s' := by
  refine ⟨hstyle, fun t ht => ?_⟩
  rw [hs', hr.1] at ht
  rw [hs', hr.2]
  exact h.title t ht

/-- **One pass** keeps both. -/
theorem InPage.scanStep {len : Nat} (h : InPage len s) {s' : HtmlScan}
    (hstep : scanStep html len base s = .ok (some s')) : InPage len s' := by
  have hsame : SameTitle s.result s.result := ⟨rfl, rfl⟩
  rw [DsoBrowser.scanStep] at hstep
  by_cases hroom : s.i < len ∧ s.result.resources.length < htmlMaxResources
  swap
  · rw [if_pos hroom] at hstep
    cases hstep
  rw [if_neg (not_not.mpr hroom)] at hstep
  have hi : s.i ≤ skipTo html s.i len (ch '<') := Nat.le_add_right _ _
  generalize skipTo html s.i len (ch '<') = i at hi hstep
  have hstyle := h.style
  simp only [bind, Except.bind] at hstep
  by_cases hend : len ≤ i
  · rw [if_pos hend] at hstep
    cases hstep
  rw [if_neg hend] at hstep
  by_cases hin : s.inStyle = true
  · rw [if_pos hin] at hstep
    obtain ⟨closes, -, hbehind⟩ := exists_of_bind_ok hstep
    cases closes with
    | false =>
      cases hbehind
      exact h.of_sameTitle hsame rfl (by dsimp only; omega)
    | true =>
      obtain ⟨r, hclose, hs'⟩ := exists_of_bind_ok hbehind
      cases hs'
      exact h.of_sameTitle (sameTitle_closeStyle hclose) rfl (by dsimp only; omega)
  rw [if_neg hin] at hstep
  have hle : i ≤ skipTo html i len (ch '>') := Nat.le_add_right _ _
  generalize skipTo html i len (ch '>') = tagEnd at hle hstep
  by_cases hend' : len ≤ tagEnd
  · rw [if_pos hend'] at hstep
    cases hstep
  rw [if_neg hend'] at hstep
  by_cases hclosing : html[i + 1]? = some slash.val ∧ 1 < tagEnd - i
  · rw [if_pos hclosing] at hstep
    cases hstep
    exact h.of_sameTitle hsame rfl (by dsimp only; omega)
  rw [if_neg hclosing] at hstep
  obtain ⟨s₁, htag, hs'⟩ := exists_of_bind_ok hstep
  cases hs'
  rcases readTag_cases htag with ⟨r, rfl, hr⟩ | rfl | rfl
  · exact h.of_sameTitle hr rfl (by dsimp only; omega)
  · refine ⟨by dsimp only; omega, fun t ht => ?_⟩
    obtain rfl := Option.some.inj ht
    have hskip := @skipToCase_le html (tagEnd + 1) len (text ['<', '/', 't', 'i', 't', 'l'])
    dsimp only
    omega
  · exact h.of_sameTitle hsame rfl (by dsimp only; omega)

theorem InPage.atFront {len : Nat} (h : InPage len s) : InPage len s.atFront := ⟨h.style, h.title⟩

/-- **The loop** keeps both. -/
theorem InPage.scanLoopAt : ∀ (fuel : Nat) {s s' : HtmlScan}, InPage html.length s →
    DsoBrowser.scanLoopAt html html.length base fuel s = .ok s' → InPage html.length s' := by
  intro fuel
  induction fuel with
  | zero =>
    intro s s' h hs'
    exact Except.ok.inj hs' ▸ h
  | succ fuel ih =>
    intro s s' h hs'
    rw [DsoBrowser.scanLoopAt, scanStepAt_eq h.atFront.style] at hs'
    obtain ⟨next, hstep, hs'⟩ := exists_of_bind_ok hs'
    cases next with
    | none => exact Except.ok.inj hs' ▸ h
    | some s₁ => exact ih (h.atFront.scanStep hstep) hs'

end Parser

end DsoBrowser

import DsoBrowser.HtmlUrl

/-!
# The HTML parser

`html_parse` scans a page once for the resources it refers to. The page is the memory `html` that
can be read from its pointer and a length; the two are apart because the scan compares ahead of
where it is. A pointer into the page or into the inline CSS buffer is the offset there.
-/

namespace DsoBrowser

/-- `HTML_MAX_RESOURCES` -/
def htmlMaxResources : Nat := 64

/-- `HTML_MAX_INLINE_CSS` -/
def htmlMaxInlineCss : Nat := 65536

/-- `html_resource_type` -/
inductive HtmlResourceType
  | stylesheet
  | script
  | image
  | link
  | inlineCss
  | metaTag
  deriving DecidableEq, Repr

/-- `html_resource` -/
structure HtmlResource where
  type : HtmlResourceType
  /-- content name (resolved) -/
  name : CString
  /-- URL as the page has it -/
  rawUrl : CString
  /-- where in the inline CSS buffer its text starts -/
  inlineData : Option Nat
  /-- length of inline CSS -/
  inlineLen : Nat
  deriving DecidableEq

/-- `html_parse_result` -/
structure HtmlParseResult where
  /-- extracted resources; `resource_count` is their number -/
  resources : List HtmlResource
  /-- where in the page the title starts -/
  title : Option Nat
  titleLen : Nat
  /-- where in the inline CSS buffer the base URL is -/
  baseHref : Option Nat
  baseHrefLen : Nat
  /-- the inline CSS buffer up to the last byte written; the rest is zero -/
  inlineCssBuf : List UInt8
  inlineCssLen : Nat
  deriving DecidableEq

/-- `memset(result, 0, sizeof(*result))` -/
def HtmlParseResult.zero : HtmlParseResult := ⟨[], none, 0, none, 0, [], 0⟩

/-- The scan's local variables and the result so far. -/
structure HtmlScan where
  i : Nat
  inStyle : Bool
  styleStart : Nat
  result : HtmlParseResult
  deriving DecidableEq

/-! ## Finding the next byte -/

/-- `while (i < len && s[i] != c) i++;` -/
def skipTo (html : List UInt8) (i len : Nat) (c : CChar) : Nat :=
  i + (((html.take len).drop i).takeWhile (· ≠ c.val)).length

/-- `skip_to_case` over the bytes left, `i` of them already passed; `stop_len` bytes of `stop` are
compared. -/
def skipToCaseLoop (stop : CString) : Nat → List UInt8 → Nat
  | i, [] => i
  | i, b :: bs =>
    if stop.length ≤ (b :: bs).length ∧ startsWithCase (b :: bs) stop = .ok true then i
    else skipToCaseLoop stop (i + 1) bs

/-- `skip_to_case` -/
def skipToCase (html : List UInt8) (i len : Nat) (stop : CString) : Nat :=
  if i ≤ len then skipToCaseLoop stop i ((html.take len).drop i) else len

/-! ## What one tag adds -/

/-- Bytes written into the inline CSS buffer. -/
def pokeCss (buf : List UInt8) (pos : Nat) (bytes : List UInt8) : Except HtmlFault (List UInt8) :=
  if pos + bytes.length ≤ htmlMaxInlineCss then
    .ok ((buf ++ List.replicate (pos - buf.length) 0).take pos ++ bytes ++
      buf.drop (pos + bytes.length))
  else .error .cssWrite

namespace HtmlParseResult

/-- `result->resources[result->resource_count++] = …` -/
def push (r : HtmlParseResult) (res : HtmlResource) : HtmlParseResult :=
  { r with resources := r.resources ++ [res] }

/-- A resource named by a URL: nothing for an empty one. -/
def refer (r : HtmlParseResult) (type : HtmlResourceType) (base : Option CString) (url : CString) :
    Except HtmlFault HtmlParseResult :=
  if url = [] then .ok r
  else do
    let (_, name) ← htmlResolveUrl base url htmlMaxAttrLen
    return r.push ⟨type, CString.ofBytes name, url, none, 0⟩

/-- `<base href="…">`: the value is put at the start of the inline CSS buffer. -/
def setBase (r : HtmlParseResult) (href : CString) : Except HtmlFault HtmlParseResult :=
  if href = [] then .ok r
  else do
    let href : CString := href.take (htmlMaxInlineCss - 1)
    let buf ← pokeCss r.inlineCssBuf 0 (href.bytes ++ [0])
    return { r with baseHref := some 0, baseHrefLen := href.length, inlineCssBuf := buf }

/-- `</style>`: the text since `styleStart` is put after the inline CSS so far. -/
def closeStyle (r : HtmlParseResult) (html : List UInt8) (styleStart i : Nat) :
    Except HtmlFault HtmlParseResult := do
  let css := (html.drop styleStart).take (min (i - styleStart) (htmlMaxInlineCss - 1))
  let buf ← pokeCss r.inlineCssBuf r.inlineCssLen (css ++ [0])
  return { r.push ⟨.inlineCss, [], [], some r.inlineCssLen, css.length⟩ with
    inlineCssBuf := buf, inlineCssLen := r.inlineCssLen + (css.length + 1) }

end HtmlParseResult

/-- The branches of `html_parse` on the name of the tag at `i`, whose `>` is at `tagEnd`. -/
def readTag (html : List UInt8) (htmlLen : Nat) (base : Option CString) (i tagEnd : Nat)
    (s : HtmlScan) : Except HtmlFault HtmlScan := do
  let tag := (html.drop i).take (tagEnd - i)
  let after := html.drop tagEnd
  let is name := equalsCase (extractTagName tag) (text name)
  let attr name outLen := extractAttr tag after (text name) outLen
  if is ['t', 'i', 't', 'l', 'e'] && !isSelfClosing tag then
    -- of the closing tag's name the first six bytes are compared
    let titleEnd := skipToCase html (tagEnd + 1) htmlLen (text ['<', '/', 't', 'i', 't', 'l'])
    return { s with result := { s.result with
      title := some (tagEnd + 1), titleLen := titleEnd - (tagEnd + 1) } }
  else if is ['b', 'a', 's', 'e'] then
    let href ← attr ['h', 'r', 'e', 'f'] htmlMaxAttrLen
    return { s with result := ← s.result.setBase href }
  else if is ['l', 'i', 'n', 'k'] then
    let rel ← attr ['r', 'e', 'l'] 64
    let href ← attr ['h', 'r', 'e', 'f'] htmlMaxAttrLen
    let type := if equalsCase rel (text ['s', 't', 'y', 'l', 'e', 's', 'h', 'e', 'e', 't'])
      then HtmlResourceType.stylesheet else .link
    return { s with result := ← s.result.refer type base href }
  else if is ['s', 'c', 'r', 'i', 'p', 't'] then
    let src ← attr ['s', 'r', 'c'] htmlMaxAttrLen
    return { s with result := ← s.result.refer .script base src }
  else if is ['i', 'm', 'g'] then
    let src ← attr ['s', 'r', 'c'] htmlMaxAttrLen
    return { s with result := ← s.result.refer .image base src }
  else if is ['a'] then
    let href ← attr ['h', 'r', 'e', 'f'] htmlMaxAttrLen
    return { s with result := ← s.result.refer .link base href }
  else if is ['s', 't', 'y', 'l', 'e'] && !isSelfClosing tag then
    return { s with inStyle := true, styleStart := tagEnd + 1 }
  else return s

/-! ## The scan -/

/-- One pass of the loop: `none` when the loop ends. -/
def scanStep (html : List UInt8) (htmlLen : Nat) (base : Option CString) (s : HtmlScan) :
    Except HtmlFault (Option HtmlScan) := do
  if ¬ (s.i < htmlLen ∧ s.result.resources.length < htmlMaxResources) then return none
  let i := skipTo html s.i htmlLen (ch '<')
  if htmlLen ≤ i then return none
  if s.inStyle then
    if ← startsWithCase (html.drop i) (text ['<', '/', 's', 't', 'y', 'l', 'e']) then
      let result ← s.result.closeStyle html s.styleStart i
      return some { s with i := i + 1, inStyle := false, result := result }
    else return some { s with i := i + 1 }
  let tagEnd := skipTo html i htmlLen (ch '>')
  if htmlLen ≤ tagEnd then return none
  -- a closing tag
  if html[i + 1]? = some slash.val ∧ 1 < tagEnd - i then return some { s with i := tagEnd + 1 }
  let s ← readTag html htmlLen base i tagEnd s
  return some { s with i := tagEnd + 1 }

/-- The loop of `html_parse`. -/
def scanLoop (html : List UInt8) (htmlLen : Nat) (base : Option CString) :
    Nat → HtmlScan → Except HtmlFault HtmlScan
  | 0, s => .ok s
  | fuel + 1, s => do
    match ← scanStep html htmlLen base s with
    | none => return s
    | some s => scanLoop html htmlLen base fuel s

/-- `html_len`, or `strlen(html)` in place of `0`. -/
def pageLen (html : List UInt8) (htmlLen : Nat) : Except HtmlFault Nat :=
  let len := if htmlLen = 0 then (html.takeWhile (· ≠ 0)).length else htmlLen
  if (if htmlLen = 0 then len + 1 else len) ≤ html.length then .ok len else .error .htmlRead

/-- `html_parse` -/
def htmlParse (html : List UInt8) (htmlLen : Nat) (base : Option CString) :
    Except HtmlFault HtmlParseResult := do
  let len ← pageLen html htmlLen
  let s ← scanLoop html len base (len + 1) ⟨0, false, 0, HtmlParseResult.zero⟩
  return s.result

end DsoBrowser

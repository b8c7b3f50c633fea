import DsoBrowser.HtmlParse
import DsoBrowser.StartTags

/-!
# What a page asks for

A page read byte by byte, with no result and no limits: it is text, a tag or the body of a
`<style>` element at every byte, and asks for resources, base URLs and inline CSS (`readPage`). The
parser does what the page asks for, in the page's order, until it has all resources it has room for
(`htmlParse_eq`).
-/

namespace DsoBrowser

/-- What a piece of a page asks the parser to do. -/
inductive PageAction
  /-- add a resource by its URL -/
  | refer (type : HtmlResourceType) (url : CString)
  /-- take a base URL -/
  | base (href : CString)
  /-- add the body of a `<style>` element -/
  | css (body : List UInt8)
  deriving DecidableEq

/-! ## Tags -/

/-- The value that `extract_attr` finds in a tag. -/
def attrText (tag : List UInt8) (name : CString) (outLen : Nat) : CString :=
  match extractAttr tag [tagStop] name outLen with
  | .ok v => v
  | .error _ => []

/-- A resource, if there is a URL. -/
def referTo (type : HtmlResourceType) (url : CString) : Option PageAction :=
  if url = [] then none else some (.refer type url)

/-- What a tag asks for by its name and attributes. -/
def tagAction (tag : List UInt8) : Option PageAction :=
  let is name := equalsCase (extractTagName tag) (text name)
  let attr name outLen := attrText tag (text name) outLen
  if is ['t', 'i', 't', 'l', 'e'] && !isSelfClosing tag then none
  else if is ['b', 'a', 's', 'e'] then
    let href := attr ['h', 'r', 'e', 'f'] htmlMaxAttrLen
    if href = [] then none else some (.base href)
  else if is ['l', 'i', 'n', 'k'] then
    let type := if equalsCase (attr ['r', 'e', 'l'] 64)
        (text ['s', 't', 'y', 'l', 'e', 's', 'h', 'e', 'e', 't'])
      then HtmlResourceType.stylesheet else .link
    referTo type (attr ['h', 'r', 'e', 'f'] htmlMaxAttrLen)
  else if is ['s', 'c', 'r', 'i', 'p', 't'] then
    referTo .script (attr ['s', 'r', 'c'] htmlMaxAttrLen)
  else if is ['i', 'm', 'g'] then referTo .image (attr ['s', 'r', 'c'] htmlMaxAttrLen)
  else if is ['a'] then referTo .link (attr ['h', 'r', 'e', 'f'] htmlMaxAttrLen)
  else none

/-- The tag starts a `<style>` element. -/
def opensStyle (tag : List UInt8) : Bool :=
  equalsCase (extractTagName tag) (text ['s', 't', 'y', 'l', 'e']) && !isSelfClosing tag

/-- The tag is a closing one. -/
def IsClosing (tag : List UInt8) : Prop := tag[1]? = some slash.val

instance (tag : List UInt8) : Decidable (IsClosing tag) := inferInstanceAs (Decidable (_ = _))

/-! ## Pages -/

/-- What a page is at a byte. -/
inductive PageMode
  /-- text -/
  | text
  /-- a tag, of which these bytes have been read -/
  | tag (seen : List UInt8)
  /-- a `<style>` element, of whose body these have -/
  | style (css : List UInt8)
  deriving DecidableEq

/-- The byte that starts a tag. -/
def tagStart : UInt8 := (ch '<').val

/-- `"</style"` -/
def styleEnd : CString := text ['<', '/', 's', 't', 'y', 'l', 'e']

/-- What was read: the actions asked for, and what the page is at its end, unless a comparison ran
past the memory. -/
structure PageReading where
  actions : List PageAction
  last : Except HtmlFault PageMode
  deriving DecidableEq

/-- Actions asked for before. -/
def PageReading.behind (actions : List PageAction) (reading : PageReading) : PageReading :=
  { reading with actions := actions ++ reading.actions }

/-- What a page is behind a tag. -/
def modeBehind (tag : List UInt8) : PageMode := if opensStyle tag then .style [] else .text

/-- A page is read, with the memory `after` it. -/
def readPage (after : List UInt8) : PageMode → List UInt8 → PageReading
  | mode, [] => ⟨[], .ok mode⟩
  | .text, b :: page =>
    if b = tagStart then readPage after (.tag [b]) page else readPage after .text page
  | .tag seen, b :: page =>
    if b = tagStop then
      if IsClosing seen then readPage after .text page
      else (readPage after (modeBehind seen) page).behind (tagAction seen).toList
    else readPage after (.tag (seen ++ [b])) page
  | .style css, b :: page =>
    match startsWithCase (b :: (page ++ after)) styleEnd with
    | .error e => ⟨[], .error e⟩
    | .ok true => (readPage after .text page).behind [.css css]
    | .ok false => readPage after (.style (css ++ [b])) page

/-! ## Doing it -/

namespace HtmlParseResult

/-- The result without its title. -/
def untitled (r : HtmlParseResult) : HtmlParseResult := { r with title := none, titleLen := 0 }

/-- The parser does what is asked for. -/
def act (base : Option CString) (r : HtmlParseResult) :
    PageAction → Except HtmlFault HtmlParseResult
  | .refer type url => r.refer type base url
  | .base href => r.setBase href
  | .css body => r.closeStyle body 0 body.length

/-- It does one thing after the other, as long as there is room for a resource. -/
def actAll (base : Option CString) : HtmlParseResult → List PageAction →
    Except HtmlFault HtmlParseResult
  | r, [] => .ok r
  | r, a :: actions => do
    if r.resources.length < htmlMaxResources then actAll base (← r.act base a) actions
    else return r

/-- What comes of a reading. -/
def actOn (base : Option CString) (r : HtmlParseResult) (reading : PageReading) :
    Except HtmlFault HtmlParseResult := do
  let r ← r.actAll base reading.actions
  if r.resources.length < htmlMaxResources then reading.last.map fun _ => r else return r

end HtmlParseResult

/-! ## Reading piece by piece -/

section Pieces

variable {after front page : List UInt8}

theorem readPage_text (h : ∀ b ∈ front, b ≠ tagStart) :
    readPage after .text (front ++ page) = readPage after .text page := by
  induction front with
  | nil => rfl
  | cons b front ih =>
    rw [List.cons_append, readPage, if_neg (h b List.mem_cons_self)]
    exact ih fun c hc => h c (List.mem_cons_of_mem _ hc)

theorem readPage_tag (h : ∀ b ∈ front, b ≠ tagStop) : ∀ seen : List UInt8,
    readPage after (.tag seen) (front ++ page) = readPage after (.tag (seen ++ front)) page := by
  induction front with
  | nil =>
    intro seen
    rw [List.append_nil]
    rfl
  | cons b front ih =>
    intro seen
    rw [List.cons_append, readPage, if_neg (h b List.mem_cons_self),
      ih (fun c hc => h c (List.mem_cons_of_mem _ hc)), List.append_assoc]
    rfl

/-- Only a `<` may start the end of a `<style>` element. -/
theorem startsWithCase_styleEnd {b : UInt8} (h : b ≠ tagStart) (mem : List UInt8) :
    startsWithCase (b :: mem) styleEnd = .ok false := by
  rw [styleEnd, text, List.map_cons, startsWithCase, if_neg]
  intro he
  exact h (toLower_eq (by decide) (he.trans (by decide : toLower (ch '<').val = tagStart)))

theorem readPage_style (h : ∀ b ∈ front, b ≠ tagStart) : ∀ css : List UInt8,
    readPage after (.style css) (front ++ page) =
      readPage after (.style (css ++ front)) page := by
  induction front with
  | nil =>
    intro css
    rw [List.append_nil]
    rfl
  | cons b front ih =>
    intro css
    rw [List.cons_append, readPage, startsWithCase_styleEnd (h b List.mem_cons_self)]
    simp only
    rw [ih (fun c hc => h c (List.mem_cons_of_mem _ hc)), List.append_assoc]
    rfl

end Pieces

/-! ## What a tag does -/

/-- No comparison with an attribute's name runs past the tag's end. -/
theorem extractAttr_tagStop {a : CString} (ha : AttrName a) (tag after : List UInt8)
    (outLen : Nat) :
    extractAttr tag (tagStop :: after) a outLen = .ok (attrText tag a outLen) := by
  obtain ⟨res, hres⟩ := exists_attrRounds ha tag
  have hloop := fun rest => extractAttrLoop_of_rounds ha (by decide : ¬ IsLetter tagStop) rest
    outLen hres tag.length le_rfl
  rw [attrText, extractAttr, extractAttr, hloop, hloop]
  rfl

section Untitled

open HtmlParseResult

theorem map_bind {ε α β γ : Type} (x : Except ε α) (f : α → Except ε β) (g : β → γ) :
    (x >>= f).map g = x >>= fun a => (f a).map g := by
  cases x <;> rfl

variable (base : Option CString) (r : HtmlParseResult)

theorem refer_untitled (type : HtmlResourceType) (url : CString) :
    (r.refer type base url).map untitled = r.untitled.refer type base url := by
  rw [refer, refer]
  split
  · rfl
  · exact map_bind (htmlResolveUrl base url htmlMaxAttrLen) _ _

theorem setBase_untitled (href : CString) :
    (r.setBase href).map untitled = r.untitled.setBase href := by
  rw [setBase, setBase]
  split
  · rfl
  · exact map_bind (pokeCss r.inlineCssBuf 0 _) _ _

theorem closeStyle_untitled (html : List UInt8) (styleStart i : Nat) :
    (r.closeStyle html styleStart i).map untitled = r.untitled.closeStyle html styleStart i :=
  map_bind (pokeCss r.inlineCssBuf r.inlineCssLen _) _ _

end Untitled

/-- A name is one of the names. -/
theorem equalsCase_disjoint {n a b : CString} (hab : a.bytes.map toLower ≠ b.bytes.map toLower)
    (h : equalsCase n a = true) : equalsCase n b = false := by
  rw [equalsCase, decide_eq_true_eq] at h
  rw [equalsCase, decide_eq_false_iff_not, h]
  exact hab

/-- The scan without its title. -/
def HtmlScan.untitled (s : HtmlScan) : HtmlScan := { s with result := s.result.untitled }

/-- The scan behind a tag, with the result there. -/
def HtmlScan.behind (s : HtmlScan) (tag : List UInt8) (tagEnd : Nat) (r : HtmlParseResult) :
    HtmlScan :=
  if opensStyle tag then { s with inStyle := true, styleStart := tagEnd + 1, result := r }
  else { s with result := r }

theorem behind_of_opens {tag : List UInt8} (h : opensStyle tag = true) (s : HtmlScan)
    (tagEnd : Nat) : s.behind tag tagEnd = fun r =>
      { s with inStyle := true, styleStart := tagEnd + 1, result := r } :=
  funext fun _ => if_pos h

theorem behind_of_not_opens {tag : List UInt8} (h : opensStyle tag = false) (s : HtmlScan)
    (tagEnd : Nat) : s.behind tag tagEnd = fun r => { s with result := r } :=
  funext fun _ => if_neg (by rw [h]; exact Bool.false_ne_true)

/-- What an action that may be missing does. -/
def HtmlParseResult.actOption (base : Option CString) (r : HtmlParseResult) :
    Option PageAction → Except HtmlFault HtmlParseResult
  | none => .ok r
  | some a => r.act base a

theorem refer_eq_actOption (base : Option CString) (r : HtmlParseResult) (type : HtmlResourceType)
    (url : CString) : r.refer type base url = r.actOption base (referTo type url) := by
  rw [referTo]
  split
  · rename_i hurl
    rw [HtmlParseResult.refer, if_pos hurl]
    rfl
  · rfl

theorem setBase_eq_actOption (base : Option CString) (r : HtmlParseResult) (href : CString) :
    r.setBase href = r.actOption base (if href = [] then none else some (.base href)) := by
  split
  · rename_i hhref
    rw [HtmlParseResult.setBase, if_pos hhref]
    rfl
  · rfl

/-- **A tag** makes the parser do what the tag asks for. -/
theorem readTag_untitled {html tag rest : List UInt8} {htmlLen i tagEnd : Nat}
    (htag : (html.drop i).take (tagEnd - i) = tag) (hrest : html.drop tagEnd = tagStop :: rest)
    (base : Option CString) (s : HtmlScan) :
    (readTag html htmlLen base i tagEnd s).map HtmlScan.untitled =
      (s.result.untitled.actOption base (tagAction tag)).map (s.behind tag tagEnd) := by
  have hattr : ∀ name : List Char, AttrName (text name) → ∀ outLen,
      extractAttr tag (tagStop :: rest) (text name) outLen =
        .ok (attrText tag (text name) outLen) :=
    fun name h outLen => extractAttr_tagStop h tag rest outLen
  have hplain : ∀ name : List Char, equalsCase (extractTagName tag) (text name) = true →
      (text name).bytes.map toLower ≠
        (text ['s', 't', 'y', 'l', 'e']).bytes.map toLower → opensStyle tag = false := by
    intro name h hne
    rw [opensStyle, equalsCase_disjoint hne h]
    rfl
  have hrefer : ∀ name : List Char, equalsCase (extractTagName tag) (text name) = true →
      (text name).bytes.map toLower ≠
        (text ['s', 't', 'y', 'l', 'e']).bytes.map toLower → ∀ type url,
      (s.result.refer type base url >>= fun r => pure { s with result := r }).map
          HtmlScan.untitled =
        (s.result.untitled.actOption base (referTo type url)).map (s.behind tag tagEnd) := by
    intro name h hne type url
    rw [← refer_eq_actOption, ← refer_untitled, behind_of_not_opens (hplain name h hne)]
    cases s.result.refer type base url <;> rfl
  rw [readTag, tagAction, htag, hrest]
  dsimp only
  by_cases htitle : (equalsCase (extractTagName tag) (text ['t', 'i', 't', 'l', 'e']) &&
      !isSelfClosing tag) = true
  · rw [if_pos htitle, if_pos htitle]
    have hname := (Bool.and_eq_true _ _ ▸ htitle).1
    rw [behind_of_not_opens (hplain _ hname (by decide))]
    rfl
  rw [if_neg htitle, if_neg htitle]
  by_cases hbase : equalsCase (extractTagName tag) (text ['b', 'a', 's', 'e']) = true
  · rw [if_pos hbase, if_pos hbase, hattr _ (by decide), ← setBase_eq_actOption,
      ← setBase_untitled, behind_of_not_opens (hplain _ hbase (by decide))]
    change Except.map _ (s.result.setBase _ >>= fun r => pure { s with result := r }) = _
    cases s.result.setBase (attrText tag (text ['h', 'r', 'e', 'f']) htmlMaxAttrLen) <;> rfl
  rw [if_neg hbase, if_neg hbase]
  by_cases hlink : equalsCase (extractTagName tag) (text ['l', 'i', 'n', 'k']) = true
  · rw [if_pos hlink, if_pos hlink, hattr _ (by decide), hattr _ (by decide)]
    exact hrefer _ hlink (by decide) _ _
  rw [if_neg hlink, if_neg hlink]
  by_cases hscript : equalsCase (extractTagName tag) (text ['s', 'c', 'r', 'i', 'p', 't']) = true
  · rw [if_pos hscript, if_pos hscript, hattr _ (by decide)]
    exact hrefer _ hscript (by decide) _ _
  rw [if_neg hscript, if_neg hscript]
  by_cases himg : equalsCase (extractTagName tag) (text ['i', 'm', 'g']) = true
  · rw [if_pos himg, if_pos himg, hattr _ (by decide)]
    exact hrefer _ himg (by decide) _ _
  rw [if_neg himg, if_neg himg]
  by_cases ha : equalsCase (extractTagName tag) (text ['a']) = true
  · rw [if_pos ha, if_pos ha, hattr _ (by decide)]
    exact hrefer _ ha (by decide) _ _
  rw [if_neg ha, if_neg ha]
  by_cases hstyle : opensStyle tag = true
  · rw [behind_of_opens hstyle]
    exact congrArg (Except.map HtmlScan.untitled) (if_pos hstyle)
  · rw [behind_of_not_opens (Bool.eq_false_iff.mpr hstyle)]
    exact congrArg (Except.map HtmlScan.untitled) (if_neg hstyle)

/-! ## The scan -/

section Scan

variable {pre page front rest after : List UInt8} {base : Option CString} {s : HtmlScan}

theorem skipTo_append (pre page after : List UInt8) (c : CChar) :
    skipTo (pre ++ (page ++ after)) pre.length (pre.length + page.length) c =
      pre.length + (page.takeWhile (· ≠ c.val)).length := by
  have htake : (pre ++ (page ++ after)).take (pre.length + page.length) = pre ++ page := by
    rw [List.take_length_add_append, List.take_left]
  rw [skipTo, htake, List.drop_left]

/-- Where the byte looked for is. -/
theorem skipTo_found (pre after : List UInt8) {c : CChar} (h : ∀ b ∈ front, b ≠ c.val) :
    skipTo (pre ++ ((front ++ c.val :: rest) ++ after)) pre.length
      (pre.length + (front ++ c.val :: rest).length) c = pre.length + front.length := by
  rw [skipTo_append, takeWhile_append_stop (by simp),
    List.takeWhile_eq_self_iff.mpr fun b hb => by simpa using h b hb]

/-- It is nowhere. -/
theorem skipTo_missing (pre after : List UInt8) {c : CChar} (h : ∀ b ∈ page, b ≠ c.val) :
    skipTo (pre ++ (page ++ after)) pre.length (pre.length + page.length) c =
      pre.length + page.length := by
  rw [skipTo_append, List.takeWhile_eq_self_iff.mpr fun b hb => by simpa using h b hb]

/-- There is room for another resource. -/
def HasRoom (r : HtmlParseResult) : Prop := r.resources.length < htmlMaxResources

instance (r : HtmlParseResult) : Decidable (HasRoom r) := inferInstanceAs (Decidable (_ < _))

theorem scanStep_full (html : List UInt8) (htmlLen : Nat) (h : ¬ HasRoom s.result) :
    scanStep html htmlLen base s = .ok none := by
  rw [scanStep, if_pos fun hroom => h hroom.2]
  rfl

/-- The loop ends where no tag starts. -/
theorem scanStep_noTag (hi : s.i = pre.length) (h : ∀ b ∈ page, b ≠ tagStart) :
    scanStep (pre ++ (page ++ after)) (pre.length + page.length) base s = .ok none := by
  by_cases hroom : s.i < pre.length + page.length ∧ s.result.resources.length < htmlMaxResources
  · rw [scanStep, if_neg (not_not.mpr hroom), hi, skipTo_missing pre after h]
    exact if_pos le_rfl
  · rw [scanStep, if_pos hroom]
    rfl

/-- What one pass does in the text of a page. -/
def textStep (html : List UInt8) (htmlLen : Nat) (base : Option CString) (i tagEnd : Nat)
    (s : HtmlScan) : Except HtmlFault (Option HtmlScan) :=
  if htmlLen ≤ tagEnd then .ok none
  else if html[i + 1]? = some slash.val ∧ 1 < tagEnd - i then .ok (some { s with i := tagEnd + 1 })
  else do
    let s ← readTag html htmlLen base i tagEnd s
    return some { s with i := tagEnd + 1 }

theorem scanStep_text (hi : s.i = pre.length) (hroom : HasRoom s.result)
    (hstyle : s.inStyle = false) (h : ∀ b ∈ front, b ≠ tagStart) {html : List UInt8} {htmlLen : Nat}
    (hhtml : html = pre ++ ((front ++ tagStart :: rest) ++ after))
    (hlen : htmlLen = pre.length + (front ++ tagStart :: rest).length) :
    scanStep html htmlLen base s = textStep html htmlLen base (pre.length + front.length)
      (skipTo html (pre.length + front.length) htmlLen (ch '>')) s := by
  have hfound : skipTo html pre.length htmlLen (ch '<') = pre.length + front.length := by
    rw [hhtml, hlen]
    exact skipTo_found pre after h
  have hlt : pre.length + front.length < htmlLen := by
    rw [hlen, List.length_append, List.length_cons]
    omega
  rw [scanStep, if_neg (not_not.mpr ⟨by omega, hroom⟩), hi, hfound, textStep]
  dsimp only
  rw [if_neg hlt.not_ge, hstyle, if_neg Bool.false_ne_true]
  rfl

/-- What one pass does in a `<style>` element. -/
theorem scanStep_style (hi : s.i = pre.length) (hroom : HasRoom s.result)
    (hstyle : s.inStyle = true) (h : ∀ b ∈ front, b ≠ tagStart) {html : List UInt8} {htmlLen : Nat}
    (hhtml : html = pre ++ ((front ++ tagStart :: rest) ++ after))
    (hlen : htmlLen = pre.length + (front ++ tagStart :: rest).length) :
    scanStep html htmlLen base s =
      startsWithCase (tagStart :: (rest ++ after)) styleEnd >>= fun closes =>
        if closes then do
          let result ← s.result.closeStyle html s.styleStart (pre.length + front.length)
          return some ⟨pre.length + front.length + 1, false, s.styleStart, result⟩
        else .ok (some { s with i := pre.length + front.length + 1 }) := by
  have hfound : skipTo html pre.length htmlLen (ch '<') = pre.length + front.length := by
    rw [hhtml, hlen]
    exact skipTo_found pre after h
  have hdrop : html.drop (pre.length + front.length) = tagStart :: (rest ++ after) := by
    rw [hhtml, List.drop_length_add_append, List.append_assoc, List.drop_left]
    rfl
  have hlt : pre.length + front.length < htmlLen := by
    rw [hlen, List.length_append, List.length_cons]
    omega
  rw [scanStep, if_neg (not_not.mpr ⟨by omega, hroom⟩), hi, hfound]
  dsimp only
  rw [if_neg hlt.not_ge, hstyle, if_pos rfl, hdrop]
  rfl

/-- The loop ends where a tag does not. -/
theorem textStep_open (h : ∀ b ∈ tagStart :: rest, b ≠ tagStop)
    {html : List UInt8} {htmlLen : Nat}
    (hhtml : html = pre ++ ((front ++ tagStart :: rest) ++ after))
    (hlen : htmlLen = pre.length + (front ++ tagStart :: rest).length) :
    textStep html htmlLen base (pre.length + front.length)
      (skipTo html (pre.length + front.length) htmlLen (ch '>')) s = .ok none := by
  have hmissing : skipTo html (pre.length + front.length) htmlLen (ch '>') = htmlLen := by
    have hskip := skipTo_missing (pre ++ front) after h
    rwa [List.length_append, List.append_assoc, ← List.append_assoc front, Nat.add_assoc,
      ← @List.length_append _ front, ← hhtml, ← hlen] at hskip
  rw [hmissing, textStep, if_pos le_rfl]

/-- A tag that ends is passed over or read. -/
theorem textStep_tag {tag : List UInt8} (htag : ∀ b ∈ tag, b ≠ tagStop)
    {html : List UInt8} {htmlLen : Nat}
    (hhtml : html = pre ++ ((front ++ (tag ++ tagStop :: rest)) ++ after))
    (hlen : htmlLen = pre.length + (front ++ (tag ++ tagStop :: rest)).length) :
    (textStep html htmlLen base (pre.length + front.length)
        (skipTo html (pre.length + front.length) htmlLen (ch '>')) s).map
          (Option.map HtmlScan.untitled) =
      if IsClosing tag then
        .ok (some { s.untitled with i := pre.length + front.length + tag.length + 1 })
      else (s.result.untitled.actOption base (tagAction tag)).map fun r =>
        some { s.behind tag (pre.length + front.length + tag.length) r with
          i := pre.length + front.length + tag.length + 1 } := by
  have hhtml' : html = (pre ++ front) ++ (tag ++ (tagStop :: (rest ++ after))) := by
    rw [hhtml]
    simp
  have hfound : skipTo html (pre.length + front.length) htmlLen (ch '>') =
      pre.length + front.length + tag.length := by
    have hskip := @skipTo_found tag rest (pre ++ front) after (ch '>') htag
    rw [List.length_append] at hskip
    rw [← hskip]
    refine congrArg₂ (fun a b => skipTo a _ b _) ?_ ?_
    · rw [hhtml']
      simp [tagStop]
    · rw [hlen]
      simp [tagStop]
      omega
  have hdrop : html.drop (pre.length + front.length) = tag ++ (tagStop :: (rest ++ after)) := by
    rw [hhtml', ← List.length_append, List.drop_left]
  have hend : html.drop (pre.length + front.length + tag.length) =
      tagStop :: (rest ++ after) := by
    rw [← List.drop_drop, hdrop, List.drop_left]
  have htake : (html.drop (pre.length + front.length)).take
      (pre.length + front.length + tag.length - (pre.length + front.length)) = tag := by
    rw [hdrop, Nat.add_sub_cancel_left, List.take_left]
  have hclosing : (html[pre.length + front.length + 1]? = some slash.val ∧
      1 < pre.length + front.length + tag.length - (pre.length + front.length)) ↔
        IsClosing tag := by
    rw [← List.getElem?_drop, hdrop, Nat.add_sub_cancel_left, IsClosing]
    refine ⟨?_, fun h => ?_⟩
    · rintro ⟨h, hlt⟩
      rwa [List.getElem?_append_left hlt] at h
    · have hlt := (List.getElem?_eq_some_iff.mp h).1
      exact ⟨by rwa [List.getElem?_append_left hlt], hlt⟩
  have hread := @readTag_untitled _ _ _ htmlLen _ _ htake hend base s
  have hlt : ¬ htmlLen ≤ pre.length + front.length + tag.length := by
    rw [hlen]
    simp only [List.length_append, List.length_cons]
    omega
  rw [hfound, textStep, if_neg hlt]
  by_cases hc : IsClosing tag
  · rw [if_pos (hclosing.mpr hc), if_pos hc]
    rfl
  · rw [if_neg (mt hclosing.mp hc), if_neg hc]
    have hmap : ∀ (x : Except HtmlFault HtmlScan) (i : Nat),
        (x >>= fun s => pure (some { s with i := i })).map (Option.map HtmlScan.untitled) =
          (x.map HtmlScan.untitled).map fun s => some { s with i := i } := by
      intro x i
      cases x <;> rfl
    rw [hmap, hread]
    cases s.result.untitled.actOption base (tagAction tag) <;> rfl

end Scan

/-! ## The parser does what the page asks for -/

/-- The scan is at a place of the page where it is text, or the body of a `<style>` element. -/
def AtMode (pre : List UInt8) (s : HtmlScan) : PageMode → Prop
  | .text => s.inStyle = false
  | .tag _ => False
  | .style css => s.inStyle = true ∧ s.styleStart ≤ pre.length ∧ pre.drop s.styleStart = css

section Acting

variable {base : Option CString} {r : HtmlParseResult}

@[simp] theorem hasRoom_untitled : HasRoom r.untitled ↔ HasRoom r := Iff.rfl

theorem actAll_cons (h : HasRoom r) (a : PageAction) (actions : List PageAction) :
    r.actAll base (a :: actions) = r.act base a >>= fun r => r.actAll base actions := if_pos h

theorem actAll_full (h : ¬ HasRoom r) (actions : List PageAction) :
    r.actAll base actions = .ok r := by
  cases actions with
  | nil => rfl
  | cons a actions => exact if_neg h

theorem actOn_nil (mode : PageMode) : r.actOn base ⟨[], .ok mode⟩ = .ok r := by
  change (if HasRoom r then _ else _) = _
  split <;> rfl

theorem actOn_error (h : HasRoom r) (e : HtmlFault) : r.actOn base ⟨[], .error e⟩ = .error e :=
  if_pos h

theorem actOn_full (h : ¬ HasRoom r) (reading : PageReading) :
    r.actOn base reading = .ok r := by
  rw [HtmlParseResult.actOn, actAll_full h]
  exact if_neg h

theorem actOn_behind (h : HasRoom r) (o : Option PageAction) (reading : PageReading) :
    r.actOn base (reading.behind o.toList) =
      r.actOption base o >>= fun r => r.actOn base reading := by
  cases o with
  | none => rfl
  | some a =>
    change r.actAll base (a :: reading.actions) >>= _ = _
    rw [actAll_cons h, HtmlParseResult.actOption]
    cases r.act base a <;> rfl

/-- The end of a `<style>` element adds its body. -/
theorem closeStyle_eq_act {html css : List UInt8} {styleStart i : Nat}
    (hcss : (html.drop styleStart).take (i - styleStart) = css) :
    r.closeStyle html styleStart i = r.act base (.css css) := by
  have hcut : (html.drop styleStart).take (min (i - styleStart) (htmlMaxInlineCss - 1)) =
      (css.drop 0).take (min (css.length - 0) (htmlMaxInlineCss - 1)) := by
    rw [Nat.min_comm, ← List.take_take, hcss, List.drop_zero, Nat.sub_zero,
      Nat.min_comm css.length, ← List.take_eq_take_min]
  rw [HtmlParseResult.act, HtmlParseResult.closeStyle, HtmlParseResult.closeStyle, hcut]

end Acting

theorem exists_of_map_some {α β : Type} {x : Except HtmlFault (Option α)} {f : α → β} {b : β}
    (h : x.map (Option.map f) = .ok (some b)) : ∃ a, x = .ok (some a) ∧ f a = b := by
  cases x with
  | error e => cases h
  | ok o =>
    cases o with
    | none => cases h
    | some a => exact ⟨a, rfl, Option.some.inj (Except.ok.inj h)⟩

theorem eq_error_of_map {α β : Type} {x : Except HtmlFault α} {f : α → β} {e : HtmlFault}
    (h : x.map f = .error e) : x = .error e := by
  cases x with
  | error e' => exact congrArg Except.error (Except.error.inj h)
  | ok a => cases h

/-- Where the scan is behind a tag. -/
theorem atMode_behind {tag pre : List UInt8} {s next : HtmlScan} {r : HtmlParseResult}
    {tagEnd : Nat} (hnext : next.untitled = { s.behind tag tagEnd r with i := tagEnd + 1 })
    (hplace : tagEnd + 1 = pre.length) (hstyle : s.inStyle = false) :
    next.result.untitled = r ∧ AtMode pre next (modeBehind tag) := by
  rw [modeBehind]
  by_cases hopens : opensStyle tag = true
  · rw [behind_of_opens hopens] at hnext
    rw [if_pos hopens]
    have hstart : next.styleStart = pre.length :=
      (congrArg HtmlScan.styleStart hnext).trans hplace
    exact ⟨congrArg HtmlScan.result hnext, congrArg HtmlScan.inStyle hnext, hstart.le,
      by rw [hstart, List.drop_length]⟩
  · rw [behind_of_not_opens (Bool.eq_false_iff.mpr hopens)] at hnext
    rw [if_neg hopens]
    exact ⟨congrArg HtmlScan.result hnext, (congrArg HtmlScan.inStyle hnext).trans hstyle⟩

/-- One pass over what is left of a page: it is read to its end, a comparison leaves the memory, or
a piece of it asks for something, which fails or is done. -/
inductive Passes (base : Option CString) (after pre page : List UInt8) (mode : PageMode)
    (s : HtmlScan) : Except HtmlFault (Option HtmlScan) → Prop
  | done {mode' : PageMode} : readPage after mode page = ⟨[], .ok mode'⟩ →
      Passes base after pre page mode s (.ok none)
  | leaves {e : HtmlFault} : readPage after mode page = ⟨[], .error e⟩ →
      Passes base after pre page mode s (.error e)
  | fails {o : Option PageAction} {reading : PageReading} {e : HtmlFault} :
      readPage after mode page = reading.behind o.toList →
      s.result.untitled.actOption base o = .error e →
      Passes base after pre page mode s (.error e)
  | goesOn {o : Option PageAction} {seen rest : List UInt8} {mode' : PageMode} {next : HtmlScan} :
      page = seen ++ rest → seen ≠ [] →
      readPage after mode page = (readPage after mode' rest).behind o.toList →
      s.result.untitled.actOption base o = .ok next.result.untitled →
      next.i = (pre ++ seen).length → AtMode (pre ++ seen) next mode' →
      Passes base after pre page mode s (.ok (some next))

section Passing

variable {base : Option CString} {after pre page : List UInt8} {s : HtmlScan}

/-- A pass over a whole tag. -/
theorem passes_tag {mode : PageMode} {seen rest tag : List UInt8} {tagEnd : Nat}
    {step : Except HtmlFault (Option HtmlScan)} (hpage : page = seen ++ rest) (hne : seen ≠ [])
    (hplace : tagEnd + 1 = (pre ++ seen).length) (hstyle : s.inStyle = false)
    (hread : readPage after mode page = if IsClosing tag then readPage after .text rest
      else (readPage after (modeBehind tag) rest).behind (tagAction tag).toList)
    (hstep : step.map (Option.map HtmlScan.untitled) =
      if IsClosing tag then .ok (some { s.untitled with i := tagEnd + 1 })
      else (s.result.untitled.actOption base (tagAction tag)).map fun r =>
        some { s.behind tag tagEnd r with i := tagEnd + 1 }) :
    Passes base after pre page mode s step := by
  by_cases hclosing : IsClosing tag
  · rw [if_pos hclosing] at hstep hread
    obtain ⟨next, rfl, hnext⟩ : ∃ next, step = .ok (some next) ∧ next.untitled =
        { s.untitled with i := tagEnd + 1 } := exists_of_map_some hstep
    have hresult : next.result.untitled = s.result.untitled := congrArg HtmlScan.result hnext
    exact .goesOn (o := none) hpage hne hread (congrArg Except.ok hresult.symm)
      ((congrArg HtmlScan.i hnext).trans hplace) ((congrArg HtmlScan.inStyle hnext).trans hstyle)
  · rw [if_neg hclosing] at hstep hread
    cases hact : s.result.untitled.actOption base (tagAction tag) with
    | error e =>
      rw [hact] at hstep
      rw [eq_error_of_map hstep]
      exact .fails hread hact
    | ok r =>
      rw [hact] at hstep
      obtain ⟨next, rfl, hnext⟩ : ∃ next, step = .ok (some next) ∧ next.untitled =
          { s.behind tag tagEnd r with i := tagEnd + 1 } := exists_of_map_some hstep
      obtain ⟨hresult, hmode⟩ := atMode_behind hnext hplace hstyle
      exact .goesOn hpage hne hread (hact.trans (congrArg Except.ok hresult.symm))
        ((congrArg HtmlScan.i hnext).trans hplace) hmode

/-- In text, a pass goes behind the next tag. -/
theorem scanStep_passes_text (hi : s.i = pre.length) (hstyle : s.inStyle = false)
    (hroom : HasRoom s.result) :
    Passes base after pre page .text s
      (scanStep (pre ++ (page ++ after)) (pre.length + page.length) base s) := by
  by_cases hstart : tagStart ∈ page
  swap
  · -- no tag
    have hno : ∀ b ∈ page, b ≠ tagStart := fun b hb he => hstart (he ▸ hb)
    have hread := @readPage_text after page [] hno
    rw [List.append_nil] at hread
    rw [scanStep_noTag hi hno]
    exact .done hread
  obtain ⟨front, rest, rfl, hfront⟩ := List.eq_append_cons_of_mem hstart
  have hfree : ∀ b ∈ front, b ≠ tagStart := fun b hb he => hfront (he ▸ hb)
  have hscan := @scanStep_text pre front rest after base s hi hroom hstyle hfree _ _ rfl rfl
  have hopen : readPage after .text (front ++ tagStart :: rest) =
      readPage after (.tag []) (tagStart :: rest) := by
    rw [readPage_text hfree, readPage, readPage, if_pos rfl, if_neg (by decide)]
    rfl
  by_cases hstop : tagStop ∈ tagStart :: rest
  swap
  · -- a tag that does not end
    have hno : ∀ b ∈ tagStart :: rest, b ≠ tagStop := fun b hb he => hstop (he ▸ hb)
    have hread := @readPage_tag after _ [] hno []
    rw [List.append_nil] at hread
    rw [hscan, textStep_open hno rfl rfl]
    exact .done (hopen.trans hread)
  obtain ⟨tag, rest', hsplit, htag⟩ := List.eq_append_cons_of_mem hstop
  have hfree' : ∀ b ∈ tag, b ≠ tagStop := fun b hb he => htag (he ▸ hb)
  rw [hsplit] at hscan hopen ⊢
  have hstep := @textStep_tag pre front rest' after base s tag hfree' _ _ rfl rfl
  rw [← hscan] at hstep
  rw [readPage_tag hfree', List.nil_append, readPage, if_pos rfl] at hopen
  -- the place behind the tag
  have hseen : front ++ (tag ++ tagStop :: rest') = front ++ (tag ++ [tagStop]) ++ rest' := by simp
  have hplace : pre.length + front.length + tag.length + 1 =
      (pre ++ (front ++ (tag ++ [tagStop]))).length := by
    simp only [List.length_append, List.length_singleton]
    omega
  exact passes_tag hseen (by simp) hplace hstyle hopen hstep

/-- In a `<style>` element, it goes behind the next `<`. -/
theorem scanStep_passes_style {css : List UInt8} (hi : s.i = pre.length)
    (hmode : AtMode pre s (.style css)) (hroom : HasRoom s.result) :
    Passes base after pre page (.style css) s
      (scanStep (pre ++ (page ++ after)) (pre.length + page.length) base s) := by
  obtain ⟨hstyle, hle, hcss⟩ := hmode
  by_cases hstart : tagStart ∈ page
  swap
  · -- it does not end
    have hno : ∀ b ∈ page, b ≠ tagStart := fun b hb he => hstart (he ▸ hb)
    have hread := @readPage_style after page [] hno css
    rw [List.append_nil] at hread
    rw [scanStep_noTag hi hno]
    exact .done hread
  obtain ⟨front, rest, rfl, hfront⟩ := List.eq_append_cons_of_mem hstart
  have hfree : ∀ b ∈ front, b ≠ tagStart := fun b hb he => hfront (he ▸ hb)
  have hread := @readPage_style after front (tagStart :: rest) hfree css
  rw [readPage] at hread
  rw [scanStep_style hi hroom hstyle hfree rfl rfl]
  -- the place behind the `<`
  have hseen : front ++ tagStart :: rest = front ++ [tagStart] ++ rest := List.append_cons _ _ _
  have hne : front ++ [tagStart] ≠ [] := List.append_ne_nil_of_right_ne_nil _ (List.cons_ne_nil _ _)
  have hplace : pre.length + front.length + 1 = (pre ++ (front ++ [tagStart])).length := by
    simp only [List.length_append, List.length_singleton]
    omega
  cases hstarts : startsWithCase (tagStart :: (rest ++ after)) styleEnd with
  | error e =>
    rw [hstarts] at hread
    exact .leaves hread
  | ok closes =>
    rw [hstarts] at hread
    cases closes with
    | false =>
      refine @Passes.goesOn _ _ _ _ _ s none _ rest (.style (css ++ front ++ [tagStart]))
        { s with i := pre.length + front.length + 1 } hseen hne hread rfl hplace
        ⟨hstyle, hle.trans (by simp), ?_⟩
      change (pre ++ (front ++ [tagStart])).drop s.styleStart = _
      rw [List.drop_append_of_le_length hle, hcss, List.append_assoc]
    | true =>
      have hbody : ((pre ++ (front ++ tagStart :: rest ++ after)).drop s.styleStart).take
          (pre.length + front.length - s.styleStart) = css ++ front := by
        rw [List.drop_append_of_le_length hle, hcss, List.append_assoc, ← List.append_assoc css]
        refine List.take_left' ?_
        rw [List.length_append, ← hcss, List.length_drop]
        omega
      have hact := closeStyle_untitled s.result (pre ++ (front ++ tagStart :: rest ++ after))
        s.styleStart (pre.length + front.length)
      rw [@closeStyle_eq_act base s.result.untitled _ _ _ _ hbody] at hact
      cases hclose : s.result.closeStyle (pre ++ (front ++ tagStart :: rest ++ after)) s.styleStart
          (pre.length + front.length) with
      | error e =>
        rw [hclose] at hact
        exact .fails (o := some (.css (css ++ front))) hread hact.symm
      | ok r =>
        rw [hclose] at hact
        exact .goesOn (o := some (.css (css ++ front))) hseen hne hread hact.symm hplace rfl

/-- **One pass** does what the next piece of the page asks for. -/
theorem scanStep_passes {mode : PageMode} (hi : s.i = pre.length) (hmode : AtMode pre s mode)
    (hroom : HasRoom s.result) :
    Passes base after pre page mode s
      (scanStep (pre ++ (page ++ after)) (pre.length + page.length) base s) := by
  cases mode with
  | text => exact scanStep_passes_text hi hmode hroom
  | tag seen => exact absurd hmode id
  | style css => exact scanStep_passes_style hi hmode hroom

end Passing

/-- **The loop** does what is left of the page. -/
theorem scanLoop_eq (base : Option CString) (after : List UInt8) (fuel : Nat) :
    ∀ {pre page : List UInt8} {s : HtmlScan} {mode : PageMode}, page.length < fuel →
      s.i = pre.length → AtMode pre s mode →
      (scanLoop (pre ++ (page ++ after)) (pre.length + page.length) base fuel s).map
          (·.result.untitled) =
        s.result.untitled.actOn base (readPage after mode page) := by
  induction fuel with
  | zero => exact fun hfuel => absurd hfuel (Nat.not_lt_zero _)
  | succ fuel ih =>
    intro pre page s mode hfuel hi hmode
    rw [scanLoop]
    by_cases hroom : HasRoom s.result
    swap
    · rw [scanStep_full _ _ hroom, actOn_full (r := s.result.untitled) hroom]
      rfl
    have hpasses := @scanStep_passes base after pre page s mode hi hmode hroom
    generalize scanStep (pre ++ (page ++ after)) (pre.length + page.length) base s = step
      at hpasses
    cases hpasses with
    | done hread =>
      rw [hread, actOn_nil]
      rfl
    | leaves hread =>
      rw [hread, actOn_error (r := s.result.untitled) hroom]
      rfl
    | fails hread hact =>
      rw [hread, actOn_behind (r := s.result.untitled) hroom, hact]
      rfl
    | @goesOn o seen rest mode' next hpage hne hread hact hi' hmode' =>
      have hlen := congrArg List.length hpage
      rw [List.length_append] at hlen
      have hpos := List.length_pos_iff.mpr hne
      rw [hread, actOn_behind (r := s.result.untitled) hroom, hact]
      have hrest := @ih (pre ++ seen) rest next mode' (by omega) hi' hmode'
      rw [List.length_append, Nat.add_assoc, ← hlen, List.append_assoc, ← List.append_assoc seen,
        ← hpage] at hrest
      exact hrest

/-- **The parser** does what the page asks for. -/
theorem htmlParse_eq {page after : List UInt8} {htmlLen : Nat}
    (hlen : pageLen (page ++ after) htmlLen = .ok page.length) (base : Option CString) :
    (htmlParse (page ++ after) htmlLen base).map HtmlParseResult.untitled =
      HtmlParseResult.zero.actOn base (readPage after .text page) := by
  have hloop := @scanLoop_eq base after (page.length + 1) [] page ⟨0, false, 0, .zero⟩ .text
    (Nat.lt_succ_self _) rfl rfl
  rw [List.nil_append, List.length_nil, Nat.zero_add] at hloop
  rw [htmlParse, hlen]
  refine Eq.trans ?_ hloop
  change Except.map _ (scanLoop (page ++ after) page.length base (page.length + 1)
    ⟨0, false, 0, .zero⟩ >>= fun s => pure s.result) = _
  rw [map_bind]
  cases scanLoop (page ++ after) page.length base (page.length + 1) ⟨0, false, 0, .zero⟩ <;> rfl

/-- The length is given, or the page ends at its terminator. -/
theorem pageLen_given {page after : List UInt8} (h : page ≠ []) :
    pageLen (page ++ after) page.length = .ok page.length := by
  rw [pageLen, if_neg (mt List.eq_nil_of_length_eq_zero h), if_neg
    (mt List.eq_nil_of_length_eq_zero h), if_pos (by simp)]

end DsoBrowser

import DsoBrowser.Lib.SideBySide
import DsoBrowser.NameParse
import DsoBrowser.PageFetch

/-!
# Where relative links lead

`html_resolve_url` puts a relative URL in place of what follows the last `/` of the base. The
browser gives the parser the page's whole path as base, and `dso_psirp_task_parse` its first
component, which has no `/` at all.

Parses of one page with two bases find the same resources and differ in their names only
(`alike_htmlParse`), and each name is what `html_resolve_url` makes of the URL with that parse's
base (`NamedBy`). So the two namings can be compared one by one.
-/

namespace DsoBrowser

open SideBySide

universe u

/-! ## Relative URLs -/

/-- Neither a path from the root nor a URL with a scheme. -/
structure RelativeUrl (url : CString) : Prop where
  ne_nil : url ≠ []
  noSlash : url.head? ≠ some slash
  noHttp : hasScheme http url = false
  noHttps : hasScheme https url = false

/-- The URL in the directory of the page with these components. -/
def besidePage (components : List CString) (url : CString) : CString :=
  pathOf components.dropLast ++ slash :: url

theorem head?_besidePage (components : List CString) (url : CString) :
    (besidePage components url).head? = some slash := by
  rw [besidePage]
  cases components.dropLast <;> rfl

/-! ## The last slash -/

theorem lastSlashLoop_of_notMem {cs : CString} (h : slash ∉ cs) :
    ∀ i last, lastSlashLoop i last cs = last := by
  induction cs with
  | nil => exact fun _ _ => rfl
  | cons c cs ih =>
    rw [List.mem_cons, not_or] at h
    obtain ⟨hc, hcs⟩ := h
    intro i last
    rw [lastSlashLoop, if_neg (Ne.symm hc), ih hcs]

theorem lastSlashLoop_append {cs : CString} (h : slash ∉ cs) (pre : CString) :
    ∀ i last, lastSlashLoop i last (pre ++ slash :: cs) = i + pre.length := by
  induction pre with
  | nil =>
    intro i last
    rw [List.nil_append, lastSlashLoop, if_pos rfl, lastSlashLoop_of_notMem h]
    rfl
  | cons c pre ih =>
    intro i last
    rw [List.cons_append, lastSlashLoop, ih, List.length_cons]
    omega

/-- A base without a slash counts as one that starts with it. -/
theorem lastSlash_of_notMem {cs : CString} (h : slash ∉ cs) : lastSlash cs = 0 :=
  lastSlashLoop_of_notMem h 0 0

theorem lastSlash_append {cs : CString} (h : slash ∉ cs) (pre : CString) :
    lastSlash (pre ++ slash :: cs) = pre.length := by
  rw [lastSlash, lastSlashLoop_append h, Nat.zero_add]

/-! ## What a relative URL is resolved to -/

/-- The resource's name is its URL as resolved against the base. -/
def NamedBy (base : Option CString) (res : HtmlResource) : Prop :=
  ∃ len bytes, htmlResolveUrl base res.rawUrl htmlMaxAttrLen = .ok (len, bytes) ∧
    res.name = CString.ofBytes bytes

/-- The relative branch of `html_resolve_url`. -/
theorem NamedBy.name_eq {base : CString} {res : HtmlResource} (h : NamedBy (some base) res)
    (hrel : RelativeUrl res.rawUrl) : res.name = CString.ofBytes
      (((base.bytes ++ [0]).take (lastSlash base + 1) ++ res.rawUrl.bytes).take
        (min (lastSlash base + 1 + res.rawUrl.length) (htmlMaxAttrLen - 1)) ++ [0]) := by
  obtain ⟨len, bytes, hresolve, hname⟩ := h
  rw [htmlResolveUrl, if_neg (by decide), if_neg (by simp [hrel.noHttp]),
    if_neg (by simp [hrel.noHttps]), if_neg hrel.noSlash] at hresolve
  dsimp only at hresolve
  split at hresolve
  · cases hresolve
    exact hname
  · exact nomatch hresolve

/-- Against the path of a page, a relative URL is resolved to the name beside the page. -/
theorem NamedBy.name_eq_besidePage {components : List CString} {res : HtmlResource}
    (h : NamedBy (some (pathOf components)) res) (hne : components ≠ [])
    (hslash : ∀ c ∈ components, slash ∉ c) (hrel : RelativeUrl res.rawUrl)
    (hlen : (besidePage components res.rawUrl).length < htmlMaxAttrLen) :
    res.name = besidePage components res.rawUrl := by
  obtain ⟨dir, page, rfl⟩ := List.eq_nil_or_concat components |>.resolve_left hne
  have hpath : pathOf (dir ++ [page]) = pathOf dir ++ slash :: page := by
    rw [pathOf_append, pathOf_cons, pathOf_nil, List.append_nil]
  have hlast : lastSlash (pathOf dir ++ slash :: page) = (pathOf dir).length :=
    lastSlash_append (hslash page (by simp)) _
  have hprefix : (CString.bytes (pathOf dir ++ slash :: page) ++ [0]).take
      ((pathOf dir).length + 1) = CString.bytes (pathOf dir ++ [slash]) := by
    simp [CString.bytes, List.take_append]
  rw [List.concat_eq_append] at h hlen ⊢
  rw [besidePage, List.dropLast_concat, List.length_append, List.length_cons] at hlen
  rw [hpath] at h
  rw [besidePage, List.dropLast_concat, h.name_eq hrel, hlast, hprefix,
    Nat.min_eq_left (by omega), List.take_of_length_le]
  · have hbytes : CString.bytes (pathOf dir ++ [slash]) ++ res.rawUrl.bytes =
        CString.bytes (pathOf dir ++ slash :: res.rawUrl) := by simp [CString.bytes]
    rw [hbytes, CString.ofBytes_bytes_append]
  · rw [List.length_append, CString.length_bytes, CString.length_bytes, List.length_append]
    simp

/-- Against a base without a slash, it is resolved to a name that starts with none. -/
theorem NamedBy.head?_ne_slash {base : CString} {res : HtmlResource}
    (h : NamedBy (some base) res) (hslash : slash ∉ base) (hrel : RelativeUrl res.rawUrl) :
    res.name.head? ≠ some slash := by
  rw [h.name_eq hrel, lastSlash_of_notMem hslash]
  have hpos : 0 < min (0 + 1 + res.rawUrl.length) (htmlMaxAttrLen - 1) := by
    rw [htmlMaxAttrLen]
    omega
  obtain ⟨n, hn⟩ := Nat.exists_eq_add_of_lt hpos
  rw [hn, Nat.zero_add]
  cases base with
  | nil => exact nofun
  | cons c base =>
    have hc : c ≠ slash := fun he => hslash (he ▸ List.mem_cons_self)
    change (CString.ofBytes (c.val :: _)).head? ≠ some slash
    rw [CString.ofBytes, dif_neg c.property]
    exact fun he => hc (Option.some.inj he)

/-! ## Two parses of one page -/

/-- What two parses with different bases find at one place of the page. -/
structure SameLink (base base' : Option CString) (res res' : HtmlResource) : Prop where
  type : res.type = res'.type
  rawUrl : res.rawUrl = res'.rawUrl
  named : res.type ≠ .inlineCss → NamedBy base res ∧ NamedBy base' res'

/-- Two results that agree but for the names. -/
structure SameResult (base base' : Option CString) (r r' : HtmlParseResult) : Prop where
  resources : List.Forall₂ (SameLink base base') r.resources r'.resources
  rest : { r with resources := [] } = { r' with resources := [] }

/-- Two scans that are at the same place of the page. -/
structure SameScan (base base' : Option CString) (s s' : HtmlScan) : Prop where
  i : s.i = s'.i
  inStyle : s.inStyle = s'.inStyle
  styleStart : s.styleStart = s'.styleStart
  result : SameResult base base' s.result s'.result

variable {base base' : Option CString}

namespace SameResult

variable {r r' : HtmlParseResult}

theorem zero : SameResult base base' HtmlParseResult.zero HtmlParseResult.zero := ⟨.nil, rfl⟩

theorem push (h : SameResult base base' r r') {res res' : HtmlResource}
    (hres : SameLink base base' res res') : SameResult base base' (r.push res) (r'.push res') :=
  ⟨List.rel_append h.resources (.cons hres .nil), h.rest⟩

theorem inlineCssBuf (h : SameResult base base' r r') : r.inlineCssBuf = r'.inlineCssBuf :=
  (congrArg HtmlParseResult.inlineCssBuf h.rest :)

theorem inlineCssLen (h : SameResult base base' r r') : r.inlineCssLen = r'.inlineCssLen :=
  (congrArg HtmlParseResult.inlineCssLen h.rest :)

/-- A change that has nothing to do with the resources. -/
theorem update (h : SameResult base base' r r') (f : HtmlParseResult → HtmlParseResult)
    (hres : ∀ r, (f r).resources = r.resources)
    (hrest : ∀ r, { f r with resources := [] } =
      { f { r with resources := [] } with resources := [] }) :
    SameResult base base' (f r) (f r') := by
  refine ⟨?_, ?_⟩
  · rw [hres, hres]
    exact h.resources
  · rw [hrest, h.rest, ← hrest]

theorem refer (h : SameResult base base' r r') (type : HtmlResourceType) (url : CString) :
    Alike (SameResult base base') (r.refer type base url) (r'.refer type base' url) := by
  refine .ite Iff.rfl (fun _ => .ok h) fun _ => ?_
  have hresolve : Alike (fun a b => htmlResolveUrl base url htmlMaxAttrLen = .ok a ∧
      htmlResolveUrl base' url htmlMaxAttrLen = .ok b)
      (htmlResolveUrl base url htmlMaxAttrLen) (htmlResolveUrl base' url htmlMaxAttrLen) :=
    fun _ _ ha hb => ⟨ha, hb⟩
  refine hresolve.bind fun ⟨len, bytes⟩ ⟨len', bytes'⟩ ⟨ha, hb⟩ => .ok (h.push ?_)
  exact ⟨rfl, rfl, fun _ => ⟨⟨len, bytes, ha, rfl⟩, ⟨len', bytes', hb, rfl⟩⟩⟩

theorem setBase (h : SameResult base base' r r') (href : CString) :
    Alike (SameResult base base') (r.setBase href) (r'.setBase href) := by
  refine .ite Iff.rfl (fun _ => .ok h) fun _ => ?_
  rw [h.inlineCssBuf]
  exact .bind_same _ fun buf => .ok (h.update (fun r => { r with
    baseHref := some 0
    baseHrefLen := (href.take (htmlMaxInlineCss - 1)).length
    inlineCssBuf := buf }) (fun _ => rfl) fun _ => rfl)

theorem closeStyle (h : SameResult base base' r r') (html : List UInt8) (styleStart i : Nat) :
    Alike (SameResult base base') (r.closeStyle html styleStart i)
      (r'.closeStyle html styleStart i) := by
  rw [HtmlParseResult.closeStyle, HtmlParseResult.closeStyle, h.inlineCssBuf, h.inlineCssLen]
  refine .bind_same _ fun buf => .ok ?_
  have hlink (len : Nat) : SameLink base base' ⟨.inlineCss, [], [], some r'.inlineCssLen, len⟩
      ⟨.inlineCss, [], [], some r'.inlineCssLen, len⟩ := ⟨rfl, rfl, fun hne => absurd rfl hne⟩
  exact (h.push (hlink _)).update (fun r => { r with
    inlineCssBuf := buf
    inlineCssLen := r'.inlineCssLen + _ }) (fun _ => rfl) fun _ => rfl

end SameResult

/-- What a tag adds does not depend on the base but for the name. -/
theorem SameScan.readTag {s s' : HtmlScan} (h : SameScan base base' s s') (html : List UInt8)
    (htmlLen i tagEnd : Nat) :
    Alike (SameScan base base') (readTag html htmlLen base i tagEnd s)
      (readTag html htmlLen base' i tagEnd s') := by
  have hwith {r r' : HtmlParseResult} (hr : SameResult base base' r r') :
      SameScan base base' { s with result := r } { s' with result := r' } :=
    ⟨h.i, h.inStyle, h.styleStart, hr⟩
  have hrefer (type : HtmlResourceType) (url : CString) :
      Alike (SameScan base base')
        (do return { s with result := ← s.result.refer type base url })
        (do return { s' with result := ← s'.result.refer type base' url }) :=
    (h.result.refer type url).bind fun _ _ hr => .ok (hwith hr)
  unfold DsoBrowser.readTag
  dsimp only
  refine .ite Iff.rfl (fun _ => ?title) fun _ => .ite Iff.rfl (fun _ => ?base) fun _ =>
    .ite Iff.rfl (fun _ => ?link) fun _ => .ite Iff.rfl (fun _ => ?script) fun _ =>
    .ite Iff.rfl (fun _ => ?img) fun _ => .ite Iff.rfl (fun _ => ?a) fun _ =>
    .ite Iff.rfl (fun _ => ?style) fun _ => ?other
  case title =>
    exact .ok (hwith (h.result.update (fun r => { r with
      title := some (tagEnd + 1), titleLen := _ }) (fun _ => rfl) fun _ => rfl))
  case base =>
    exact .bind_same _ fun href => (h.result.setBase href).bind fun _ _ hr => .ok (hwith hr)
  case link =>
    exact .bind_same _ fun rel => .bind_same _ fun href => hrefer _ href
  case script => exact .bind_same _ fun src => hrefer .script src
  case img => exact .bind_same _ fun src => hrefer .image src
  case a => exact .bind_same _ fun href => hrefer .link href
  case style => exact .ok ⟨h.i, rfl, rfl, h.result⟩
  case other => exact .ok h

theorem SameScan.scanStep {s s' : HtmlScan} (h : SameScan base base' s s') (html : List UInt8)
    (htmlLen : Nat) :
    Alike (Option.Rel (SameScan base base')) (scanStep html htmlLen base s)
      (scanStep html htmlLen base' s') := by
  have hlen : s.result.resources.length = s'.result.resources.length :=
    h.result.resources.length_eq
  obtain ⟨i, inStyle, styleStart, r⟩ := s
  obtain ⟨i', inStyle', styleStart', r'⟩ := s'
  obtain ⟨rfl, rfl, rfl, hr⟩ := h
  unfold DsoBrowser.scanStep
  dsimp only at hlen hr ⊢
  rw [hlen]
  refine .ite Iff.rfl (fun _ => .ok .none) fun _ => .ite Iff.rfl (fun _ => .ok .none) fun _ =>
    .ite Iff.rfl (fun _ => ?inStyle) fun _ => .ite Iff.rfl (fun _ => .ok .none) fun _ =>
    .ite Iff.rfl (fun _ => ?closing) fun _ => ?tag
  case inStyle =>
    refine .bind_same _ fun closes => .ite Iff.rfl (fun _ => ?_) fun _ =>
      .ok (.some ⟨rfl, rfl, rfl, hr⟩)
    exact (hr.closeStyle html styleStart _).bind fun _ _ hr' => .ok (.some ⟨rfl, rfl, rfl, hr'⟩)
  case closing => exact .ok (.some ⟨rfl, rfl, rfl, hr⟩)
  case tag =>
    have hs : SameScan base base' ⟨i, inStyle, styleStart, r⟩ ⟨i, inStyle, styleStart, r'⟩ :=
      ⟨rfl, rfl, rfl, hr⟩
    exact (hs.readTag html htmlLen _ _).bind fun _ _ h' =>
      .ok (.some ⟨rfl, h'.inStyle, h'.styleStart, h'.result⟩)

theorem SameScan.scanLoop (html : List UInt8) (htmlLen fuel : Nat) :
    ∀ {s s' : HtmlScan}, SameScan base base' s s' →
      Alike (SameScan base base') (scanLoop html htmlLen base fuel s)
        (scanLoop html htmlLen base' fuel s') := by
  induction fuel with
  | zero => exact fun h => .ok h
  | succ fuel ih =>
    intro s s' h
    refine (h.scanStep html htmlLen).bind fun next next' hnext => ?_
    cases hnext with
    | none => exact .ok h
    | some hnext => exact ih hnext

/-- **Parses of one page with two bases** find the same resources and name each by their own
base. -/
theorem alike_htmlParse (html : List UInt8) (htmlLen : Nat) (base base' : Option CString) :
    Alike (SameResult base base') (htmlParse html htmlLen base) (htmlParse html htmlLen base') :=
  .bind_same _ fun len =>
    (SameScan.scanLoop html len (len + 1) ⟨rfl, rfl, rfl, .zero⟩).bind fun _ _ h => .ok h.result

/-- What is found is named by the base. -/
theorem namedBy_of_htmlParse {html : List UInt8} {htmlLen : Nat} {result : HtmlParseResult}
    (h : htmlParse html htmlLen base = .ok result) {res : HtmlResource}
    (hres : res ∈ result.resources) (htype : res.type ≠ .inlineCss) : NamedBy base res := by
  have hsame := (alike_htmlParse html htmlLen base base result result h h).resources
  have hall : ∀ res ∈ result.resources, SameLink base base res res := List.forall₂_same.mp hsame
  exact ((hall res hres).named htype).1

/-! ## The links of a fetched page -/

/-- A link that is relative and whose name beside the page fits its buffer. -/
structure RelativeLink (components : List CString) (res : HtmlResource) : Prop where
  notInline : res.type ≠ .inlineCss
  relative : RelativeUrl res.rawUrl
  fits : (besidePage components res.rawUrl).length < htmlMaxAttrLen

/-- Every relative link leads beside the page. -/
def LinksBeside (components : List CString) (result : HtmlParseResult) : Prop :=
  ∀ res ∈ result.resources, RelativeLink components res →
    res.name = besidePage components res.rawUrl

/-- With the page's path as base, it does. -/
theorem linksBeside_htmlParse {components : List CString} (hne : components ≠ [])
    (hslash : ∀ c ∈ components, slash ∉ c) {html : List UInt8} {htmlLen : Nat}
    {result : HtmlParseResult}
    (hparse : htmlParse html htmlLen (some (pathOf components)) = .ok result) :
    LinksBeside components result := by
  intro res hres hlink
  have hnamed := namedBy_of_htmlParse hparse hres hlink.notInline
  exact hnamed.name_eq_besidePage hne hslash hlink.relative hlink.fits

variable {ν : Type u} {node : PageNode ν}

/-- **No relative link of a fetched page leads beside the page**, whatever the page's name. Where
the parser can also be run with the page's path as base, it finds the same links and leads each
beside the page. -/
theorem not_beside_of_dsoPsirpTaskParse {ctx ctx' : DsoPsirpCtx ν} {item : DsoPsirpContent}
    (hname : Parsed ctx.pageName) (hne : ctx.pageName.components ≠ [])
    (hpage : ctx.page = some item) (hrun : dsoPsirpTaskParse node ctx = .ok ctx') :
    (∀ res ∈ ctx'.htmlResult.resources, RelativeLink ctx.pageName.components res →
      res.name ≠ besidePage ctx.pageName.components res.rawUrl) ∧
    ∀ result, htmlParse (ctx.bytesOf item) (ctx.bytesOf item).length
        (some (pathOf ctx.pageName.components)) = .ok result →
      LinksBeside ctx.pageName.components result ∧
      List.Forall₂ (fun res res' => res.type = res'.type ∧ res.rawUrl = res'.rawUrl)
        ctx'.htmlResult.resources result.resources := by
  have hslash : ∀ c ∈ ctx.pageName.components, slash ∉ c :=
    fun c hc => (hname.wellFormed.plain c hc).noSlash
  obtain ⟨first, rest, hcomponents⟩ := List.exists_cons_of_ne_nil hne
  have hbase : pageBase ctx.pageName = first := by
    rw [pageBase, hcomponents]
    rfl
  have hparse : htmlParse (ctx.bytesOf item) (ctx.bytesOf item).length (some first) =
      .ok ctx'.htmlResult := by
    rw [dsoPsirpTaskParse, hpage, hbase] at hrun
    dsimp only at hrun
    split at hrun
    next => cases hrun
    next =>
      cases hresult : htmlParse (ctx.bytesOf item) (ctx.bytesOf item).length (some first) with
      | error f =>
        rw [hresult] at hrun
        cases hrun
      | ok result =>
        rw [hresult] at hrun
        cases hrun
        rfl
  constructor
  · intro res hres hlink hbeside
    have hfirst : slash ∉ first := hslash first (hcomponents ▸ List.mem_cons_self)
    have hnamed := namedBy_of_htmlParse hparse hres hlink.notInline
    exact hnamed.head?_ne_slash hfirst hlink.relative (hbeside ▸ head?_besidePage _ _)
  · intro result hresult
    have hsame := (alike_htmlParse _ _ _ _ _ _ hparse hresult).resources
    exact ⟨linksBeside_htmlParse hne hslash hresult, hsame.imp fun _ _ h => ⟨h.type, h.rawUrl⟩⟩

/-! ## A page with an image -/

/-- `/site/p.html` -/
def siteName : PsirpName :=
  (psirpNameInit (text ['/', 's', 'i', 't', 'e', '/', 'p', '.', 'h', 't', 'm', 'l'])).2

theorem parsed_siteName : Parsed siteName :=
  ⟨text ['/', 's', 'i', 't', 'e', '/', 'p', '.', 'h', 't', 'm', 'l'], by decide +kernel⟩

/-- A node that has nothing else. -/
def siteNode : PageNode Unit := answering (fun _ => none) fun net _ => net

/-- A context in which it is the main page, with this body. -/
def sitePage (body : List UInt8) : DsoPsirpCtx Unit :=
  { dsoPsirpCtxInit () true with
    items := [⟨siteName, .html, .stored 0 body, true⟩], pageName := siteName, pageHtml := some 0 }

/-- `<img src=x>` -/
def imageBody : List UInt8 :=
  (text ['<', 'i', 'm', 'g', ' ', 's', 'r', 'c', '=', 'x', '>']).bytes

/-- What the parser finds in it with the base it is given. -/
theorem links_sitePage :
    (dsoPsirpTaskParse siteNode (sitePage imageBody)).map (·.htmlResult.resources) =
      .ok [⟨.image, text ['s', 'x'], text ['x'], none, 0⟩] := by decide +kernel

theorem exists_dsoPsirpTaskParse_sitePage : ∃ ctx',
    dsoPsirpTaskParse siteNode (sitePage imageBody) = .ok ctx' ∧
    ctx'.htmlResult.resources = [⟨.image, text ['s', 'x'], text ['x'], none, 0⟩] := by
  have h := links_sitePage
  cases hrun : dsoPsirpTaskParse siteNode (sitePage imageBody) with
  | error f =>
    rw [hrun] at h
    exact nomatch h
  | ok ctx' =>
    rw [hrun] at h
    exact ⟨ctx', rfl, Except.ok.inj h⟩

/-- The image `x` of `/site/p.html` is looked for under the name `sx`, not `/site/x`. -/
theorem not_linksBeside_image : Parsed siteName ∧ ∃ ctx',
    dsoPsirpTaskParse siteNode (sitePage imageBody) = .ok ctx' ∧
      ¬ LinksBeside siteName.components ctx'.htmlResult := by
  obtain ⟨ctx', hrun, hlinks⟩ := exists_dsoPsirpTaskParse_sitePage
  refine ⟨parsed_siteName, ctx', hrun, fun h => ?_⟩
  have hlink : RelativeLink siteName.components ⟨.image, text ['s', 'x'], text ['x'], none, 0⟩ :=
    ⟨by decide, ⟨by decide, by decide, by decide, by decide⟩, by decide +kernel⟩
  have hname := h _ (hlinks ▸ List.mem_singleton_self _) hlink
  revert hname
  decide +kernel

theorem not_beside_image : ∃ ctx', dsoPsirpTaskParse siteNode (sitePage imageBody) = .ok ctx' ∧
    (∀ res ∈ ctx'.htmlResult.resources, RelativeLink siteName.components res →
      res.name ≠ besidePage siteName.components res.rawUrl) ∧
    ∀ result, htmlParse imageBody imageBody.length (some (pathOf siteName.components)) =
        .ok result →
      LinksBeside siteName.components result ∧
      List.Forall₂ (fun res res' => res.type = res'.type ∧ res.rawUrl = res'.rawUrl)
        ctx'.htmlResult.resources result.resources := by
  obtain ⟨ctx', hrun, -⟩ := exists_dsoPsirpTaskParse_sitePage
  have hne : siteName.components ≠ [] := by decide +kernel
  have hpage : (sitePage imageBody).page = some ⟨siteName, .html, .stored 0 imageBody, true⟩ := rfl
  exact ⟨ctx', hrun, not_beside_of_dsoPsirpTaskParse parsed_siteName hne hpage hrun⟩

end DsoBrowser

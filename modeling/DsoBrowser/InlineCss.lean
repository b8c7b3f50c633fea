import DsoBrowser.PageRuns

/-!
# The inline CSS buffer

The parser cuts every body of a `<style>` element to the size of the whole buffer and puts it behind
the ones before, whatever room is left there. A parse that ends has stayed inside
(`InlineInside.actAll`), and it does if and only if the bodies the parser reaches, each with its
terminator, fit the buffer together, and the names of its links fit theirs (`cssStaysInside_iff`).
-/

namespace DsoBrowser

/-- The resources and their text have their places. -/
structure InlineInside (r : HtmlParseResult) : Prop where
  /-- there are at most so many resources -/
  count : r.resources.length ≤ htmlMaxResources
  /-- the buffer is written inside -/
  buffer : r.inlineCssBuf.length ≤ htmlMaxInlineCss
  /-- the next inline CSS goes inside -/
  next : r.inlineCssLen ≤ htmlMaxInlineCss
  /-- the text of a resource and a terminator are before that -/
  ranges : ∀ res ∈ r.resources, res.type = .inlineCss →
    ∃ pos, res.inlineData = some pos ∧ pos + res.inlineLen < r.inlineCssLen

/-- The parser writes only inside the inline CSS buffer, and what it gives lies there. A name that
is written over its end is outside too: it goes over what is behind it, up to the number of
resources. -/
def CssStaysInside (html : List UInt8) (htmlLen : Nat) (base : Option CString) : Prop :=
  htmlParse html htmlLen base ≠ .error .cssWrite ∧
    htmlParse html htmlLen base ≠ .error .nameWrite ∧
    ∀ r, htmlParse html htmlLen base = .ok r → InlineInside r

/-- A URL is not empty, and asks for no inline CSS. -/
def PageAction.Proper (a : PageAction) : Prop :=
  ∀ type url, a = .refer type url → type ≠ .inlineCss ∧ url ≠ []

theorem proper_referTo {type : HtmlResourceType} (htype : type ≠ .inlineCss) {url : CString}
    {a : PageAction} (h : a ∈ referTo type url) : a.Proper := by
  rw [referTo] at h
  split at h
  · cases h
  · rename_i hurl
    cases h
    rintro type' url' he
    obtain ⟨rfl, rfl⟩ := PageAction.refer.inj he
    exact ⟨htype, hurl⟩

theorem proper_tagAction {tag : List UInt8} {a : PageAction} (h : a ∈ tagAction tag) :
    a.Proper := by
  rw [tagAction] at h
  dsimp only at h
  split at h
  · cases h
  split at h
  · split at h
    · cases h
    · cases h
      exact fun _ _ he => by cases he
  split at h
  · refine proper_referTo ?_ h
    split <;> decide
  split at h
  · exact proper_referTo (by decide) h
  split at h
  · exact proper_referTo (by decide) h
  split at h
  · exact proper_referTo (by decide) h
  · cases h

theorem proper_readPage {after page : List UInt8} : ∀ {mode : PageMode},
    ∀ a ∈ (readPage after mode page).actions, a.Proper := by
  induction page with
  | nil =>
    intro mode a h
    cases h
  | cons b page ih =>
    intro mode a h
    cases mode with
    | text =>
      rw [readPage] at h
      split at h
      · exact ih a h
      · exact ih a h
    | tag seen =>
      rw [readPage] at h
      split at h
      · split at h
        · exact ih a h
        · rcases List.mem_append.mp h with h | h
          · exact proper_tagAction (Option.mem_toList.mp h)
          · exact ih a h
      · exact ih a h
    | style css =>
      rw [readPage] at h
      split at h
      · cases h
      · rcases List.mem_append.mp h with h | h
        · rw [List.mem_singleton.mp h]
          exact fun _ _ he => by cases he
        · exact ih a h
      · exact ih a h

namespace InlineInside

variable {base : Option CString} {r r' : HtmlParseResult}

theorem zero : InlineInside HtmlParseResult.zero where
  count := Nat.zero_le _
  buffer := Nat.zero_le _
  next := Nat.zero_le _
  ranges := fun _ h => by cases h

/-- Another resource without text. -/
theorem push (h : InlineInside r) (hroom : HasRoom r) {res : HtmlResource}
    (hres : res.type ≠ .inlineCss) : InlineInside (r.push res) where
  count := by
    rw [HtmlParseResult.push, List.length_append]
    exact hroom
  buffer := h.buffer
  next := h.next
  ranges := fun x hx htype => by
    rcases List.mem_append.mp hx with hx | hx
    · exact h.ranges x hx htype
    · exact absurd htype (List.mem_singleton.mp hx ▸ hres)

/-- **One action** leaves everything inside. -/
theorem act (h : InlineInside r) (hroom : HasRoom r) {a : PageAction} (ha : a.Proper)
    (hact : r.act base a = .ok r') : InlineInside r' := by
  cases a with
  | refer type url =>
    rcases act_refer_ok hact with ⟨-, rfl⟩ | ⟨-, rfl⟩
    · exact h
    · exact h.push hroom (ha type url rfl).1
  | base href =>
    rw [act_base] at hact
    cases hact
    split
    · exact h
    · refine ⟨h.count, ?_, h.next, h.ranges⟩
      change (poked _ _ _).length ≤ _
      rw [length_poked, List.length_append, CString.length_bytes, List.length_take,
        List.length_singleton]
      have hbuf := h.buffer
      have hpos : htmlMaxInlineCss = htmlMaxInlineCss - 1 + 1 := rfl
      omega
  | css body =>
    obtain ⟨hfit, rfl⟩ := act_css_ok hact
    have hbuf := h.buffer
    refine ⟨?_, ?_, hfit, ?_⟩
    · change (r.resources ++ [_]).length ≤ _
      rw [List.length_append]
      exact hroom
    · change (poked _ _ _).length ≤ _
      rw [length_poked, List.length_append, List.length_singleton]
      omega
    · intro x hx htype
      change ∃ pos, x.inlineData = some pos ∧
        pos + x.inlineLen < r.inlineCssLen + ((keptCss body).length + 1)
      rcases List.mem_append.mp hx with hx | hx
      · obtain ⟨pos, hpos, hlt⟩ := h.ranges x hx htype
        exact ⟨pos, hpos, by omega⟩
      · rw [List.mem_singleton.mp hx]
        exact ⟨r.inlineCssLen, rfl, by dsimp only; omega⟩

/-- **All of them** do. -/
theorem actAll (actions : List PageAction) : ∀ {r : HtmlParseResult}, InlineInside r →
    (∀ a ∈ actions, a.Proper) → r.actAll base actions = .ok r' → InlineInside r' := by
  induction actions with
  | nil =>
    intro r h _ hall
    cases hall
    exact h
  | cons a actions ih =>
    intro r h hproper hall
    rcases actAll_cons_ok hall with ⟨hroom, r₁, hact, hall'⟩ | ⟨-, rfl⟩
    · exact ih (h.act hroom (hproper a List.mem_cons_self) hact)
        (fun b hb => hproper b (List.mem_cons_of_mem _ hb)) hall'
    · exact h

end InlineInside

/-! ## When everything stays inside -/

theorem nameable_iff_namesFit {base : Option CString} {actions : List PageAction}
    (hproper : ∀ a ∈ actions, a.Proper) :
    (∀ a ∈ actions, a.Nameable base) ↔ NamesFit base actions := by
  refine ⟨fun h type url hmem => ?_, fun h a ha => ?_⟩
  · exact (nameable_refer_iff (hproper _ hmem type url rfl).2).mp (h _ hmem)
  · cases a with
    | refer type url =>
      exact (nameable_refer_iff (hproper _ ha type url rfl).2).mpr (h type url ha)
    | base href => trivial
    | css body => trivial

/-- What is reached has its names and its room where all of it is done. -/
theorem fits_of_actAll {base : Option CString} {r : HtmlParseResult} {actions : List PageAction}
    (hproper : ∀ a ∈ actions, a.Proper)
    (hall : HtmlParseResult.zero.actAll base actions = .ok r) :
    NamesFit base (reached htmlMaxResources actions) ∧
      cssSize (reached htmlMaxResources actions) ≤ htmlMaxInlineCss := by
  have hnext := (InlineInside.zero.actAll actions hproper hall).next
  rw [actAll_eq] at hall
  have hlen := inlineCssLen_of_actEach _ _ hall
  change r.inlineCssLen = 0 + cssSize (reached htmlMaxResources actions) at hlen
  refine ⟨(nameable_iff_namesFit fun a ha => ?_).mp (nameable_of_actEach _ _ hall), by omega⟩
  exact hproper a ((isPrefix_reached actions _).subset ha)

/-- Where it has them, it is done. -/
theorem exists_actAll_of_fits {base : Option CString} {actions : List PageAction}
    (hproper : ∀ a ∈ actions, a.Proper)
    (hnames : NamesFit base (reached htmlMaxResources actions))
    (hfit : cssSize (reached htmlMaxResources actions) ≤ htmlMaxInlineCss) :
    ∃ r, HtmlParseResult.zero.actAll base actions = .ok r := by
  have hname := (nameable_iff_namesFit fun a ha =>
    hproper a ((isPrefix_reached actions htmlMaxResources).subset ha)).mpr hnames
  obtain ⟨r, hrun⟩ := exists_actEach (r := .zero) hname ((Nat.zero_add _).trans_le hfit)
  exact ⟨r, (actAll_eq base actions .zero).trans hrun⟩

/-- **Inline CSS stays in its buffer** exactly if the names and the bodies that are reached fit. -/
theorem cssStaysInside_iff {page after : List UInt8} {htmlLen : Nat}
    (hlen : pageLen (page ++ after) htmlLen = .ok page.length) (base : Option CString) :
    CssStaysInside (page ++ after) htmlLen base ↔
      NamesFit base (reached htmlMaxResources (readPage after .text page).actions) ∧
        cssSize (reached htmlMaxResources (readPage after .text page).actions) ≤
          htmlMaxInlineCss := by
  have hparse := htmlParse_eq hlen base
  have hproper := @proper_readPage after page .text
  refine ⟨fun h => ?_, ?_⟩
  · obtain ⟨hcss, hname, -⟩ := h
    cases hall : HtmlParseResult.zero.actAll base (readPage after .text page).actions with
    | ok r => exact fits_of_actAll hproper hall
    | error e =>
      -- the parse stops where its actions do
      have herror : htmlParse (page ++ after) htmlLen base = .error e := by
        refine eq_error_of_map (hparse.trans ?_)
        rw [HtmlParseResult.actOn, hall]
        rfl
      rw [actAll_eq] at hall
      rcases actEach_error _ _ hall with ⟨rfl, -⟩ | ⟨rfl, -⟩
      · exact absurd herror hname
      · exact absurd herror hcss
  · rintro ⟨hnames, hfit⟩
    obtain ⟨r, hall⟩ := exists_actAll_of_fits hproper hnames hfit
    have hread : ∀ e, htmlParse (page ++ after) htmlLen base = .error e → e = .htmlRead := by
      intro e herror
      rw [herror] at hparse
      rcases actOn_error_cases hparse.symm with hfails | ⟨r', -, -, hlast⟩
      · rw [hall] at hfails
        cases hfails
      · exact readPage_error hlast
    refine ⟨fun h => (by cases hread _ h), fun h => (by cases hread _ h), fun r hr => ?_⟩
    rw [hr] at hparse
    have hinside := InlineInside.zero.actAll _ hproper (actOn_ok hparse.symm)
    exact ⟨hinside.count, hinside.buffer, hinside.next, hinside.ranges⟩

/-- `<style>p{}</style>` -/
def stylePage : List UInt8 :=
  (text ['<', 's', 't', 'y', 'l', 'e', '>', 'p', '{', '}', '<', '/', 's', 't', 'y', 'l', 'e',
    '>']).bytes

/-- `<a href="b">`, and a body -/
def linkStylePage : List UInt8 :=
  (text ['<', 'a', ' ', 'h', 'r', 'e', 'f', '=', '"', 'b', '"', '>']).bytes ++ stylePage

theorem namesFit_linkStylePage : NamesFit (some (text ['/', 'd', '/']))
    (reached htmlMaxResources (readPage [] .text linkStylePage).actions) := by
  have hread : reached htmlMaxResources (readPage [] .text linkStylePage).actions =
      [.refer .link (text ['b']), .css (text ['p', '{', '}']).bytes] := by
    decide
  intro type url hmem
  rw [hread] at hmem
  obtain ⟨rfl, rfl⟩ := PageAction.refer.inj ((List.mem_cons.mp hmem).resolve_right fun h => by
    cases List.mem_singleton.mp h)
  refine Or.inr (Or.inr (Or.inr fun b hb => ?_))
  obtain rfl := Option.some.inj hb
  decide

/-- A page of a link and a body that fit, read with a base. -/
theorem cssStaysInside_iff_linkStylePage :
    pageLen (linkStylePage ++ []) linkStylePage.length = .ok linkStylePage.length ∧
      CssStaysInside (linkStylePage ++ []) linkStylePage.length (some (text ['/', 'd', '/'])) :=
  ⟨by decide, (cssStaysInside_iff (by decide) _).mpr ⟨namesFit_linkStylePage, by decide⟩⟩

/-- `<style>` -/
def styleTag : List UInt8 := (text ['<', 's', 't', 'y', 'l', 'e', '>']).bytes

/-- `</style>` -/
def styleEndTag : List UInt8 := (text ['<', '/', 's', 't', 'y', 'l', 'e', '>']).bytes

/-- A body, and an empty one. -/
def twoBodies (css : List UInt8) : List UInt8 :=
  styleTag ++ (css ++ (styleEndTag ++ (styleTag ++ (styleEndTag ++ []))))

/-- A body that fills the buffer, and an empty one. -/
def fullStylePage : List UInt8 :=
  twoBodies (List.replicate (htmlMaxInlineCss - 1) (ch 'a').val)

theorem readPage_styleTag (after page : List UInt8) :
    readPage after .text (styleTag ++ page) = readPage after (.style []) page := rfl

theorem readPage_styleEndTag (after page css : List UInt8) :
    readPage after (.style css) (styleEndTag ++ page) =
      (readPage after .text page).behind [.css css] := rfl

theorem readPage_twoBodies {css : List UInt8} (h : ∀ b ∈ css, b ≠ tagStart) :
    readPage [] .text (twoBodies css) = ⟨[.css css, .css []], .ok .text⟩ := by
  rw [twoBodies, readPage_styleTag, readPage_style h, readPage_styleEndTag, readPage_styleTag,
    readPage_styleEndTag, List.nil_append]
  rfl

/-- The terminator of the empty body is one byte too far. -/
theorem htmlParse_twoBodies {css : List UInt8} (hfree : ∀ b ∈ css, b ≠ tagStart)
    (hlen : css.length = htmlMaxInlineCss - 1) :
    htmlParse (twoBodies css) (twoBodies css).length none = .error .cssWrite := by
  have hread := readPage_twoBodies hfree
  have hpage := @pageLen_given (twoBodies css) [] (List.cons_ne_nil _ _)
  have hover : htmlMaxInlineCss < cssSize (reached htmlMaxResources [.css css, .css []]) := by
    change _ < (css.take (htmlMaxInlineCss - 1)).length + 1 + 1
    rw [List.length_take, hlen]
    decide
  have hproper := @proper_readPage [] (twoBodies css) .text
  have heq := htmlParse_eq hpage none
  rw [List.append_nil, hread, HtmlParseResult.actOn] at heq
  rw [hread] at hproper
  cases hall : HtmlParseResult.zero.actAll none [.css css, .css []] with
  | ok r => exact absurd (fits_of_actAll hproper hall).2 (not_le.mpr hover)
  | error e =>
    rw [hall] at heq
    rw [actAll_eq] at hall
    rcases actEach_error _ _ hall with ⟨-, a, -, hno⟩ | ⟨rfl, -⟩
    · exact absurd (nameable_none a) hno
    · exact eq_error_of_map heq

theorem not_cssStaysInside_fullStylePage :
    htmlParse fullStylePage fullStylePage.length none = .error .cssWrite ∧
      ¬ CssStaysInside fullStylePage fullStylePage.length none := by
  have hfree : ∀ b ∈ List.replicate (htmlMaxInlineCss - 1) (ch 'a').val, b ≠ tagStart := by
    intro b hb
    rw [List.eq_of_mem_replicate hb]
    decide
  have hparse := htmlParse_twoBodies hfree List.length_replicate
  exact ⟨hparse, fun h => h.1 hparse⟩

end DsoBrowser

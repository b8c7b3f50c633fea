import DsoBrowser.PageRuns
import DsoBrowser.UrlBounds

/-!
# Pages put together

A page that ends in text asks for the same whatever comes behind it, and what comes behind it asks
for what it asks for by itself (`readPage_append`). So the resources of two pages put together are
those of the first and those of the second, up to the number that there is room for
(`entries_join`).
-/

namespace DsoBrowser

/-! ## Reading on -/

/-- **A page that ends in text** is read as by itself, and what is behind it as by itself. -/
theorem readPage_append (page after : List UInt8) {front : List UInt8} : ∀ {mode : PageMode},
    (readPage [] mode front).last = .ok .text →
      readPage after mode (front ++ page) =
        (readPage after .text page).behind (readPage [] mode front).actions := by
  induction front with
  | nil =>
    intro mode h
    obtain rfl : mode = .text := Except.ok.inj h
    rfl
  | cons b front ih =>
    intro mode h
    rw [List.cons_append]
    cases mode with
    | text =>
      rw [readPage] at h ⊢
      rw [readPage]
      by_cases hb : b = tagStart
      · rw [if_pos hb] at h ⊢
        rw [if_pos hb]
        exact ih h
      · rw [if_neg hb] at h ⊢
        rw [if_neg hb]
        exact ih h
    | tag seen =>
      rw [readPage] at h ⊢
      rw [readPage]
      by_cases hb : b = tagStop
      · rw [if_pos hb] at h ⊢
        rw [if_pos hb]
        by_cases hclosing : IsClosing seen
        · rw [if_pos hclosing] at h ⊢
          rw [if_pos hclosing]
          exact ih h
        · rw [if_neg hclosing] at h ⊢
          rw [if_neg hclosing, ih h]
          exact congrArg (PageReading.mk · _) (List.append_assoc _ _ _).symm
      · rw [if_neg hb] at h ⊢
        rw [if_neg hb]
        exact ih h
    | style css =>
      rw [readPage, List.append_nil] at h
      rw [readPage, readPage, List.append_nil, List.append_assoc]
      cases hstarts : startsWithCase (b :: front) styleEnd with
      | error e =>
        rw [hstarts] at h
        cases h
      | ok closes =>
        rw [hstarts] at h
        have hmore := startsWithCase_append_ok hstarts (page ++ after)
        rw [List.cons_append] at hmore
        rw [hmore]
        cases closes with
        | true =>
          simp only at h ⊢
          rw [ih h]
          rfl
        | false => exact ih h

/-- What a page asks for by itself, it asks for whatever comes behind it. -/
theorem isPrefix_actions (page after : List UInt8) {front : List UInt8} : ∀ {mode : PageMode},
    (readPage [] mode front).actions <+: (readPage after mode (front ++ page)).actions := by
  induction front with
  | nil =>
    intro mode
    exact List.nil_prefix
  | cons b front ih =>
    intro mode
    rw [List.cons_append]
    cases mode with
    | text =>
      rw [readPage, readPage]
      by_cases hb : b = tagStart
      · rw [if_pos hb, if_pos hb]
        exact ih
      · rw [if_neg hb, if_neg hb]
        exact ih
    | tag seen =>
      rw [readPage, readPage]
      by_cases hb : b = tagStop
      · rw [if_pos hb, if_pos hb]
        by_cases hclosing : IsClosing seen
        · rw [if_pos hclosing, if_pos hclosing]
          exact ih
        · rw [if_neg hclosing, if_neg hclosing]
          exact (List.prefix_append_right_inj _).mpr ih
      · rw [if_neg hb, if_neg hb]
        exact ih
    | style css =>
      rw [readPage, readPage, List.append_nil, List.append_assoc]
      cases hstarts : startsWithCase (b :: front) styleEnd with
      | error e => exact List.nil_prefix
      | ok closes =>
        have hmore := startsWithCase_append_ok hstarts (page ++ after)
        rw [List.cons_append] at hmore
        rw [hmore]
        cases closes with
        | true => exact (List.prefix_append_right_inj _).mpr ih
        | false => exact ih

/-! ## Names and room -/

/-- A base and a URL that fit a name together. -/
theorem nameable_of_lt {base : Option CString} {type : HtmlResourceType} {url : CString}
    (h : (base.getD []).length + url.length < htmlMaxAttrLen) :
    (PageAction.refer type url).Nameable base := by
  cases base with
  | none => exact Or.inr (htmlResolveUrl_none url _)
  | some base =>
    refine Or.inr ?_
    have hfit : lastSlash base + 1 + url.length ≤ htmlMaxAttrLen := by
      rcases eq_or_ne base [] with rfl | hne
      · change 0 + url.length < htmlMaxAttrLen at h
        change 0 + 1 + url.length ≤ htmlMaxAttrLen
        omega
      · have hlt := lastSlash_lt hne
        change base.length + url.length < htmlMaxAttrLen at h
        omega
    rw [htmlResolveUrl.eq_def, if_neg (by decide)]
    split
    · exact ⟨_, rfl⟩
    split
    · exact ⟨_, rfl⟩
    split
    · exact ⟨_, rfl⟩
    · exact ⟨_, if_pos hfit⟩

/-- What comes behind the last resource there is room for is not reached. -/
theorem reached_append {actions : List PageAction} (rest : List PageAction) : ∀ {n : Nat},
    n ≤ actions.countP (·.adds) → reached n (actions ++ rest) = reached n actions := by
  induction actions with
  | nil =>
    intro n h
    obtain rfl : n = 0 := Nat.le_zero.mp h
    rw [reached_zero, reached_zero]
  | cons a actions ih =>
    intro n h
    cases n with
    | zero => rw [reached_zero, reached_zero]
    | succ n =>
      rw [List.cons_append, reached, reached, ih]
      rw [List.countP_cons] at h
      split
      · rename_i hadds
        rw [if_pos hadds] at h
        omega
      · rename_i hadds
        rw [if_neg hadds] at h
        exact h

/-! ## The resources of both -/

/-- Two pages and a base for which the resources of both can be told from those of each. -/
structure Joinable (base : Option CString) (first second after : List UInt8) : Prop where
  /-- the first page ends in text, neither in a tag nor in a `<style>` element, or the scan has
  ended before with all resources there is room for -/
  closed : (readPage [] .text first).last = .ok .text ∨
    htmlMaxResources ≤ (readPage [] .text first).actions.countP (·.adds)
  /-- the inline CSS of both fits its buffer -/
  fits : cssSize (readPage [] .text first).actions +
    cssSize (readPage after .text second).actions ≤ htmlMaxInlineCss
  /-- no URL is too long for the base -/
  named : ∀ type url, .refer type url ∈ (readPage [] .text first).actions ∨
      .refer type url ∈ (readPage after .text second).actions →
    (base.getD []).length + url.length < htmlMaxAttrLen

/-- The resources, but for where their text is. -/
def HtmlParseResult.entries (r : HtmlParseResult) : List PageEntry :=
  r.resources.map HtmlResource.entry

namespace Joinable

variable {base : Option CString} {first second after : List UInt8}

theorem nameable (h : Joinable base first second after) {a : PageAction}
    (ha : a ∈ (readPage [] .text first).actions ∨ a ∈ (readPage after .text second).actions) :
    a.Nameable base := by
  cases a with
  | refer type url => exact nameable_of_lt (h.named type url ha)
  | base href => trivial
  | css body => trivial

/-- The page in front is parsed whatever comes behind it, and what it reaches there is its own. -/
theorem reads_first (h : Joinable base first second after) (page after' : List UInt8) :
    ((readPage [] .text first).last = .ok .text ∧
      readPage after' .text (first ++ page) =
        (readPage after' .text page).behind (readPage [] .text first).actions) ∨
    (htmlMaxResources ≤ (readPage [] .text first).actions.countP (·.adds) ∧
      ∃ rest, (readPage after' .text (first ++ page)).actions =
        (readPage [] .text first).actions ++ rest) := by
  refine h.closed.imp (fun hlast => ⟨hlast, readPage_append page after' hlast⟩)
    fun hfull => ⟨hfull, ?_⟩
  obtain ⟨rest, hrest⟩ := @isPrefix_actions page after' first .text
  exact ⟨rest, hrest.symm⟩

/-- What is behind a page has its names and its room, too. -/
theorem exists_parse (h : Joinable base first second after) {page after' : List UInt8} {n : Nat}
    (hlen : pageLen (first ++ page ++ after') n = .ok (first ++ page).length)
    (hname : ∀ a ∈ (readPage after' .text page).actions, a.Nameable base)
    (hfit : cssSize (readPage [] .text first).actions +
      cssSize (readPage after' .text page).actions ≤ htmlMaxInlineCss)
    (hlast : htmlMaxResources ≤ (readPage [] .text first).actions.countP (·.adds) +
        (readPage after' .text page).actions.countP (·.adds) ∨
      ∃ mode, (readPage after' .text page).last = .ok mode) :
    ∃ r, htmlParse (first ++ page ++ after') n base = .ok r := by
  rcases h.reads_first page after' with ⟨-, hread⟩ | ⟨hfull, rest, hread⟩
  · have hactions : (readPage after' .text (first ++ page)).actions =
        (readPage [] .text first).actions ++ (readPage after' .text page).actions := by
      rw [hread]
      rfl
    refine exists_htmlParse hlen (fun a ha => ?_) ?_ ?_
    · have hmem := (isPrefix_reached _ _).subset ha
      rw [hactions] at hmem
      exact (List.mem_append.mp hmem).elim (fun hm => h.nameable (Or.inl hm)) (hname a)
    · refine (cssSize_reached_le _ _).trans ?_
      rw [hactions, cssSize_append]
      exact hfit
    · rw [hactions, List.countP_append, hread]
      exact hlast
  · have hreached : reached htmlMaxResources (readPage after' .text (first ++ page)).actions =
        reached htmlMaxResources (readPage [] .text first).actions := by
      rw [hread]
      exact reached_append rest hfull
    refine exists_htmlParse hlen (fun a ha => ?_) ?_ (Or.inl ?_)
    · rw [hreached] at ha
      exact h.nameable (Or.inl ((isPrefix_reached _ _).subset ha))
    · rw [hreached]
      exact (cssSize_reached_le _ _).trans ((Nat.le_add_right _ _).trans hfit)
    · rw [hread, List.countP_append]
      exact hfull.trans (Nat.le_add_right _ _)

/-- Its resources come behind those of the page. -/
theorem entries_parse (h : Joinable base first second after) {page after' : List UInt8} {n : Nat}
    {r : HtmlParseResult} (hlen : pageLen (first ++ page ++ after') n = .ok (first ++ page).length)
    (hr : htmlParse (first ++ page ++ after') n base = .ok r) :
    r.entries = ((readPage [] .text first).actions.filterMap (·.entryOf? base) ++
      (readPage after' .text page).actions.filterMap (·.entryOf? base)).take htmlMaxResources := by
  rw [HtmlParseResult.entries, entries_of_htmlParse hlen hr]
  rcases h.reads_first page after' with ⟨-, hread⟩ | ⟨hfull, rest, hread⟩
  · rw [hread, PageReading.behind, List.filterMap_append]
  · rw [← length_entries base] at hfull
    rw [hread, List.filterMap_append, List.take_append_of_le_length hfull,
      List.take_append_of_le_length hfull]

end Joinable

/-- Lists that are cut before they are put together and after. -/
theorem take_append_takes {α : Type} (n : Nat) (l m : List α) :
    (l.take n ++ m.take n).take n = (l ++ m).take n := by
  rw [List.take_append, List.take_append, List.take_take, List.take_take, List.length_take,
    Nat.min_self]
  refine congrArg (fun k => l.take n ++ m.take k) ?_
  omega

/-- **The resources of two pages put together** are those of the first, then those of the second, as
many as there is room for. The parse of the second page can only fail by reading past it. -/
theorem entries_join {base : Option CString} {first second after : List UInt8}
    (hfirst : first ≠ []) (hsecond : second ≠ []) (h : Joinable base first second after)
    (after' : List UInt8) :
    ∃ r₁, htmlParse (first ++ after') first.length base = .ok r₁ ∧
      (after.head? = some 0 → ∃ r₂, htmlParse (second ++ after) second.length base = .ok r₂) ∧
      ∀ r₂, htmlParse (second ++ after) second.length base = .ok r₂ →
        ∃ r, htmlParse (first ++ second ++ after) (first.length + second.length) base = .ok r ∧
          r.entries = (r₁.entries ++ r₂.entries).take htmlMaxResources := by
  have hlen₁ : pageLen (first ++ [] ++ after') first.length = .ok (first ++ []).length := by
    rw [List.append_nil]
    exact pageLen_given hfirst
  have hlen₂ : pageLen (second ++ after) second.length = .ok second.length :=
    pageLen_given hsecond
  have hlen : pageLen (first ++ second ++ after) (first.length + second.length) =
      .ok (first ++ second).length := by
    rw [← List.length_append]
    exact pageLen_given (List.append_ne_nil_of_left_ne_nil hfirst _)
  have hname : ∀ a ∈ (readPage after .text second).actions, a.Nameable base :=
    fun a ha => h.nameable (Or.inr ha)
  obtain ⟨r₁, hr₁⟩ := h.exists_parse hlen₁ (fun a ha => by cases ha)
    ((Nat.le_add_right _ _).trans h.fits) (Or.inr ⟨_, rfl⟩)
  have hentries₁ := h.entries_parse hlen₁ hr₁
  rw [List.append_nil] at hr₁
  refine ⟨r₁, hr₁, fun hzero => ?_, fun r₂ hr₂ => ?_⟩
  · refine exists_htmlParse hlen₂ (fun a ha => hname a ((isPrefix_reached _ _).subset ha))
      ((cssSize_reached_le _ _).trans ((Nat.le_add_left _ _).trans h.fits)) (Or.inr ?_)
    exact exists_last_of_terminated hzero
  · have hlast := last_of_htmlParse hlen₂ hr₂
    obtain ⟨r, hr⟩ := h.exists_parse hlen hname h.fits
      (hlast.imp_left fun hfull => hfull.trans (Nat.le_add_left _ _))
    refine ⟨r, hr, ?_⟩
    have hentries₂ : r₂.entries = _ := entries_of_htmlParse hlen₂ hr₂
    rw [h.entries_parse hlen hr, hentries₁, hentries₂, readPage, List.filterMap_nil,
      List.append_nil, take_append_takes]

/-- `<img src=a>` -/
def imagePage : List UInt8 :=
  (text ['<', 'i', 'm', 'g', ' ', 's', 'r', 'c', '=', 'a', '>']).bytes

/-- `<style>b</style` -/
def openStylePage : List UInt8 :=
  (text ['<', 's', 't', 'y', 'l', 'e', '>', 'b', '<', '/', 's', 't', 'y', 'l', 'e']).bytes

theorem readPage_imagePage :
    readPage [] .text imagePage = ⟨[.refer .image (text ['a'])], .ok .text⟩ := by
  decide

theorem readPage_openStylePage :
    readPage [0] .text openStylePage = ⟨[.css [(ch 'b').val]], .ok .text⟩ := by
  decide

theorem joinable_imagePage : Joinable (some (text ['/'])) imagePage openStylePage [0] where
  closed := Or.inl (by rw [readPage_imagePage])
  fits := by
    rw [readPage_imagePage, readPage_openStylePage]
    decide
  named := by
    rw [readPage_imagePage, readPage_openStylePage]
    rintro type url (h | h)
    · obtain ⟨-, rfl⟩ := PageAction.refer.inj (List.mem_singleton.mp h)
      decide
    · cases List.mem_singleton.mp h

/-- An image, and inline CSS. -/
theorem entries_join_imagePage :
    imagePage ≠ [] ∧ openStylePage ≠ [] ∧
      Joinable (some (text ['/'])) imagePage openStylePage [0] ∧
      ∃ r₁, htmlParse (imagePage ++ []) imagePage.length (some (text ['/'])) = .ok r₁ ∧
        ([(0 : UInt8)].head? = some 0 → ∃ r₂,
          htmlParse (openStylePage ++ [0]) openStylePage.length (some (text ['/'])) = .ok r₂) ∧
        ∀ r₂, htmlParse (openStylePage ++ [0]) openStylePage.length (some (text ['/'])) =
            .ok r₂ →
          ∃ r, htmlParse (imagePage ++ openStylePage ++ [0])
              (imagePage.length + openStylePage.length) (some (text ['/'])) = .ok r ∧
            r.entries = (r₁.entries ++ r₂.entries).take htmlMaxResources :=
  ⟨by decide, by decide, joinable_imagePage,
    entries_join (by decide) (by decide) joinable_imagePage []⟩

end DsoBrowser

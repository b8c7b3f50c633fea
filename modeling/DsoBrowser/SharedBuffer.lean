import DsoBrowser.InlineCss
import DsoBrowser.Lib.Overlay
import DsoBrowser.TagValues
import Mathlib.Data.List.GetD

/-!
# Base URLs and inline CSS in one buffer

The bodies of the `<style>` elements are put one behind the other into the inline CSS buffer, and
every base URL is put at its front. So where the parse comes to its end, what the result says of
them is what the page says if and only if the writes agree wherever they overlap
(`saysWhatPageSays_iff`): the last base URL over a byte of an earlier body has that byte, and what
is left at the front is the base URL that the page says last.
-/

namespace DsoBrowser

open Overlay

/-! ## What the page says -/

namespace PageAction

/-- The body of a `<style>` element. -/
def body? : PageAction → Option (List UInt8)
  | .css body => some body
  | _ => none

/-- A base URL. -/
def href? : PageAction → Option CString
  | .base href => if href = [] then none else some href
  | _ => none

end PageAction

/-- The bodies, in the order of the page. -/
def bodies (actions : List PageAction) : List (List UInt8) := actions.filterMap (·.body?)

/-- The base URLs that the parser takes, in the order of the page. -/
def hrefs (actions : List PageAction) : List CString := actions.filterMap (·.href?)

/-! ## What the result says -/

namespace HtmlParseResult

/-- A byte of the inline CSS buffer. -/
def cssByte (r : HtmlParseResult) (p : Nat) : UInt8 := r.inlineCssBuf.getD p 0

/-- The bytes of the buffer from a position on. -/
def textAt (m : Nat → UInt8) (pos len : Nat) : List UInt8 :=
  (List.range len).map fun j => m (pos + j)

/-- Where the inline CSS is: `inline_data` and `inline_len` of each such resource. -/
def places (r : HtmlParseResult) : List (Option Nat × Nat) :=
  (r.resources.filter (·.type = .inlineCss)).map fun res => (res.inlineData, res.inlineLen)

/-- The inline CSS. -/
def inlineTexts (r : HtmlParseResult) : List (List UInt8) :=
  r.places.map fun q => q.1.elim [] fun pos => textAt r.cssByte pos q.2

/-- The string at `base_href`, if it is set. -/
def baseText (r : HtmlParseResult) : Option CString :=
  r.baseHref.map fun pos => CString.ofBytes (r.inlineCssBuf.drop pos)

end HtmlParseResult

/-- The inline CSS is that of the page's elements, and the base URL is the one it says last. -/
structure ResultSays (after page : List UInt8) (r : HtmlParseResult) : Prop where
  /-- each resource has the text of its element -/
  styles : r.inlineTexts <+: bodies (readPage after .text page).actions
  /-- a base URL that is set is the last one -/
  base : ∀ t, r.baseText = some t → lastBase after page = some (CString.bytes t)

/-- The parse comes to its end, and the result says what the page says. -/
def SaysWhatPageSays (page after : List UInt8) (htmlLen : Nat) (base : Option CString) : Prop :=
  ∃ r, htmlParse (page ++ after) htmlLen base = .ok r ∧ ResultSays after page r

/-- The page is read to its end, or the resources fill up before. -/
def ReadOn (after page : List UInt8) : Prop :=
  htmlMaxResources ≤ (readPage after .text page).actions.countP (·.adds) ∨
    ∃ mode, (readPage after .text page).last = .ok mode

/-! ## The writes -/

/-- A base URL is put at the front. -/
def hrefWrite (href : CString) : Write UInt8 :=
  ⟨0, CString.bytes (href.take (htmlMaxInlineCss - 1)) ++ [0]⟩

/-- A body is put where the next inline CSS goes. -/
def bodyWrite (n : Nat) (body : List UInt8) : Write UInt8 := ⟨n, keptCss body ++ [0]⟩

/-- What an action writes, if the next inline CSS goes to `n`. -/
def PageAction.writes (n : Nat) : PageAction → List (Write UInt8)
  | .refer _ _ => []
  | .base href => if href = [] then [] else [hrefWrite href]
  | .css body => [bodyWrite n body]

/-- What all of them write. -/
def cssWrites : Nat → List PageAction → List (Write UInt8)
  | _, [] => []
  | n, a :: actions => a.writes n ++ cssWrites (n + a.cssSize) actions

/-- What base URLs write. -/
def baseWrites (actions : List PageAction) : List (Write UInt8) := (hrefs actions).map hrefWrite

/-- Where the bodies are put, and how long they are. -/
def bodyPlaces : Nat → List PageAction → List (Nat × Nat)
  | _, [] => []
  | n, a :: actions =>
    (a.body?.map fun body => (n, (keptCss body).length)).toList ++
      bodyPlaces (n + a.cssSize) actions

/-! ## When nothing is lost -/

/-- A body is kept under the base URLs behind it: the last of them over one of its bytes has that
byte. -/
def PageAction.Kept (n : Nat) (later : List PageAction) (a : PageAction) : Prop :=
  ∀ body, a.body? = some body → ∀ j b b', (keptCss body)[j]? = some b →
    last (n + j) (baseWrites later) = some b' → b' = b

/-- All bodies are. -/
def BodiesKept : Nat → List PageAction → Prop
  | _, [] => True
  | n, a :: later => a.Kept n later ∧ BodiesKept (n + a.cssSize) later

/-- If a base URL is taken, then the page says one last that can be read, and the writes leave it at
the front. -/
def BaseKept (said : Option (List UInt8)) (reached : List PageAction) : Prop :=
  hrefs reached ≠ [] → ∃ t : CString, said = some t.bytes ∧
    ∀ j b, (CString.bytes t ++ [0])[j]? = some b → (last j (cssWrites 0 reached)).getD 0 = b

/-! ## What the parser writes -/

section Writes

variable {base : Option CString} {r r' : HtmlParseResult}

theorem getD_poked (buf : List UInt8) (w : Write UInt8) (p : Nat) :
    (poked buf w.pos w.cells).getD p 0 = w.apply (fun p => buf.getD p 0) p := by
  have hfront : ((buf ++ List.replicate (w.pos - buf.length) 0).take w.pos).length = w.pos := by
    rw [List.length_take, List.length_append, List.length_replicate]
    omega
  rw [Write.apply, Write.cell?, poked, List.append_assoc]
  rcases Nat.lt_or_ge p w.pos with hlt | hge
  · rw [if_neg (not_le.mpr hlt), Option.getD_none,
      List.getD_append _ _ _ _ (by rw [hfront]; exact hlt), List.getD_eq_getElem?_getD,
      List.getElem?_take_of_lt hlt, ← List.getD_eq_getElem?_getD]
    rcases Nat.lt_or_ge p buf.length with hin | hout
    · exact List.getD_append _ _ _ _ hin
    · rw [List.getD_append_right _ _ _ _ hout, List.getD_eq_getElem?_getD,
        List.getElem?_getD_replicate_default_eq, List.getD_eq_default _ _ hout]
  · rw [if_pos hge, List.getD_append_right _ _ _ _ (by rw [hfront]; exact hge), hfront]
    rcases Nat.lt_or_ge (p - w.pos) w.cells.length with hin | hout
    · rw [List.getD_append _ _ _ _ hin, List.getD_eq_getElem?_getD,
        List.getElem?_eq_getElem hin]
      rfl
    · rw [List.getD_append_right _ _ _ _ hout, List.getElem?_eq_none hout, Option.getD_none,
        List.getD_eq_getElem?_getD, List.getElem?_drop, ← List.getD_eq_getElem?_getD]
      exact congrArg (fun k => buf.getD k 0) (by omega)

theorem cssByte_act {a : PageAction} (h : r.act base a = .ok r') :
    r'.cssByte = written r.cssByte (a.writes r.inlineCssLen) := by
  cases a with
  | refer type url =>
    rcases act_refer_ok h with ⟨-, rfl⟩ | ⟨-, rfl⟩
    · rfl
    · rfl
  | base href =>
    rw [act_base] at h
    cases h
    rw [PageAction.writes]
    split
    · rfl
    · exact funext (getD_poked r.inlineCssBuf (hrefWrite href))
  | css body =>
    obtain ⟨-, rfl⟩ := act_css_ok h
    exact funext (getD_poked r.inlineCssBuf (bodyWrite r.inlineCssLen body))

/-- **What is in the buffer** is what the writes leave there. -/
theorem cssByte_actEach (actions : List PageAction) : ∀ r : HtmlParseResult,
    actEach base r actions = .ok r' →
      r'.cssByte = written r.cssByte (cssWrites r.inlineCssLen actions) := by
  induction actions with
  | nil =>
    intro r h
    cases h
    rfl
  | cons a actions ih =>
    intro r h
    obtain ⟨r₁, hact, heach⟩ := actEach_cons_ok h
    rw [ih r₁ heach, cssByte_act hact, (act_adds hact).2, cssWrites, written, written, written,
      List.foldl_append]

theorem places_act {a : PageAction} (ha : a.Proper) (h : r.act base a = .ok r') :
    r'.places = r.places ++
      ((a.body?.map fun body => (r.inlineCssLen, (keptCss body).length)).toList).map
        fun q => (some q.1, q.2) := by
  have hpush : ∀ res : HtmlResource, (r.push res).places = r.places ++
      (([res].filter (·.type = .inlineCss)).map fun res => (res.inlineData, res.inlineLen)) := by
    intro res
    rw [HtmlParseResult.places, HtmlParseResult.push, List.filter_append, List.map_append]
    rfl
  cases a with
  | refer type url =>
    rcases act_refer_ok h with ⟨-, rfl⟩ | ⟨-, rfl⟩
    · exact (List.append_nil _).symm
    · have htype : type ≠ .inlineCss := (ha type url rfl).1
      rw [hpush, List.filter_singleton, decide_eq_false htype]
      rfl
  | base href =>
    rw [act_base] at h
    cases h
    split
    · exact (List.append_nil _).symm
    · exact (List.append_nil _).symm
  | css body =>
    obtain ⟨-, rfl⟩ := act_css_ok h
    exact hpush _

theorem places_actEach (actions : List PageAction) : ∀ r : HtmlParseResult,
    (∀ a ∈ actions, a.Proper) → actEach base r actions = .ok r' →
      r'.places = r.places ++ (bodyPlaces r.inlineCssLen actions).map fun q => (some q.1, q.2) := by
  induction actions with
  | nil =>
    intro r _ h
    cases h
    exact (List.append_nil _).symm
  | cons a actions ih =>
    intro r hproper h
    obtain ⟨r₁, hact, heach⟩ := actEach_cons_ok h
    rw [ih r₁ (fun b hb => hproper b (List.mem_cons_of_mem _ hb)) heach,
      places_act (hproper a List.mem_cons_self) hact, (act_adds hact).2, bodyPlaces,
      List.map_append, List.append_assoc]

theorem hrefs_cons (a : PageAction) (actions : List PageAction) :
    hrefs (a :: actions) = a.href?.toList ++ hrefs actions := by
  rw [hrefs, List.filterMap_cons]
  cases a.href? <;> rfl

theorem baseHref_act {a : PageAction} (h : r.act base a = .ok r') :
    r'.baseHref = if a.href?.isSome then some 0 else r.baseHref := by
  cases a with
  | refer type url =>
    rcases act_refer_ok h with ⟨-, rfl⟩ | ⟨-, rfl⟩
    · rfl
    · rfl
  | base href =>
    rw [act_base] at h
    cases h
    rw [PageAction.href?]
    split <;> rfl
  | css body =>
    obtain ⟨-, rfl⟩ := act_css_ok h
    rfl

theorem baseHref_actEach (actions : List PageAction) : ∀ r : HtmlParseResult,
    actEach base r actions = .ok r' →
      r'.baseHref = if hrefs actions = [] then r.baseHref else some 0 := by
  induction actions with
  | nil =>
    intro r h
    cases h
    rfl
  | cons a actions ih =>
    intro r h
    obtain ⟨r₁, hact, heach⟩ := actEach_cons_ok h
    rw [ih r₁ heach, baseHref_act hact, hrefs_cons]
    cases a.href? with
    | none => rfl
    | some href => exact ite_self _

end Writes

/-! ## What is left of it -/

theorem baseWrites_cons (a : PageAction) (actions : List PageAction) :
    baseWrites (a :: actions) = a.href?.toList.map hrefWrite ++ baseWrites actions := by
  rw [baseWrites, hrefs_cons, List.map_append]
  rfl

theorem last_cssWrites_of_lt {p : Nat} (actions : List PageAction) : ∀ {n : Nat}, p < n →
    last p (cssWrites n actions) = last p (baseWrites actions) := by
  induction actions with
  | nil => exact fun _ => rfl
  | cons a actions ih =>
    intro n h
    rw [cssWrites, last_append, ih (Nat.lt_add_right _ h), baseWrites_cons, last_append]
    refine congrArg (Option.or _) ?_
    cases a with
    | refer type url => rfl
    | base href =>
      rw [PageAction.writes, PageAction.href?]
      split <;> rfl
    | css body =>
      change (none : Option UInt8).or ((bodyWrite n body).cell? p) = none
      rw [Write.cell?_of_lt h]
      rfl

/-- A run of the memory is a list if its cells are. -/
theorem textAt_eq_iff {m : Nat → UInt8} {pos : Nat} {css : List UInt8} :
    HtmlParseResult.textAt m pos css.length = css ↔ ∀ j b, css[j]? = some b → m (pos + j) = b := by
  rw [HtmlParseResult.textAt, List.ext_getElem?_iff]
  refine forall_congr' fun j => ?_
  rw [List.getElem?_map]
  rcases Nat.lt_or_ge j css.length with hlt | hge
  · rw [List.getElem?_range hlt, List.getElem?_eq_getElem hlt]
    exact ⟨fun h b hb => Option.some.inj (h.trans hb), fun h => congrArg some (h _ rfl)⟩
  · rw [List.getElem?_eq_none (by rwa [List.length_range]), List.getElem?_eq_none hge]
    exact iff_of_true rfl fun b hb => by cases hb

/-- **The bodies are in their places** exactly if they are kept. -/
theorem bodies_eq_iff {m : Nat → UInt8} (actions : List PageAction) : ∀ {n : Nat},
    (∀ p b, last p (cssWrites n actions) = some b → m p = b) →
      ((bodyPlaces n actions).map (fun q => HtmlParseResult.textAt m q.1 q.2) =
          (bodies actions).map keptCss ↔ BodiesKept n actions) := by
  induction actions with
  | nil => exact fun _ => iff_of_true rfl trivial
  | cons a actions ih =>
    intro n hm
    have hlater : ∀ p b, last p (cssWrites (n + a.cssSize) actions) = some b → m p = b := by
      intro p b hp
      refine hm p b ?_
      rw [cssWrites, last_append, hp]
      rfl
    rw [BodiesKept, ← ih hlater, bodyPlaces, bodies, List.filterMap_cons]
    cases a with
    | refer type url => exact (and_iff_right fun body hb => by cases hb).symm
    | base href => exact (and_iff_right fun body hb => by cases hb).symm
    | css body =>
      change (HtmlParseResult.textAt m n (keptCss body).length :: _ = keptCss body :: _) ↔ _
      rw [List.cons_eq_cons, textAt_eq_iff]
      refine and_congr_left' ?_
      -- a byte of the body, and what base URLs put there
      have hbyte : ∀ j b, (keptCss body)[j]? = some b →
          (m (n + j) = b ↔ ∀ b', last (n + j) (baseWrites actions) = some b' → b' = b) := by
        intro j b hj
        have hlt : j < (keptCss body).length := (List.getElem?_eq_some_iff.mp hj).1
        have hcell : (bodyWrite n body).cells[j]? = some b := by
          rw [bodyWrite, List.getElem?_append_left hlt, hj]
        rw [← last_cssWrites_of_lt (n := n + PageAction.cssSize (.css body)) actions
          (by rw [PageAction.cssSize]; omega)]
        refine Iff.trans ?_ (kept_iff hcell _)
        obtain ⟨b', hb'⟩ := exists_last hcell
          (cssWrites (n + PageAction.cssSize (.css body)) actions)
        have hmb := hm (n + j) b' hb'
        change last ((bodyWrite n body).pos + j) _ = _ at hb'
        rw [hmb, hb', Option.some.injEq]
      refine ⟨fun h body' hbody j b b' hj => ?_, fun h j b hj => ?_⟩
      · obtain rfl := Option.some.inj hbody
        exact (hbyte j b hj).mp (h j b hj) b'
      · exact (hbyte j b hj).mpr fun b' => h body rfl j b b' hj

/-- A buffer holds a string and its terminator. -/
theorem ofBytes_eq_iff {t : CString} : ∀ {buf : List UInt8},
    CString.ofBytes buf = t ↔
      ∀ j b, (CString.bytes t ++ [0])[j]? = some b → buf.getD j 0 = b := by
  induction t with
  | nil =>
    intro buf
    cases buf with
    | nil =>
      refine iff_of_true rfl fun j b hb => ?_
      rw [List.getD_nil]
      cases j with
      | zero => exact Option.some.inj hb
      | succ j => cases hb
    | cons c buf =>
      rw [CString.ofBytes]
      by_cases hc : c = 0
      · rw [dif_pos hc]
        refine iff_of_true rfl fun j b hb => ?_
        cases j with
        | zero => exact hc.trans (Option.some.inj hb)
        | succ j => cases hb
      · rw [dif_neg hc]
        exact iff_of_false (List.cons_ne_nil _ _) fun h => hc (h 0 0 rfl)
  | cons d t ih =>
    intro buf
    cases buf with
    | nil =>
      exact iff_of_false (List.cons_ne_nil _ _).symm fun h => d.property (h 0 d.val rfl).symm
    | cons c buf =>
      rw [CString.ofBytes]
      by_cases hc : c = 0
      · rw [dif_pos hc]
        exact iff_of_false (List.cons_ne_nil _ _).symm
          fun h => d.property ((h 0 d.val rfl).symm.trans hc)
      · rw [dif_neg hc, List.cons_eq_cons, ih]
        refine ⟨?_, fun h => ⟨Subtype.ext (h 0 d.val rfl), fun j b hb => h (j + 1) b hb⟩⟩
        rintro ⟨rfl, h⟩ j b hb
        cases j with
        | zero => exact Option.some.inj hb
        | succ j => exact h j b hb

/-! ## The whole page -/

section Page

variable {base : Option CString} {r : HtmlParseResult} {actions reached : List PageAction}

theorem getD_inlineCssBuf (hrun : actEach base .zero reached = .ok r) (j : Nat) :
    r.inlineCssBuf.getD j 0 = (last j (cssWrites 0 reached)).getD 0 := by
  have hbyte := congrFun (cssByte_actEach reached .zero hrun) j
  rw [written_eq] at hbyte
  exact hbyte

/-- **The base URL is the one said** exactly if the writes leave it at the front. -/
theorem baseText_iff (hrun : actEach base .zero reached = .ok r) (said : Option (List UInt8)) :
    (∀ t, r.baseText = some t → said = some (CString.bytes t)) ↔ BaseKept said reached := by
  have hhref := baseHref_actEach reached .zero hrun
  rw [HtmlParseResult.baseText, hhref]
  by_cases hnone : hrefs reached = []
  · rw [if_pos hnone]
    exact iff_of_true (fun t ht => by cases ht) fun hsome => absurd hnone hsome
  · rw [if_neg hnone, BaseKept]
    have hstring := fun t => @ofBytes_eq_iff t r.inlineCssBuf
    simp only [getD_inlineCssBuf hrun] at hstring
    refine ⟨fun h _ => ⟨_, h _ rfl, (hstring _).mp rfl⟩, fun h t ht => ?_⟩
    obtain ⟨t', hsaid, hfront⟩ := h hnone
    obtain rfl : CString.ofBytes r.inlineCssBuf = t := Option.some.inj ht
    rw [hsaid, ← (hstring t').mpr hfront]

theorem length_bodyPlaces (actions : List PageAction) : ∀ n : Nat,
    (bodyPlaces n actions).length = (bodies actions).length := by
  induction actions with
  | nil => exact fun _ => rfl
  | cons a actions ih =>
    intro n
    rw [bodyPlaces, List.length_append, ih, bodies, bodies, List.filterMap_cons]
    cases a with
    | refer type url => exact Nat.zero_add _
    | base href => exact Nat.zero_add _
    | css body => exact Nat.add_comm _ _

/-- The room that the bodies take, each with a terminator. -/
def bodiesSize (actions : List PageAction) : Nat :=
  ((bodies actions).map fun body => body.length + 1).sum

theorem cssSize_le_bodiesSize (actions : List PageAction) :
    cssSize actions ≤ bodiesSize actions := by
  induction actions with
  | nil => exact le_rfl
  | cons a actions ih =>
    rw [cssSize_cons, bodiesSize, bodies, List.filterMap_cons]
    cases a with
    | refer type url => exact (Nat.zero_add _).trans_le ih
    | base href => exact (Nat.zero_add _).trans_le ih
    | css body =>
      refine Nat.add_le_add (Nat.succ_le_succ ?_) ih
      rw [keptCss, List.length_take]
      exact Nat.min_le_right _ _

theorem keptCss_of_fits (h : bodiesSize actions ≤ htmlMaxInlineCss) {body : List UInt8}
    (hbody : body ∈ bodies actions) : keptCss body = body := by
  have hle : body.length + 1 ≤ bodiesSize actions := by
    obtain ⟨before, later, he⟩ := List.append_of_mem hbody
    rw [bodiesSize, he, List.map_append, List.map_cons, List.sum_append, List.sum_cons]
    omega
  exact List.take_of_length_le (Nat.le_sub_one_of_lt (hle.trans h))

/-- **The inline CSS is the page's** exactly if the bodies are kept. -/
theorem inlineTexts_iff (hfront : reached <+: actions)
    (hfits : bodiesSize actions ≤ htmlMaxInlineCss)
    (hproper : ∀ a ∈ reached, a.Proper) (hrun : actEach base .zero reached = .ok r) :
    r.inlineTexts <+: bodies actions ↔ BodiesKept 0 reached := by
  have hplaces : r.places = (bodyPlaces 0 reached).map fun q => (some q.1, q.2) :=
    places_actEach reached .zero hproper hrun
  have htexts : r.inlineTexts =
      (bodyPlaces 0 reached).map fun q => HtmlParseResult.textAt r.cssByte q.1 q.2 := by
    rw [HtmlParseResult.inlineTexts, hplaces, List.map_map]
    rfl
  have hbytes : ∀ p b, last p (cssWrites 0 reached) = some b → r.cssByte p = b := by
    intro p b hp
    rw [HtmlParseResult.cssByte, getD_inlineCssBuf hrun, hp]
    rfl
  have hbodies : bodies reached <+: bodies actions := by
    obtain ⟨rest, rfl⟩ := hfront
    rw [bodies, bodies, List.filterMap_append]
    exact List.prefix_append _ _
  have hkept : (bodies reached).map keptCss = bodies reached :=
    (List.map_congr_left fun body hbody =>
      keptCss_of_fits hfits (hbodies.subset hbody)).trans (List.map_id _)
  have hlen : r.inlineTexts.length = (bodies reached).length := by
    rw [htexts, List.length_map, length_bodyPlaces]
  rw [← bodies_eq_iff reached hbytes, hkept, ← htexts]
  refine ⟨fun h => ?_, fun h => h ▸ hbodies⟩
  exact (List.prefix_of_prefix_length_le h hbodies hlen.le).eq_of_length hlen

end Page

/-- **The result says what the page says** exactly if there is one, no write undoes another, and the
base URL is read as the page says it. -/
theorem saysWhatPageSays_iff {page after : List UInt8} {htmlLen : Nat}
    (hlen : pageLen (page ++ after) htmlLen = .ok page.length) (base : Option CString)
    (hfits : bodiesSize (readPage after .text page).actions ≤ htmlMaxInlineCss) :
    SaysWhatPageSays page after htmlLen base ↔
      NamesFit base (reached htmlMaxResources (readPage after .text page).actions) ∧
        ReadOn after page ∧
        BodiesKept 0 (reached htmlMaxResources (readPage after .text page).actions) ∧
        BaseKept (lastBase after page)
          (reached htmlMaxResources (readPage after .text page).actions) := by
  have hfront := isPrefix_reached (readPage after .text page).actions htmlMaxResources
  have hproper : ∀ a ∈ reached htmlMaxResources (readPage after .text page).actions, a.Proper :=
    fun a ha => proper_readPage a (hfront.subset ha)
  have htells : ∀ r, htmlParse (page ++ after) htmlLen base = .ok r → (ResultSays after page r ↔
      BodiesKept 0 (reached htmlMaxResources (readPage after .text page).actions) ∧
        BaseKept (lastBase after page)
          (reached htmlMaxResources (readPage after .text page).actions)) := by
    intro r hr
    have hparse := htmlParse_eq hlen base
    rw [hr] at hparse
    have hrun : actEach base .zero (reached htmlMaxResources (readPage after .text page).actions) =
        .ok r.untitled := (actAll_eq base _ .zero).symm.trans (actOn_ok hparse.symm)
    have hstyles := inlineTexts_iff hfront hfits hproper hrun
    have hbase := baseText_iff hrun (lastBase after page)
    exact ⟨fun h => ⟨hstyles.mp h.styles, hbase.mp h.base⟩,
      fun h => ⟨hstyles.mpr h.1, hbase.mpr h.2⟩⟩
  refine ⟨?_, ?_⟩
  · rintro ⟨r, hr, hresult⟩
    have hparse := htmlParse_eq hlen base
    rw [hr] at hparse
    exact ⟨(fits_of_actAll proper_readPage (actOn_ok hparse.symm)).1, last_of_htmlParse hlen hr,
      (htells r hr).mp hresult⟩
  · rintro ⟨hnames, hlast, hkept⟩
    have hroom := (cssSize_reached_le htmlMaxResources (readPage after .text page).actions).trans
      ((cssSize_le_bodiesSize _).trans hfits)
    obtain ⟨r, hr⟩ := exists_htmlParse hlen ((nameable_iff_namesFit hproper).mpr hnames) hroom hlast
    exact ⟨r, hr, (htells r hr).mpr hkept⟩

/-- `<style>/x</style><base href="/x">` -/
def agreeingPage : List UInt8 :=
  (text ['<', 's', 't', 'y', 'l', 'e', '>', '/', 'x', '<', '/', 's', 't', 'y', 'l', 'e', '>',
    '<', 'b', 'a', 's', 'e', ' ', 'h', 'r', 'e', 'f', '=', '"', '/', 'x', '"', '>']).bytes

/-- What the parser gives for it. -/
def agreeingResult : HtmlParseResult where
  resources := [⟨.inlineCss, [], [], some 0, 2⟩]
  title := none
  titleLen := 0
  baseHref := some 0
  baseHrefLen := 2
  inlineCssBuf := (text ['/', 'x']).bytes ++ [0]
  inlineCssLen := 3

/-- The base URL is put over a body of the same bytes. -/
theorem saysWhatPageSays_iff_agreeingPage :
    pageLen (agreeingPage ++ []) agreeingPage.length = .ok agreeingPage.length ∧
      bodiesSize (readPage [] .text agreeingPage).actions ≤ htmlMaxInlineCss ∧
      lastBase [] agreeingPage = some (text ['/', 'x']).bytes ∧
      SaysWhatPageSays agreeingPage [] agreeingPage.length none ∧
      BodiesKept 0 (reached htmlMaxResources (readPage [] .text agreeingPage).actions) ∧
      BaseKept (lastBase [] agreeingPage)
        (reached htmlMaxResources (readPage [] .text agreeingPage).actions) := by
  have hlast : lastBase [] agreeingPage = some (text ['/', 'x']).bytes := by decide
  have htext : agreeingResult.baseText = some (text ['/', 'x']) := by decide
  have htells : SaysWhatPageSays agreeingPage [] agreeingPage.length none := by
    refine ⟨agreeingResult, by decide, by decide, fun t ht => ?_⟩
    obtain rfl := Option.some.inj (htext.symm.trans ht)
    exact hlast
  have hfits : bodiesSize (readPage [] .text agreeingPage).actions ≤ htmlMaxInlineCss := by decide
  obtain ⟨-, -, hbodies, hbase⟩ := (saysWhatPageSays_iff (by decide) none hfits).mp htells
  exact ⟨by decide, hfits, hlast, htells, hbodies, hbase⟩

/-- `<base href="/x"><style>p{}</style>` -/
def baseStylePage : List UInt8 :=
  (text ['<', 'b', 'a', 's', 'e', ' ', 'h', 'r', 'e', 'f', '=', '"', '/', 'x', '"', '>']).bytes ++
    stylePage

/-- What the parser gives for it. -/
def baseStyleResult : HtmlParseResult where
  resources := [⟨.inlineCss, [], [], some 0, 3⟩]
  title := none
  titleLen := 0
  baseHref := some 0
  baseHrefLen := 2
  inlineCssBuf := (text ['p', '{', '}']).bytes ++ [0]
  inlineCssLen := 4

/-- The body is put over the base URL. -/
theorem not_saysWhatPageSays_baseStylePage :
    htmlParse (baseStylePage ++ []) baseStylePage.length none = .ok baseStyleResult ∧
      bodiesSize (readPage [] .text baseStylePage).actions ≤ htmlMaxInlineCss ∧
      lastBase [] baseStylePage = some (text ['/', 'x']).bytes ∧
      baseStyleResult.baseText = some (text ['p', '{', '}']) ∧
      ¬ SaysWhatPageSays baseStylePage [] baseStylePage.length none := by
  have hparse : htmlParse (baseStylePage ++ []) baseStylePage.length none =
      .ok baseStyleResult := by
    decide
  have hlast : lastBase [] baseStylePage = some (text ['/', 'x']).bytes := by decide
  have htext : baseStyleResult.baseText = some (text ['p', '{', '}']) := by decide
  refine ⟨hparse, by decide, hlast, htext, ?_⟩
  rintro ⟨r, hr, htells⟩
  obtain rfl := Except.ok.inj (hparse.symm.trans hr)
  have hbase := htells.base _ htext
  rw [hlast] at hbase
  exact absurd hbase (by decide)

end DsoBrowser

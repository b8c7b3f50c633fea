import DsoBrowser.InlineCss
import DsoBrowser.PageReads

/-!
# Pages that end in the middle of `</style`

In a `<style>` element the parser compares seven bytes with `</style` wherever it finds a `<`,
without a look at the length. So it reads on behind a page that ends, inside such an element, with
the front of `</style` (`readPage_cut_iff`), if the resources have not filled up before, and nowhere
else (`readsInside_iff`).
-/

namespace DsoBrowser

/-- The front of `</style`, but not all of it. -/
structure IsCut (cut : List UInt8) : Prop where
  ne_nil : cut ≠ []
  length_lt : cut.length < styleEnd.length
  same : cut.map toLower = (styleEnd.bytes.take cut.length).map toLower

/-- The page ends inside a `<style>` element whose body so far ends with the front of `</style`. -/
def EndsCut (page : List UInt8) : Prop :=
  ∃ css cut, (readPage [0] .text page).last = .ok (.style css) ∧ cut <:+ css ∧ IsCut cut

/-! ## Comparisons -/

/-- A comparison runs out of memory that is the front of the text it is compared with. -/
theorem startsWithCase_error_iff {lit : CString} : ∀ {mem : List UInt8},
    startsWithCase mem lit = .error .htmlRead ↔
      mem.length < lit.length ∧
        mem.map toLower = ((CString.bytes lit).take mem.length).map toLower := by
  induction lit with
  | nil =>
    intro mem
    rw [startsWithCase]
    exact iff_of_false (fun h => by cases h) fun h => Nat.not_lt_zero _ h.1
  | cons c lit ih =>
    intro mem
    cases mem with
    | nil =>
      rw [startsWithCase]
      exact iff_of_true rfl ⟨Nat.succ_pos _, rfl⟩
    | cons b mem =>
      rw [startsWithCase, List.length_cons, List.length_cons, Nat.add_lt_add_iff_right]
      change _ ↔ _ ∧ toLower b :: mem.map toLower =
        toLower c.val :: ((CString.bytes lit).take mem.length).map toLower
      rw [List.cons_eq_cons]
      split
      · rename_i hb
        rw [ih]
        exact ⟨fun h => ⟨h.1, hb, h.2⟩, fun h => ⟨h.1, h.2.2⟩⟩
      · rename_i hb
        exact iff_of_false (fun h => by cases h) fun h => hb h.2.1

theorem isCut_iff {b : UInt8} {page : List UInt8} :
    IsCut (b :: page) ↔ startsWithCase (b :: page) styleEnd = .error .htmlRead := by
  rw [startsWithCase_error_iff]
  exact ⟨fun h => ⟨h.length_lt, h.same⟩, fun h => ⟨List.cons_ne_nil _ _, h.1, h.2⟩⟩

/-- What is found before a terminator is found in the memory before it. -/
theorem length_of_starts {lit : CString} {rest : List UInt8} : ∀ {mem : List UInt8},
    startsWithCase (mem ++ 0 :: rest) lit = .ok true → lit.length ≤ mem.length := by
  induction lit with
  | nil => exact fun _ => Nat.zero_le _
  | cons c lit ih =>
    intro mem h
    cases mem with
    | nil =>
      rw [List.nil_append, startsWithCase] at h
      split at h
      · rename_i hc
        exact absurd (toLower_eq (by decide) hc.symm) c.property
      · cases h
    | cons b mem =>
      rw [List.cons_append, startsWithCase] at h
      split at h
      · exact Nat.succ_le_succ (ih h)
      · cases h

/-- A comparison that runs out of memory finds a difference at a terminator. -/
theorem startsWithCase_of_cut {mem : List UInt8} {lit : CString} {e : HtmlFault}
    (h : startsWithCase mem lit = .error e) (rest : List UInt8) :
    startsWithCase (mem ++ 0 :: rest) lit = .ok false := by
  obtain rfl := startsWithCase_error h
  obtain ⟨x, hx⟩ := startsWithCase_terminated mem rest lit
  cases x with
  | false => exact hx
  | true => exact absurd (startsWithCase_error_iff.mp h).1 (not_lt.mpr (length_of_starts hx))

/-! ## Pages with and without a terminator -/

/-- The body read so far. -/
def PageMode.body : PageMode → List UInt8
  | .style css => css
  | _ => []

theorem body_modeBehind (tag : List UInt8) : (modeBehind tag).body = [] := by
  rw [modeBehind]
  split <;> rfl

/-- The body of an element that does not end is the page's end. -/
theorem style_suffix {after page css : List UInt8} : ∀ {mode : PageMode},
    (readPage after mode page).last = .ok (.style css) → css <:+ mode.body ++ page := by
  induction page with
  | nil =>
    intro mode h
    obtain rfl := Except.ok.inj h
    rw [List.append_nil]
    exact List.suffix_rfl
  | cons b page ih =>
    have hcons : ∀ {l : List UInt8}, l <:+ page → l <:+ b :: page :=
      fun hl => hl.trans (List.suffix_cons _ _)
    intro mode h
    cases mode with
    | text =>
      rw [readPage] at h
      by_cases hb : b = tagStart
      · rw [if_pos hb] at h
        exact hcons (ih h)
      · rw [if_neg hb] at h
        exact hcons (ih h)
    | tag seen =>
      rw [readPage] at h
      by_cases hb : b = tagStop
      · rw [if_pos hb] at h
        by_cases hclosing : IsClosing seen
        · rw [if_pos hclosing] at h
          exact hcons (ih h)
        · rw [if_neg hclosing] at h
          have hsuffix := @ih (modeBehind seen) h
          rw [body_modeBehind] at hsuffix
          exact hcons hsuffix
      · rw [if_neg hb] at h
        exact hcons (ih h)
    | style css' =>
      rw [readPage] at h
      have hstyle : css' ++ b :: page = css' ++ [b] ++ page := List.append_cons _ _ _
      cases hstarts : startsWithCase (b :: (page ++ after)) styleEnd with
      | error e =>
        rw [hstarts] at h
        cases h
      | ok closes =>
        rw [hstarts] at h
        cases closes with
        | true =>
          exact (hcons (ih h)).trans (List.suffix_append _ _)
        | false =>
          change css <:+ css' ++ b :: page
          rw [hstyle]
          exact ih h

/-- A page too short for `</style` stays in its element. -/
theorem readPage_short {page : List UInt8} : ∀ {css : List UInt8},
    page.length < styleEnd.length →
      readPage [0] (.style css) page = ⟨[], .ok (.style (css ++ page))⟩ := by
  induction page with
  | nil =>
    intro css _
    rw [List.append_nil]
    rfl
  | cons b page ih =>
    intro css h
    obtain ⟨x, hx⟩ := startsWithCase_terminated (b :: page) [] styleEnd
    rw [readPage, ← List.cons_append, hx]
    cases x with
    | true => exact absurd h (not_lt.mpr (length_of_starts hx))
    | false =>
      simp only
      rw [ih ((Nat.lt_succ_self _).trans h), ← List.append_cons]

/-- The reading ends inside a `<style>` element, with the front of `</style` in the bytes read. -/
def CutWithin (page : List UInt8) (reading : PageReading) : Prop :=
  ∃ css cut, reading.last = .ok (.style css) ∧ cut <:+ page ∧ cut <:+ css ∧ IsCut cut

/-- An element that starts behind a byte ends behind it. -/
theorem cutWithin_cons_iff {b : UInt8} {page : List UInt8} {mode : PageMode}
    (hbody : mode.body = []) :
    CutWithin (b :: page) (readPage [0] mode page) ↔ CutWithin page (readPage [0] mode page) := by
  refine exists_congr fun css => exists_congr fun cut => and_congr_right fun hlast => ?_
  refine ⟨fun h => ⟨?_, h.2⟩, fun h => ⟨h.1.trans (List.suffix_cons _ _), h.2⟩⟩
  have hsuffix := style_suffix hlast
  rw [hbody] at hsuffix
  exact h.2.1.trans hsuffix

/-- So does one that goes on, if the front of `</style` does not start here. -/
theorem cutWithin_cons_iff_of_not {b : UInt8} {page : List UInt8} (h : ¬ IsCut (b :: page))
    (reading : PageReading) : CutWithin (b :: page) reading ↔ CutWithin page reading := by
  refine exists_congr fun css => exists_congr fun cut => and_congr_right fun _ => ?_
  refine and_congr_left fun hcut => List.suffix_cons_iff.trans (or_iff_right ?_)
  rintro rfl
  exact h hcut.2

/-- **The terminator** makes a difference only to a page that ends in the front of `</style`. -/
theorem readPage_cut_iff {page : List UInt8} : ∀ {mode : PageMode},
    ((readPage [] mode page).last = .error .htmlRead ↔
      CutWithin page (readPage [0] mode page)) ∧
      (readPage [] mode page).actions = (readPage [0] mode page).actions := by
  induction page with
  | nil =>
    intro mode
    refine ⟨iff_of_false (fun h => by cases h) ?_, rfl⟩
    rintro ⟨css, cut, -, hnil, -, hcut⟩
    exact hcut.ne_nil (List.suffix_nil.mp hnil)
  | cons b page ih =>
    intro mode
    cases mode with
    | text =>
      rw [readPage, readPage]
      by_cases hb : b = tagStart
      · rw [if_pos hb, if_pos hb, cutWithin_cons_iff rfl]
        exact ih
      · rw [if_neg hb, if_neg hb, cutWithin_cons_iff rfl]
        exact ih
    | tag seen =>
      rw [readPage, readPage]
      by_cases hb : b = tagStop
      · rw [if_pos hb, if_pos hb]
        by_cases hclosing : IsClosing seen
        · rw [if_pos hclosing, if_pos hclosing, cutWithin_cons_iff rfl]
          exact ih
        · rw [if_neg hclosing, if_neg hclosing]
          have hbehind := @cutWithin_cons_iff b page _ (body_modeBehind seen)
          exact ⟨ih.1.trans hbehind.symm, congrArg (_ ++ ·) ih.2⟩
      · rw [if_neg hb, if_neg hb, cutWithin_cons_iff rfl]
        exact ih
    | style css =>
      rw [readPage, readPage, List.append_nil]
      cases hstarts : startsWithCase (b :: page) styleEnd with
      | error e =>
        -- the comparison runs out of the page
        obtain rfl := startsWithCase_error hstarts
        have hcut := isCut_iff.mpr hstarts
        have hfalse := startsWithCase_of_cut hstarts []
        have hshort := @readPage_short page (css ++ [b])
          ((Nat.lt_succ_self _).trans hcut.length_lt)
        rw [List.cons_append] at hfalse
        rw [hfalse]
        simp only
        rw [hshort]
        refine ⟨iff_of_true trivial ⟨_, _, rfl, List.suffix_rfl, ?_, hcut⟩, rfl⟩
        rw [← List.append_cons]
        exact List.suffix_append _ _
      | ok closes =>
        have hmore := startsWithCase_append_ok hstarts [0]
        rw [List.cons_append] at hmore
        rw [hmore]
        -- the front of `</style` does not start here
        have hno : ¬ IsCut (b :: page) := by
          intro hcut
          rw [isCut_iff.mp hcut] at hstarts
          cases hstarts
        have hbehind := cutWithin_cons_iff_of_not hno
        cases closes with
        | true => exact ⟨ih.1.trans (hbehind _).symm, congrArg (_ ++ ·) ih.2⟩
        | false => exact ⟨ih.1.trans (hbehind _).symm, ih.2⟩

/-- The parser runs out of the page exactly if it ends so. -/
theorem endsCut_iff {page : List UInt8} :
    EndsCut page ↔ (readPage [] .text page).last = .error .htmlRead := by
  rw [readPage_cut_iff.1]
  refine exists_congr fun css => exists_congr fun cut => and_congr_right fun hlast => ?_
  exact ⟨fun h => ⟨h.1.trans (style_suffix hlast), h⟩, fun h => h.2⟩

/-! ## When the parser stays inside -/

/-- The parser reads only inside the page, and the title lies there. A parse that writes a name over
its end does not count: it may have gone over the title, and over the number of resources. -/
def ReadsInside (html : List UInt8) (base : Option CString) : Prop :=
  ∃ r, htmlParseChecked html base = .ok r ∧ ∀ t, r.title = some t → t + r.titleLen ≤ html.length

/-- The names fit, as far as they are reached with room for `n` resources, and the page is read to
its end or the resources fill up. -/
def ReadThrough (base : Option CString) (n : Nat) (reading : PageReading) : Prop :=
  (∀ a ∈ reached n reading.actions, a.Nameable base) ∧
    (n ≤ reading.actions.countP (·.adds) ∨ ∃ mode, reading.last = .ok mode)

section Through

variable {base : Option CString} {html : List UInt8}

theorem readThrough_zero (reading : PageReading) : ReadThrough base 0 reading :=
  ⟨fun _ ha => absurd ((reached_zero _).symm ▸ ha) List.not_mem_nil, Or.inl (Nat.zero_le _)⟩

theorem readThrough_behind_none {n : Nat} {reading : PageReading} :
    ReadThrough base n (reading.behind (none : Option PageAction).toList) ↔
      ReadThrough base n reading := Iff.rfl

/-- With an action before it. -/
theorem readThrough_behind_some {n : Nat} {a : PageAction} {reading : PageReading} :
    ReadThrough base (n + 1) (reading.behind (some a).toList) ↔
      a.Nameable base ∧ ReadThrough base (if a.adds then n else n + 1) reading := by
  change (∀ b ∈ a :: reached _ _, _) ∧ (_ ≤ (a :: reading.actions).countP _ ∨ _) ↔ _
  rw [List.forall_mem_cons, List.countP_cons, and_assoc, ReadThrough]
  refine and_congr_right fun _ => and_congr_right fun _ => or_congr_left ?_
  cases a.adds <;> simp

theorem atMode_atFront {pre : List UInt8} {s : HtmlScan} {mode : PageMode} :
    AtMode pre s.atFront mode ↔ AtMode pre s mode := by
  cases mode <;> rfl

/-- At the front of the buffer there is room for every body. -/
theorem act_atFront {s : HtmlScan} {a : PageAction} {e : HtmlFault}
    (h : s.atFront.result.untitled.act base a = .error e) : ¬ a.Nameable base := by
  rcases act_error h with ⟨-, hno⟩ | ⟨-, hover⟩
  · exact hno
  · change htmlMaxInlineCss < 0 + a.cssSize at hover
    have hle := a.cssSize_le
    omega

/-- **The loop** ends exactly if what is left of the page is read through. -/
theorem scanLoopAt_ok_iff (fuel : Nat) : ∀ {pre page : List UInt8} {s : HtmlScan}
    {mode : PageMode}, html = pre ++ page → page.length < fuel → InPage html.length s →
      s.i = pre.length → AtMode pre s mode →
      ((∃ s', scanLoopAt html html.length base fuel s = .ok s') ↔
        ReadThrough base (htmlMaxResources - s.result.resources.length)
          (readPage [] mode page)) := by
  induction fuel with
  | zero => exact fun _ hfuel => absurd hfuel (Nat.not_lt_zero _)
  | succ fuel ih =>
    intro pre page s mode hhtml hfuel hin hi hmode
    rw [scanLoopAt, scanStepAt_eq hin.atFront.style]
    by_cases hroom : HasRoom s.result
    swap
    · have hfull : htmlMaxResources - s.result.resources.length = 0 :=
        Nat.sub_eq_zero_of_le (not_lt.mp hroom)
      rw [scanStep_full (s := s.atFront) _ _ hroom, hfull]
      exact iff_of_true ⟨s, rfl⟩ (readThrough_zero _)
    obtain ⟨n, hn⟩ : ∃ n, htmlMaxResources - s.result.resources.length = n + 1 :=
      ⟨htmlMaxResources - s.result.resources.length - 1, by rw [HasRoom] at hroom; omega⟩
    have hpasses := @scanStep_passes base [] pre page s.atFront mode hi
      (atMode_atFront.mpr hmode) hroom
    have hnext := @InPage.scanStep html base s.atFront html.length hin.atFront
    rw [List.append_nil, ← hhtml, ← List.length_append, ← hhtml] at hpasses
    rw [hn]
    generalize scanStep html html.length base s.atFront = step at hpasses hnext
    cases hpasses with
    | done hread =>
      rw [hread]
      refine iff_of_true ⟨s, rfl⟩ ⟨fun a ha => ?_, Or.inr ⟨_, rfl⟩⟩
      cases ha
    | leaves hread =>
      rw [hread]
      refine iff_of_false (fun h => by obtain ⟨s', hs'⟩ := h; cases hs') fun h => ?_
      rcases h.2 with hcount | ⟨mode', hlast⟩
      · exact Nat.not_succ_le_zero n hcount
      · cases hlast
    | @fails o reading e hread hact =>
      rw [hread]
      refine iff_of_false (fun h => by obtain ⟨s', hs'⟩ := h; cases hs') fun h => ?_
      cases o with
      | none => cases hact
      | some a => exact act_atFront hact (readThrough_behind_some.mp h).1
    | @goesOn o seen rest mode' next hpage hne hread hact hi' hmode' =>
      have hlen := congrArg List.length hpage
      rw [List.length_append] at hlen
      have hpos := List.length_pos_iff.mpr hne
      have hrest := @ih (pre ++ seen) rest next mode'
        (by rw [hhtml, hpage, List.append_assoc]) (by omega) (hnext rfl) hi' hmode'
      rw [hread]
      refine hrest.trans ?_
      cases o with
      | none =>
        have hsame := congrArg HtmlParseResult.resources (Except.ok.inj hact)
        change s.result.resources = next.result.resources at hsame
        rw [readThrough_behind_none, ← hsame, hn]
      | some a =>
        have hact' : s.atFront.result.untitled.act base a = .ok next.result.untitled := hact
        have hcount := length_of_act hact'
        change next.result.resources.length = s.result.resources.length + _ at hcount
        have hleft : htmlMaxResources - next.result.resources.length =
            if a.adds then n else n + 1 := by
          rw [hcount]
          split <;> omega
        rw [readThrough_behind_some, hleft, and_iff_right (nameable_of_act hact')]

/-- So does the whole parse, and then the title lies in the page. -/
theorem readsInside_iff_readThrough (h : html ≠ []) :
    ReadsInside html base ↔ ReadThrough base htmlMaxResources (readPage [] .text html) := by
  have hin : InPage html.length ⟨0, false, 0, .zero⟩ := ⟨le_rfl, fun t ht => by cases ht⟩
  have hloop := @scanLoopAt_ok_iff base html (html.length + 1) [] html ⟨0, false, 0, .zero⟩ .text
    rfl (Nat.lt_succ_self _) hin rfl rfl
  change _ ↔ ReadThrough base htmlMaxResources _ at hloop
  rw [ReadsInside, htmlParseChecked, if_neg (mt List.eq_nil_of_length_eq_zero h), ← hloop]
  refine ⟨fun hr => ?_, fun hs => ?_⟩
  · obtain ⟨r, hparse, -⟩ := hr
    obtain ⟨s, hs, -⟩ := exists_of_bind_ok hparse
    exact ⟨s, hs⟩
  · obtain ⟨s, hs⟩ := hs
    rw [hs]
    exact ⟨s.result, rfl, (InPage.scanLoopAt _ hin hs).title⟩

end Through

/-- `<style></` -/
def cutPage : List UInt8 :=
  (text ['<', 's', 't', 'y', 'l', 'e', '>', '<', '/']).bytes

end DsoBrowser

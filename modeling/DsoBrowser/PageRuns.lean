import DsoBrowser.Lib.Filling
import DsoBrowser.PageActions

/-!
# What the parser leaves

What one action does to the result (`act_refer`, `act_base`, `act_css`), and from it what comes of
all of them: the parser gets as far as its room for resources reaches (`actAll_eq`), adds what is
asked for in the page's order (`entries_of_actAll`), and fails only where a name or the inline CSS
has no room.
-/

namespace DsoBrowser

open Filling

/-! ## Resources -/

/-- What a resource is, but for where its text is. -/
structure PageEntry where
  type : HtmlResourceType
  rawUrl : CString
  name : CString
  inlineLen : Nat
  deriving DecidableEq

/-- What a resource is. -/
def HtmlResource.entry (res : HtmlResource) : PageEntry :=
  ⟨res.type, res.rawUrl, res.name, res.inlineLen⟩

/-- The name a URL gets. -/
def linkName (base : Option CString) (url : CString) : CString :=
  match htmlResolveUrl base url htmlMaxAttrLen with
  | .ok out => CString.ofBytes out.2
  | .error _ => []

/-- Of a body, what fits the buffer by itself is kept. -/
def keptCss (body : List UInt8) : List UInt8 := body.take (htmlMaxInlineCss - 1)

namespace PageAction

/-- What an action adds. -/
def entryOf? (base : Option CString) : PageAction → Option PageEntry
  | .refer type url => if url = [] then none else some ⟨type, url, linkName base url, 0⟩
  | .base _ => none
  | .css body => some ⟨.inlineCss, [], [], (keptCss body).length⟩

/-- It adds a resource. -/
def adds (a : PageAction) : Bool := (a.entryOf? none).isSome

/-- What it takes of the inline CSS buffer, with a terminator. -/
def cssSize : PageAction → Nat
  | .css body => (keptCss body).length + 1
  | _ => 0

/-- Its URL can be resolved. -/
def Nameable (base : Option CString) : PageAction → Prop
  | .refer _ url => url = [] ∨ ∃ out, htmlResolveUrl base url htmlMaxAttrLen = .ok out
  | _ => True

/-- One body fits the buffer by itself. -/
theorem cssSize_le (a : PageAction) : a.cssSize ≤ htmlMaxInlineCss := by
  cases a with
  | refer type url => exact Nat.zero_le _
  | base href => exact Nat.zero_le _
  | css body =>
    rw [cssSize, keptCss, List.length_take]
    have hpos : htmlMaxInlineCss = htmlMaxInlineCss - 1 + 1 := rfl
    omega

theorem isSome_entryOf? (base : Option CString) (a : PageAction) :
    (a.entryOf? base).isSome = a.adds := by
  cases a with
  | refer type url =>
    rw [adds, entryOf?, entryOf?]
    split <;> rfl
  | base href => rfl
  | css body => rfl

end PageAction

/-- What all of them take. -/
def cssSize (actions : List PageAction) : Nat := (actions.map PageAction.cssSize).sum

/-- The actions that are reached, with room for `n` resources. -/
def reached : Nat → List PageAction → List PageAction
  | 0, _ => []
  | _ + 1, [] => []
  | n + 1, a :: actions => a :: reached (if a.adds then n else n + 1) actions

@[simp] theorem reached_zero (actions : List PageAction) : reached 0 actions = [] := by
  cases actions <;> rfl

@[simp] theorem cssSize_nil : cssSize [] = 0 := rfl

@[simp] theorem cssSize_cons (a : PageAction) (actions : List PageAction) :
    cssSize (a :: actions) = a.cssSize + cssSize actions := List.sum_cons

theorem cssSize_append (actions actions' : List PageAction) :
    cssSize (actions ++ actions') = cssSize actions + cssSize actions' := by
  rw [cssSize, List.map_append, List.sum_append]
  rfl

theorem isPrefix_reached (actions : List PageAction) : ∀ n, reached n actions <+: actions := by
  induction actions with
  | nil => intro n; cases n <;> exact List.nil_prefix
  | cons a actions ih =>
    intro n
    cases n with
    | zero => exact List.nil_prefix
    | succ n => exact (List.prefix_cons_inj a).mpr (ih _)

theorem cssSize_reached_le (n : Nat) (actions : List PageAction) :
    cssSize (reached n actions) ≤ cssSize actions := by
  obtain ⟨rest, hrest⟩ := isPrefix_reached actions n
  have hsum := congrArg cssSize hrest
  rw [cssSize_append] at hsum
  omega

/-- The name of the URL fits a resource: it is cut to it, but for a URL relative to a base, which is
put behind the base's directory as it is. -/
def NameFits (base : Option CString) (url : CString) : Prop :=
  hasScheme http url = true ∨ hasScheme https url = true ∨ url.head? = some slash ∨
    ∀ b, base = some b → lastSlash b + 1 + url.length ≤ htmlMaxAttrLen

/-- All names do. -/
def NamesFit (base : Option CString) (actions : List PageAction) : Prop :=
  ∀ type url, PageAction.refer type url ∈ actions → NameFits base url

/-! ## What one action does -/

section Act

open HtmlParseResult

variable {base : Option CString} {r r' : HtmlParseResult} {e : HtmlFault}

theorem htmlResolveUrl_none (url : CString) (n : Nat) :
    ∃ out, htmlResolveUrl none url n = .ok out := by
  rw [htmlResolveUrl.eq_def]
  split
  · exact ⟨_, rfl⟩
  split
  · exact ⟨_, rfl⟩
  split
  · exact ⟨_, rfl⟩
  split
  · exact ⟨_, rfl⟩
  · exact ⟨_, rfl⟩

theorem htmlResolveUrl_error {url : CString} {n : Nat} (h : htmlResolveUrl base url n = .error e) :
    e = .nameWrite := by
  cases base with
  | none =>
    obtain ⟨out, hout⟩ := htmlResolveUrl_none url n
    rw [hout] at h
    cases h
  | some base =>
    rw [htmlResolveUrl.eq_def] at h
    split at h
    · cases h
    split at h
    · cases h
    split at h
    · cases h
    split at h
    · cases h
    · dsimp only at h
      split at h
      · cases h
      · exact (Except.error.inj h).symm

theorem nameable_none (a : PageAction) : a.Nameable none := by
  cases a with
  | refer type url => exact Or.inr (htmlResolveUrl_none url _)
  | base href => trivial
  | css body => trivial

/-- A URL can be resolved exactly if its name fits. -/
theorem nameable_refer_iff {type : HtmlResourceType} {url : CString} (hurl : url ≠ []) :
    (PageAction.refer type url).Nameable base ↔ NameFits base url := by
  have hpos : htmlMaxAttrLen ≠ 0 := by decide
  have hfits : ∀ {out}, htmlResolveUrl base url htmlMaxAttrLen = .ok out →
      ((PageAction.refer type url).Nameable base ↔ True) :=
    fun h => iff_true_intro (Or.inr ⟨_, h⟩)
  rw [NameFits]
  by_cases hhttp : hasScheme http url = true
  · rw [hfits (by rw [htmlResolveUrl.eq_def, if_neg hpos, if_pos hhttp])]
    exact iff_of_true trivial (Or.inl hhttp)
  by_cases hhttps : hasScheme https url = true
  · rw [hfits (by rw [htmlResolveUrl.eq_def, if_neg hpos, if_neg hhttp, if_pos hhttps])]
    exact iff_of_true trivial (Or.inr (Or.inl hhttps))
  by_cases hroot : url.head? = some slash
  · rw [hfits (by rw [htmlResolveUrl.eq_def, if_neg hpos, if_neg hhttp, if_neg hhttps,
      if_pos hroot])]
    exact iff_of_true trivial (Or.inr (Or.inr (Or.inl hroot)))
  rw [or_iff_right hhttp, or_iff_right hhttps, or_iff_right hroot]
  cases base with
  | none => exact iff_of_true (nameable_none _) fun b hb => by cases hb
  | some b =>
    rw [PageAction.Nameable, or_iff_right hurl, htmlResolveUrl.eq_def, if_neg hpos, if_neg hhttp,
      if_neg hhttps, if_neg hroot]
    dsimp only
    by_cases hle : lastSlash b + 1 + url.length ≤ htmlMaxAttrLen
    · rw [if_pos hle]
      exact iff_of_true ⟨_, rfl⟩ fun b' hb' => Option.some.inj hb' ▸ hle
    · rw [if_neg hle]
      exact iff_of_false (fun h => by obtain ⟨out, hout⟩ := h; cases hout) fun h => hle (h b rfl)

/-- What is in the inline CSS buffer after a write. -/
def poked (buf : List UInt8) (pos : Nat) (bytes : List UInt8) : List UInt8 :=
  (buf ++ List.replicate (pos - buf.length) 0).take pos ++ bytes ++ buf.drop (pos + bytes.length)

theorem pokeCss_eq (buf : List UInt8) (pos : Nat) (bytes : List UInt8) :
    pokeCss buf pos bytes = if pos + bytes.length ≤ htmlMaxInlineCss then .ok (poked buf pos bytes)
      else .error .cssWrite := rfl

theorem length_poked (buf : List UInt8) (pos : Nat) (bytes : List UInt8) :
    (poked buf pos bytes).length = max buf.length (pos + bytes.length) := by
  rw [poked, List.length_append, List.length_append, List.length_take, List.length_append,
    List.length_replicate, List.length_drop]
  omega

/-- **A URL** adds a resource under its name. -/
theorem act_refer (type : HtmlResourceType) (url : CString) :
    (url = [] ∧ r.act base (.refer type url) = .ok r) ∨
    (url ≠ [] ∧ (PageAction.refer type url).Nameable base ∧
      r.act base (.refer type url) =
        .ok (r.push ⟨type, linkName base url, url, none, 0⟩)) ∨
    (¬ (PageAction.refer type url).Nameable base ∧
      r.act base (.refer type url) = .error .nameWrite) := by
  rcases eq_or_ne url [] with rfl | hne
  · exact Or.inl ⟨rfl, rfl⟩
  · rw [HtmlParseResult.act, refer, if_neg hne]
    cases hout : htmlResolveUrl base url htmlMaxAttrLen with
    | ok out =>
      refine Or.inr (Or.inl ⟨hne, Or.inr ⟨out, hout⟩, ?_⟩)
      rw [linkName, hout]
      rfl
    | error e =>
      refine Or.inr (Or.inr ⟨?_, ?_⟩)
      · rintro (h | ⟨out, h⟩)
        · exact hne h
        · rw [hout] at h
          cases h
      · rw [htmlResolveUrl_error hout]
        rfl

/-- **A base URL** goes to the front of the inline CSS buffer. -/
theorem act_base (href : CString) :
    r.act base (.base href) = .ok (if href = [] then r else { r with
      baseHref := some 0
      baseHrefLen := (href.take (htmlMaxInlineCss - 1)).length
      inlineCssBuf := poked r.inlineCssBuf 0
        (CString.bytes (href.take (htmlMaxInlineCss - 1)) ++ [0]) }) := by
  rw [HtmlParseResult.act, setBase]
  split
  · rfl
  · have hfit : 0 + (CString.bytes (href.take (htmlMaxInlineCss - 1)) ++ [0]).length ≤
        htmlMaxInlineCss := by
      rw [List.length_append, CString.length_bytes, List.length_take, List.length_singleton]
      have hpos : htmlMaxInlineCss = htmlMaxInlineCss - 1 + 1 := rfl
      omega
    dsimp only
    rw [pokeCss_eq, if_pos hfit]
    rfl

/-- **A body** goes behind the inline CSS so far. -/
theorem act_css (body : List UInt8) :
    r.act base (.css body) =
      if r.inlineCssLen + ((keptCss body).length + 1) ≤ htmlMaxInlineCss then
        .ok { r.push ⟨.inlineCss, [], [], some r.inlineCssLen, (keptCss body).length⟩ with
          inlineCssBuf := poked r.inlineCssBuf r.inlineCssLen (keptCss body ++ [0])
          inlineCssLen := r.inlineCssLen + ((keptCss body).length + 1) }
      else .error .cssWrite := by
  have hcss : (body.drop 0).take (min (body.length - 0) (htmlMaxInlineCss - 1)) = keptCss body := by
    rw [List.drop_zero, Nat.sub_zero, Nat.min_comm, ← List.take_eq_take_min]
    rfl
  rw [HtmlParseResult.act, closeStyle, hcss]
  dsimp only
  rw [pokeCss_eq, List.length_append, List.length_singleton]
  split <;> rfl

/-- What a URL that has a name does. -/
theorem act_refer_ok {type : HtmlResourceType} {url : CString}
    (h : r.act base (.refer type url) = .ok r') :
    (url = [] ∧ r' = r) ∨
      (url ≠ [] ∧ r' = r.push ⟨type, linkName base url, url, none, 0⟩) := by
  rcases @act_refer base r type url with ⟨hurl, h'⟩ | ⟨hurl, -, h'⟩ | ⟨-, h'⟩
  · exact Or.inl ⟨hurl, Except.ok.inj (h.symm.trans h')⟩
  · exact Or.inr ⟨hurl, Except.ok.inj (h.symm.trans h')⟩
  · rw [h'] at h
    cases h

/-- What a body that fits does. -/
theorem act_css_ok {body : List UInt8} (h : r.act base (.css body) = .ok r') :
    r.inlineCssLen + ((keptCss body).length + 1) ≤ htmlMaxInlineCss ∧
      r' = { r.push ⟨.inlineCss, [], [], some r.inlineCssLen, (keptCss body).length⟩ with
        inlineCssBuf := poked r.inlineCssBuf r.inlineCssLen (keptCss body ++ [0])
        inlineCssLen := r.inlineCssLen + ((keptCss body).length + 1) } := by
  rw [act_css] at h
  split at h
  · rename_i hfit
    exact ⟨hfit, (Except.ok.inj h).symm⟩
  · cases h

/-- An action fails because it has no name, or no room. -/
theorem act_error {a : PageAction} (h : r.act base a = .error e) :
    (e = .nameWrite ∧ ¬ a.Nameable base) ∨
      (e = .cssWrite ∧ htmlMaxInlineCss < r.inlineCssLen + a.cssSize) := by
  cases a with
  | refer type url =>
    rcases @act_refer base r type url with ⟨-, h'⟩ | ⟨-, -, h'⟩ | ⟨hno, h'⟩
    · rw [h'] at h
      cases h
    · rw [h'] at h
      cases h
    · rw [h'] at h
      exact Or.inl ⟨(Except.error.inj h).symm, hno⟩
  | base href =>
    rw [act_base] at h
    cases h
  | css body =>
    rw [act_css] at h
    split at h
    · cases h
    · rename_i hfull
      exact Or.inr ⟨(Except.error.inj h).symm, not_le.mp hfull⟩

theorem nameable_of_act {a : PageAction} (h : r.act base a = .ok r') : a.Nameable base := by
  cases a with
  | refer type url =>
    rcases @act_refer base r type url with ⟨hurl, -⟩ | ⟨-, hname, -⟩ | ⟨-, herror⟩
    · exact Or.inl hurl
    · exact hname
    · rw [herror] at h
      cases h
  | base href => trivial
  | css body => trivial

/-- What an action that is done does to the resources and to the place for inline CSS. -/
theorem act_adds {a : PageAction} (h : r.act base a = .ok r') :
    r'.resources.map HtmlResource.entry =
        r.resources.map HtmlResource.entry ++ (a.entryOf? base).toList ∧
      r'.inlineCssLen = r.inlineCssLen + a.cssSize := by
  cases a with
  | refer type url =>
    rcases act_refer_ok h with ⟨hurl, rfl⟩ | ⟨hurl, rfl⟩
    · rw [PageAction.entryOf?, if_pos hurl]
      exact ⟨(List.append_nil _).symm, rfl⟩
    · rw [PageAction.entryOf?, if_neg hurl]
      exact ⟨List.map_append, rfl⟩
  | base href =>
    rw [act_base] at h
    cases h
    refine ⟨?_, ?_⟩ <;> split
    · exact (List.append_nil _).symm
    · exact (List.append_nil _).symm
    · rfl
    · rfl
  | css body =>
    obtain ⟨-, rfl⟩ := act_css_ok h
    exact ⟨List.map_append, rfl⟩

theorem length_of_act {a : PageAction} (h : r.act base a = .ok r') :
    r'.resources.length = r.resources.length + if a.adds then 1 else 0 := by
  have hlen := congrArg List.length (act_adds h).1
  rw [List.length_map, List.length_append, List.length_map] at hlen
  rw [hlen, ← PageAction.isSome_entryOf? base]
  cases a.entryOf? base <;> rfl

end Act

/-! ## What all of them do -/

section Runs

open HtmlParseResult

variable {base : Option CString} {r r' : HtmlParseResult} {e : HtmlFault}

/-- One action after the other, with no regard to the room. -/
def actEach (base : Option CString) (r : HtmlParseResult) (actions : List PageAction) :
    Except HtmlFault HtmlParseResult := actions.foldlM (fun r a => r.act base a) r

theorem actEach_cons (r : HtmlParseResult) (a : PageAction) (actions : List PageAction) :
    actEach base r (a :: actions) = r.act base a >>= fun r => actEach base r actions :=
  List.foldlM_cons

theorem actEach_cons_ok {a : PageAction} {actions : List PageAction}
    (h : actEach base r (a :: actions) = .ok r') :
    ∃ r₁, r.act base a = .ok r₁ ∧ actEach base r₁ actions = .ok r' := by
  rw [actEach_cons] at h
  exact exists_of_bind_ok h

theorem actAll_cons_ok {a : PageAction} {actions : List PageAction}
    (h : r.actAll base (a :: actions) = .ok r') :
    (HasRoom r ∧ ∃ r₁, r.act base a = .ok r₁ ∧ r₁.actAll base actions = .ok r') ∨
      (¬ HasRoom r ∧ r' = r) := by
  by_cases hroom : HasRoom r
  · rw [actAll_cons hroom] at h
    exact Or.inl ⟨hroom, exists_of_bind_ok h⟩
  · rw [actAll_full hroom] at h
    exact Or.inr ⟨hroom, (Except.ok.inj h).symm⟩

/-- The parser does the actions it reaches. -/
theorem actAll_eq (base : Option CString) (actions : List PageAction) :
    ∀ r : HtmlParseResult, r.actAll base actions =
      actEach base r (reached (htmlMaxResources - r.resources.length) actions) := by
  induction actions with
  | nil =>
    intro r
    cases htmlMaxResources - r.resources.length <;> rfl
  | cons a actions ih =>
    intro r
    by_cases hroom : HasRoom r
    · obtain ⟨n, hn⟩ : ∃ n, htmlMaxResources - r.resources.length = n + 1 :=
        ⟨htmlMaxResources - r.resources.length - 1, by rw [HasRoom] at hroom; omega⟩
      rw [actAll_cons hroom, hn, reached, actEach_cons]
      cases hact : r.act base a with
      | error e => rfl
      | ok r' =>
        have hlen := length_of_act hact
        have hleft : htmlMaxResources - r'.resources.length = if a.adds then n else n + 1 := by
          rw [hlen]
          split <;> omega
        rw [← hleft]
        exact ih r'
    · have hfull : htmlMaxResources - r.resources.length = 0 := by
        rw [HasRoom] at hroom
        omega
      rw [actAll_full hroom, hfull]
      rfl

/-- **What is added**, until there is no more room. -/
theorem entries_of_actAll (actions : List PageAction) : ∀ r : HtmlParseResult,
    r.actAll base actions = .ok r' → r'.resources.map HtmlResource.entry =
      fill htmlMaxResources (r.resources.map HtmlResource.entry)
        (actions.filterMap (·.entryOf? base)) := by
  induction actions with
  | nil =>
    intro r h
    cases h
    exact (fill_nil _ _).symm
  | cons a actions ih =>
    intro r h
    rcases actAll_cons_ok h with ⟨hroom, r₁, hact, hall⟩ | ⟨hroom, rfl⟩
    · rw [ih r₁ hall, (act_adds hact).1]
      cases hentry : a.entryOf? base with
      | none => rw [List.filterMap_cons_none hentry, Option.toList_none, List.append_nil]
      | some x =>
        rw [List.filterMap_cons_some hentry, fill_cons (by rw [List.length_map]; exact hroom)]
        rfl
    · rw [fill_of_full (by rw [List.length_map]; exact not_lt.mp hroom)]

theorem length_entries (base : Option CString) (actions : List PageAction) :
    (actions.filterMap (·.entryOf? base)).length = actions.countP (·.adds) := by
  rw [List.length_filterMap_eq_countP]
  exact congrArg (fun p => List.countP p actions) (funext fun a => a.isSome_entryOf? base)

/-- **How many resources there are** in the end. -/
theorem length_of_actAll {actions : List PageAction}
    (h : HtmlParseResult.zero.actAll base actions = .ok r) :
    r.resources.length = min htmlMaxResources (actions.countP (·.adds)) := by
  have hlen := congrArg List.length (entries_of_actAll actions .zero h)
  rw [fill, List.length_map, List.length_append, List.length_map, List.length_take,
    length_entries] at hlen
  exact hlen.trans (Nat.zero_add _)

/-- Where the next inline CSS goes. -/
theorem inlineCssLen_of_actEach (actions : List PageAction) : ∀ r : HtmlParseResult,
    actEach base r actions = .ok r' → r'.inlineCssLen = r.inlineCssLen + cssSize actions := by
  induction actions with
  | nil =>
    intro r h
    cases h
    rfl
  | cons a actions ih =>
    intro r h
    obtain ⟨r₁, hact, heach⟩ := actEach_cons_ok h
    rw [ih r₁ heach, (act_adds hact).2, cssSize_cons, Nat.add_assoc]

/-- What is done has a name. -/
theorem nameable_of_actEach (actions : List PageAction) : ∀ r : HtmlParseResult,
    actEach base r actions = .ok r' → ∀ a ∈ actions, a.Nameable base := by
  induction actions with
  | nil => exact fun _ _ a ha => absurd ha List.not_mem_nil
  | cons a actions ih =>
    intro r h b hb
    obtain ⟨r₁, hact, heach⟩ := actEach_cons_ok h
    rcases List.mem_cons.mp hb with rfl | hb
    · exact nameable_of_act hact
    · exact ih r₁ heach b hb

/-- What has no name fails, and so does what has no room. -/
theorem actEach_error (actions : List PageAction) : ∀ r : HtmlParseResult,
    actEach base r actions = .error e →
      (e = .nameWrite ∧ ∃ a ∈ actions, ¬ a.Nameable base) ∨
        (e = .cssWrite ∧ htmlMaxInlineCss < r.inlineCssLen + cssSize actions) := by
  induction actions with
  | nil =>
    intro r h
    cases h
  | cons a actions ih =>
    intro r h
    rw [actEach_cons] at h
    rw [cssSize_cons]
    cases hact : r.act base a with
    | error e' =>
      rw [hact] at h
      cases h
      refine (act_error hact).imp ?_ ?_
      · rintro ⟨he, hno⟩
        exact ⟨he, a, List.mem_cons_self, hno⟩
      · rintro ⟨he, hover⟩
        exact ⟨he, by omega⟩
    | ok r₁ =>
      rw [hact] at h
      have hlen := (act_adds hact).2
      refine (ih r₁ h).imp ?_ ?_
      · rintro ⟨he, b, hb, hno⟩
        exact ⟨he, b, List.mem_cons_of_mem _ hb, hno⟩
      · rintro ⟨he, hover⟩
        exact ⟨he, by omega⟩

end Runs

/-! ## What comes of a reading -/

section Readings

variable {base : Option CString} {r r' : HtmlParseResult} {e : HtmlFault}

theorem actOn_error_cases {reading : PageReading} (h : r.actOn base reading = .error e) :
    r.actAll base reading.actions = .error e ∨
      ∃ r', r.actAll base reading.actions = .ok r' ∧ HasRoom r' ∧ reading.last = .error e := by
  rw [HtmlParseResult.actOn] at h
  cases hall : r.actAll base reading.actions with
  | error e' =>
    rw [hall] at h
    exact Or.inl h
  | ok r' =>
    rw [hall] at h
    by_cases hroom : HasRoom r'
    · exact Or.inr ⟨r', rfl, hroom, eq_error_of_map ((if_pos hroom).symm.trans h)⟩
    · cases (if_neg hroom).symm.trans h

theorem actOn_ok {reading : PageReading} (h : r.actOn base reading = .ok r') :
    r.actAll base reading.actions = .ok r' := by
  obtain ⟨r₁, hall, hend⟩ := exists_of_bind_ok h
  rw [hall]
  by_cases hroom : HasRoom r₁
  · have hlast := (if_pos hroom).symm.trans hend
    cases hmode : reading.last with
    | error e =>
      rw [hmode] at hlast
      cases hlast
    | ok mode =>
      rw [hmode] at hlast
      exact hlast
  · exact (if_neg hroom).symm.trans hend

/-- A reading fails only where it leaves the memory. -/
theorem readPage_error {after page : List UInt8} : ∀ {mode : PageMode},
    (readPage after mode page).last = .error e → e = .htmlRead := by
  induction page with
  | nil =>
    intro mode h
    cases h
  | cons b page ih =>
    intro mode h
    cases mode with
    | text =>
      rw [readPage] at h
      split at h
      · exact ih h
      · exact ih h
    | tag seen =>
      rw [readPage] at h
      split at h
      · split at h
        · exact ih h
        · exact ih h
      · exact ih h
    | style css =>
      rw [readPage] at h
      split at h
      · rename_i hstarts
        cases h
        exact startsWithCase_error hstarts
      · exact ih h
      · exact ih h

/-- A terminated page is read to its end. -/
theorem exists_last_of_terminated {after page : List UInt8} (h : after.head? = some 0) :
    ∀ {mode : PageMode}, ∃ mode', (readPage after mode page).last = .ok mode' := by
  induction page with
  | nil => exact ⟨_, rfl⟩
  | cons b page ih =>
    intro mode
    cases mode with
    | text =>
      rw [readPage]
      split <;> exact ih
    | tag seen =>
      rw [readPage]
      split
      · split <;> exact ih
      · exact ih
    | style css =>
      obtain ⟨rest, rfl⟩ := List.head?_eq_some_iff.mp h
      obtain ⟨x, hx⟩ := startsWithCase_terminated (b :: page) rest styleEnd
      rw [List.cons_append] at hx
      rw [readPage, hx]
      cases x with
      | true => exact ih
      | false => exact ih

end Readings

/-! ## What comes of a page -/

section Pages

variable {base : Option CString} {r : HtmlParseResult}

/-- Where everything has its name and its room, all is done. -/
theorem exists_actEach {actions : List PageAction} (hname : ∀ a ∈ actions, a.Nameable base)
    (hfit : r.inlineCssLen + cssSize actions ≤ htmlMaxInlineCss) :
    ∃ r', actEach base r actions = .ok r' := by
  cases hrun : actEach base r actions with
  | ok r' => exact ⟨r', rfl⟩
  | error e =>
    rcases actEach_error actions r hrun with ⟨-, a, ha, hno⟩ | ⟨-, hover⟩
    · exact absurd (hname a ha) hno
    · omega

/-- **The resources** that the parser gives are the first that the page asks for. -/
theorem entries_of_htmlParse {page after : List UInt8} {htmlLen : Nat}
    (hlen : pageLen (page ++ after) htmlLen = .ok page.length)
    (h : htmlParse (page ++ after) htmlLen base = .ok r) :
    r.resources.map HtmlResource.entry =
      ((readPage after .text page).actions.filterMap (·.entryOf? base)).take htmlMaxResources := by
  have hparse := htmlParse_eq hlen base
  rw [h] at hparse
  have hentries := entries_of_actAll _ _ (actOn_ok hparse.symm)
  rwa [fill, List.length_map] at hentries

/-- The parser gives a result if what it reaches has its name and its room, and the page is read to
its end or the resources fill up before. -/
theorem exists_htmlParse {page after : List UInt8} {htmlLen : Nat}
    (hlen : pageLen (page ++ after) htmlLen = .ok page.length)
    (hname : ∀ a ∈ reached htmlMaxResources (readPage after .text page).actions, a.Nameable base)
    (hfit : cssSize (reached htmlMaxResources (readPage after .text page).actions) ≤
      htmlMaxInlineCss)
    (hlast : htmlMaxResources ≤ (readPage after .text page).actions.countP (·.adds) ∨
      ∃ mode, (readPage after .text page).last = .ok mode) :
    ∃ r, htmlParse (page ++ after) htmlLen base = .ok r := by
  have hparse := htmlParse_eq hlen base
  obtain ⟨r', hrun⟩ := exists_actEach (r := .zero) hname ((Nat.zero_add _).trans_le hfit)
  have hall : HtmlParseResult.zero.actAll base (readPage after .text page).actions = .ok r' :=
    (actAll_eq base _ _).trans hrun
  cases h : htmlParse (page ++ after) htmlLen base with
  | ok r => exact ⟨r, rfl⟩
  | error e =>
    rw [h] at hparse
    rcases actOn_error_cases hparse.symm with herror | ⟨r₁, hok, hroom, herror⟩
    · rw [hall] at herror
      cases herror
    · exfalso
      rcases hlast with hfull | ⟨mode, hmode⟩
      · rw [HasRoom, length_of_actAll hok] at hroom
        omega
      · rw [hmode] at herror
        cases herror

/-- Where there is a result, the page was read to its end or the resources filled up. -/
theorem last_of_htmlParse {page after : List UInt8} {htmlLen : Nat}
    (hlen : pageLen (page ++ after) htmlLen = .ok page.length)
    (h : htmlParse (page ++ after) htmlLen base = .ok r) :
    htmlMaxResources ≤ (readPage after .text page).actions.countP (·.adds) ∨
      ∃ mode, (readPage after .text page).last = .ok mode := by
  have hparse := htmlParse_eq hlen base
  rw [h] at hparse
  cases hlast : (readPage after .text page).last with
  | ok mode => exact Or.inr ⟨mode, rfl⟩
  | error e =>
    have hall := actOn_ok hparse.symm
    by_cases hroom : HasRoom r.untitled
    · rw [HtmlParseResult.actOn, hall] at hparse
      have herror := hparse.trans (if_pos hroom)
      rw [hlast] at herror
      cases herror
    · rw [HasRoom, length_of_actAll hall] at hroom
      exact Or.inl (by omega)

end Pages

end DsoBrowser

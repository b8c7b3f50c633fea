import DsoBrowser.PageActions

/-!
# What the tags of a page say

The attributes of a tag once more, read byte by byte and without the parser's scanner
(`readAttrs`): quotes are looked at, and only white space ends a value without them. Of a tag that
follows the grammar the value of an attribute is the wanted one (`saidAttr_bytes`). The base URLs
that a page says are those of its `<base>` tags (`saidBases`).
-/

namespace DsoBrowser

/-! ## Attributes -/

/-- What a tag is at a byte. -/
inductive AttrMode
  /-- between attributes -/
  | between
  /-- in a name -/
  | name (n : List UInt8)
  /-- in white space behind a name -/
  | named (n : List UInt8)
  /-- behind the `=` of a name -/
  | equals (n : List UInt8)
  /-- in a value with quotes -/
  | quoted (n : List UInt8) (quote : UInt8) (v : List UInt8)
  /-- in a value without quotes -/
  | plain (n v : List UInt8)

/-- The names and values of the attributes; `none` if a quote is left open. -/
def readAttrs : AttrMode → List UInt8 → Option (List (List UInt8 × Option (List UInt8)))
  | .between, [] => some []
  | .between, b :: bs => if isSpace b then readAttrs .between bs else readAttrs (.name [b]) bs
  | .name n, [] => some [(n, none)]
  | .name n, b :: bs =>
    if isSpace b then readAttrs (.named n) bs
    else if b = eqByte then readAttrs (.equals n) bs
    else readAttrs (.name (n ++ [b])) bs
  | .named n, [] => some [(n, none)]
  | .named n, b :: bs =>
    if isSpace b then readAttrs (.named n) bs
    else if b = eqByte then readAttrs (.equals n) bs
    else (readAttrs (.name [b]) bs).map ((n, none) :: ·)
  | .equals n, [] => some [(n, none)]
  | .equals n, b :: bs =>
    if isSpace b then readAttrs (.equals n) bs
    else if IsQuote b then readAttrs (.quoted n b []) bs
    else readAttrs (.plain n [b]) bs
  | .quoted _ _ _, [] => none
  | .quoted n quote v, b :: bs =>
    if b = quote then (readAttrs .between bs).map ((n, some v) :: ·)
    else readAttrs (.quoted n quote (v ++ [b])) bs
  | .plain n v, [] => some [(n, some v)]
  | .plain n v, b :: bs =>
    if isSpace b then (readAttrs .between bs).map ((n, some v) :: ·)
    else readAttrs (.plain n (v ++ [b])) bs

section Attrs

variable {rest : List UInt8}

theorem readAttrs_space {space : List UInt8} (h : AllSpace space) :
    readAttrs .between (space ++ rest) = readAttrs .between rest := by
  induction space with
  | nil => rfl
  | cons b space ih =>
    rw [List.cons_append, readAttrs, if_pos (h b List.mem_cons_self)]
    exact ih fun c hc => h c (List.mem_cons_of_mem _ hc)

/-- The bytes of a name. -/
theorem readAttrs_name {m : List UInt8} (h : ∀ b ∈ m, isSpace b = false ∧ b ≠ eqByte) :
    ∀ n : List UInt8, readAttrs (.name n) (m ++ rest) = readAttrs (.name (n ++ m)) rest := by
  induction m with
  | nil =>
    intro n
    rw [List.append_nil]
    rfl
  | cons b m ih =>
    intro n
    obtain ⟨hspace, heq⟩ := h b List.mem_cons_self
    rw [List.cons_append, readAttrs, if_neg (by rw [hspace]; exact Bool.false_ne_true), if_neg heq,
      ih fun c hc => h c (List.mem_cons_of_mem _ hc), List.append_assoc]
    rfl

/-- The bytes of a value up to its quote. -/
theorem readAttrs_quoted {n w : List UInt8} {quote : UInt8} (h : quote ∉ w) :
    ∀ v : List UInt8, readAttrs (.quoted n quote v) (w ++ quote :: rest) =
      (readAttrs .between rest).map ((n, some (v ++ w)) :: ·) := by
  induction w with
  | nil =>
    intro v
    rw [List.nil_append, readAttrs, if_pos rfl, List.append_nil]
  | cons b w ih =>
    intro v
    rw [List.mem_cons, not_or] at h
    rw [List.cons_append, readAttrs, if_neg (Ne.symm h.1), ih h.2, List.append_assoc]
    rfl

/-- The bytes of a value without quotes. -/
theorem readAttrs_plain {n w : List UInt8} (h : ∀ b ∈ w, isSpace b = false) :
    ∀ v : List UInt8, readAttrs (.plain n v) (w ++ rest) = readAttrs (.plain n (v ++ w)) rest := by
  induction w with
  | nil =>
    intro v
    rw [List.append_nil]
    rfl
  | cons b w ih =>
    intro v
    rw [List.cons_append, readAttrs,
      if_neg (by rw [h b List.mem_cons_self]; exact Bool.false_ne_true),
      ih fun c hc => h c (List.mem_cons_of_mem _ hc), List.append_assoc]
    rfl

/-- White space ends a value without quotes. -/
theorem readAttrs_plain_end (h : FollowsAttr rest) (n v : List UInt8) :
    readAttrs (.plain n v) rest = (readAttrs .between rest).map ((n, some v) :: ·) := by
  cases rest with
  | nil => rfl
  | cons b rest =>
    have hspace := h.space b rfl
    rw [readAttrs, if_pos hspace, readAttrs, if_pos hspace]

/-- Without an `=` behind the white space, the attribute has no value. -/
theorem readAttrs_named {n : List UInt8} : (∀ ws r, AllSpace ws → rest ≠ ws ++ eqByte :: r) →
    readAttrs (.named n) rest = (readAttrs .between rest).map ((n, none) :: ·) := by
  induction rest with
  | nil => exact fun _ => rfl
  | cons b rest ih =>
    intro h
    rw [readAttrs, readAttrs]
    by_cases hspace : isSpace b = true
    · rw [if_pos hspace, if_pos hspace]
      refine ih fun ws r hws he => h (b :: ws) r (fun c hc => ?_) (congrArg (b :: ·) he)
      rcases List.mem_cons.mp hc with rfl | hc
      · exact hspace
      · exact hws c hc
    · have hne : b ≠ eqByte := by
        rintro rfl
        exact h [] rest (fun _ hc => by cases hc) rfl
      rw [if_neg hspace, if_neg hspace, if_neg hne]

theorem readAttrs_name_end (h : FollowsAttr rest) (n : List UInt8) :
    readAttrs (.name n) rest = (readAttrs .between rest).map ((n, none) :: ·) := by
  cases rest with
  | nil => rfl
  | cons b rest =>
    have hspace := h.space b rfl
    rw [readAttrs, if_pos hspace, readAttrs, if_pos hspace]
    refine readAttrs_named fun ws r hws he => h.no_eq (b :: ws) r (fun c hc => ?_)
      (congrArg (b :: ·) he)
    rcases List.mem_cons.mp hc with rfl | hc
    · exact hspace
    · exact hws c hc

/-- One attribute of the grammar. -/
theorem readAttrs_attr (y : TagAttr) (h : FollowsAttr rest) :
    readAttrs .between (y.bytes ++ rest) =
      (readAttrs .between rest).map ((y.name, y.form.value?) :: ·) := by
  obtain ⟨b, m, hm⟩ := List.exists_cons_of_ne_nil y.name_ne
  have hok : ∀ c ∈ y.name, isSpace c = false ∧ c ≠ eqByte :=
    fun c hc => ⟨(y.name_ok c hc).1, (y.name_ok c hc).2.1⟩
  have hname : ∀ r, readAttrs .between (y.name ++ r) = readAttrs (.name y.name) r := by
    intro r
    rw [hm, List.cons_append, readAttrs,
      if_neg (by rw [(hok b (hm ▸ List.mem_cons_self)).1]; exact Bool.false_ne_true),
      readAttrs_name fun c hc => hok c (hm ▸ List.mem_cons_of_mem _ hc)]
    rfl
  have heq : ∀ r, readAttrs (.name y.name) (eqByte :: r) = readAttrs (.equals y.name) r := by
    intro r
    rw [readAttrs, if_neg (by decide), if_pos rfl]
  have hform := y.form_ok
  rw [TagAttr.bytes, List.append_assoc, readAttrs_space y.allSpace, List.append_assoc, hname]
  cases hcase : y.form with
  | bare => exact readAttrs_name_end h y.name
  | quoted quote v =>
    rw [hcase] at hform
    obtain ⟨hquote, hv, -⟩ := hform
    have hspace : isSpace quote = false := by rcases hquote with rfl | rfl <;> decide
    change readAttrs (.name y.name) (eqByte :: (quote :: (v ++ [quote]) ++ rest)) = _
    rw [heq, List.cons_append, readAttrs, if_neg (by rw [hspace]; exact Bool.false_ne_true),
      if_pos hquote, List.append_assoc]
    exact readAttrs_quoted hv []
  | plain v =>
    rw [hcase] at hform
    obtain ⟨hne, hv⟩ := hform
    obtain ⟨c, w, rfl⟩ := List.exists_cons_of_ne_nil hne
    obtain ⟨hcspace, hcquote, -⟩ := hv c List.mem_cons_self
    change readAttrs (.name y.name) (eqByte :: (c :: w ++ rest)) = _
    rw [heq, List.cons_append, readAttrs, if_neg (by rw [hcspace]; exact Bool.false_ne_true),
      if_neg hcquote, readAttrs_plain fun d hd => (hv d (List.mem_cons_of_mem _ hd)).1]
    exact readAttrs_plain_end h y.name (c :: w)

/-- **The attributes of the grammar** are read as they are. -/
theorem readAttrs_attrsBytes (attrs : List TagAttr) {space : List UInt8} (h : AllSpace space) :
    readAttrs .between (attrsBytes attrs space) =
      some (attrs.map fun y => (y.name, y.form.value?)) := by
  induction attrs with
  | nil =>
    have hspace := @readAttrs_space [] space h
    rw [List.append_nil] at hspace
    exact hspace
  | cons y ys ih =>
    have hcons : attrsBytes (y :: ys) space = y.bytes ++ attrsBytes ys space := by
      rw [attrsBytes, List.flatMap_cons, List.append_assoc]
      rfl
    rw [hcons, readAttrs_attr y (followsAttr_attrsBytes ys h), ih]
    rfl

end Attrs

/-! ## Tags -/

/-- The value of the first attribute of the name that has one, if the tag can be read. -/
def saidAttr (a : CString) (tag : List UInt8) : Option (Option (List UInt8)) :=
  (readAttrs .between (tag.dropWhile fun b => !isSpace b)).map fun attrs =>
    (attrs.find? fun x => SameName a x.1 ∧ x.2.isSome).bind fun x => x.2

/-- **A tag of the grammar** says the wanted value. -/
theorem saidAttr_bytes (a : CString) (tag : StartTag) :
    saidAttr a tag.bytes = some ((wanted? a tag.attrs).bind fun y => y.form.value?) := by
  have hdrop : tag.bytes.dropWhile (fun b => !isSpace b) = attrsBytes tag.attrs tag.space := by
    rw [StartTag.bytes, ← List.cons_append, List.dropWhile_append_of_pos]
    · cases hrest : attrsBytes tag.attrs tag.space with
      | nil => rfl
      | cons b rest =>
        have hfollows := followsAttr_attrsBytes tag.attrs tag.allSpace
        rw [hrest] at hfollows
        rw [List.dropWhile_cons_of_neg]
        rw [hfollows.space b rfl]
        exact Bool.false_ne_true
    · intro b hb
      rcases List.mem_cons.mp hb with rfl | hb
      · decide
      · rw [(tag.name_ok b hb).1]
        rfl
  have hwanted : ∀ y : TagAttr,
      decide (SameName a y.name ∧ y.form.value?.isSome = true) = decide (IsWanted a y) := by
    intro y
    refine decide_eq_decide.mpr (and_congr_right fun _ => ?_)
    cases y.form <;> simp [AttrForm.value?, AttrForm.behind?]
  rw [saidAttr, hdrop, readAttrs_attrsBytes tag.attrs tag.allSpace, Option.map_some,
    List.find?_map, Option.bind_map, wanted?]
  simp only [Function.comp_def, hwanted]

/-- The tag is a `<base>` tag. -/
def isBase (tag : List UInt8) : Bool :=
  equalsCase (extractTagName tag) (text ['b', 'a', 's', 'e'])

/-- What a tag says of the base: nothing, a URL, or something that cannot be read. -/
def saidBase (tag : List UInt8) : Option (Option (List UInt8)) :=
  if isBase tag then
    match saidAttr (text ['h', 'r', 'e', 'f']) tag with
    | none => some none
    | some v => v.map some
  else none

/-! ## Pages -/

/-- The tags of a page but for the closing ones, in its order. -/
def pageTags (after : List UInt8) : PageMode → List UInt8 → List (List UInt8)
  | _, [] => []
  | .text, b :: page =>
    if b = tagStart then pageTags after (.tag [b]) page else pageTags after .text page
  | .tag seen, b :: page =>
    if b = tagStop then
      if IsClosing seen then pageTags after .text page
      else seen :: pageTags after (modeBehind seen) page
    else pageTags after (.tag (seen ++ [b])) page
  | .style css, b :: page =>
    match startsWithCase (b :: (page ++ after)) styleEnd with
    | .error _ => []
    | .ok true => pageTags after .text page
    | .ok false => pageTags after (.style (css ++ [b])) page

/-- What the `<base>` tags of a page say. -/
def saidBases (after page : List UInt8) : List (Option (List UInt8)) :=
  (pageTags after .text page).filterMap saidBase

/-- The last base URL that a page says, if it can be read. -/
def lastBase (after page : List UInt8) : Option (List UInt8) := (saidBases after page).getLast?.join

end DsoBrowser

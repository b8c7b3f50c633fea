import DsoBrowser.AttributeScan

/-!
# Start tags and their attributes

A start tag is a name and attributes with white space between them, each bare, quoted or plain
(`StartTag`). Of the attributes of a given name, `extract_attr` is to give the value of the first
that has one (`wantedValue`). It does where no attribute before that misleads it and the value is
read as a whole (`PlainlyFound`), and where none misleads it, only then (`extractAttr_exact_iff`).
It takes

* a name that repeats the wanted one for it, and
* words of a quoted value for attributes, and
* a `/` for the end of a value without quotes.

On a tag that misleads, it gives what stands behind the first such mention
(`extractedBytes_of_misled`).
-/

namespace DsoBrowser

/-! ## The grammar -/

/-- The byte is one of the two quotes. -/
def IsQuote (b : UInt8) : Prop := b = (ch '"').val ∨ b = (ch '\'').val

instance (b : UInt8) : Decidable (IsQuote b) := inferInstanceAs (Decidable (_ ∨ _))

/-- The byte that ends a tag. -/
def tagStop : UInt8 := (ch '>').val

/-- How an attribute is written behind its name. -/
inductive AttrForm
  /-- without a value -/
  | bare
  /-- `="v"` or `='v'` -/
  | quoted (quote : UInt8) (v : List UInt8)
  /-- `=v` -/
  | plain (v : List UInt8)

namespace AttrForm

/-- Which values there are. -/
def Ok : AttrForm → Prop
  | bare => True
  | quoted quote v => IsQuote quote ∧ quote ∉ v ∧ tagStop ∉ v
  | plain v => v ≠ [] ∧ ∀ b ∈ v, isSpace b = false ∧ ¬ IsQuote b ∧ b ≠ tagStop

instance : (form : AttrForm) → Decidable form.Ok
  | bare => inferInstanceAs (Decidable True)
  | quoted _ _ => inferInstanceAs (Decidable (_ ∧ _ ∧ _))
  | plain _ => inferInstanceAs (Decidable (_ ∧ _))

/-- The value. -/
def value? : AttrForm → Option (List UInt8)
  | bare => none
  | quoted _ v => some v
  | plain v => some v

/-- What is written behind the `=`. -/
def behind? : AttrForm → Option (List UInt8)
  | bare => none
  | quoted quote v => some (quote :: (v ++ [quote]))
  | plain v => some v

/-- What is written behind the name. -/
def text (form : AttrForm) : List UInt8 := form.behind?.elim [] (eqByte :: ·)

/-- The first `n` bytes of the value are read: a `/` ends one without quotes. -/
def ReadsWhole (n : Nat) : AttrForm → Prop
  | bare => True
  | quoted _ _ => True
  | plain v => slash.val ∉ v.take n

end AttrForm

/-- An attribute and the white space before it. -/
structure TagAttr where
  /-- white space -/
  space : List UInt8
  /-- name -/
  name : List UInt8
  /-- value, if there is one -/
  form : AttrForm
  space_ne : space ≠ []
  allSpace : AllSpace space
  name_ne : name ≠ []
  name_ok : ∀ b ∈ name, isSpace b = false ∧ b ≠ eqByte ∧ ¬ IsQuote b ∧ b ≠ tagStop
  form_ok : form.Ok

/-- The bytes of an attribute. -/
def TagAttr.bytes (y : TagAttr) : List UInt8 := y.space ++ (y.name ++ y.form.text)

/-- `<name`, attributes, and perhaps white space, up to the `>`. -/
structure StartTag where
  /-- name -/
  name : List UInt8
  /-- attributes -/
  attrs : List TagAttr
  /-- white space before the `>` -/
  space : List UInt8
  name_ok : ∀ b ∈ name, isSpace b = false ∧ b ≠ tagStop
  allSpace : AllSpace space

/-- The bytes of attributes and of the white space behind them. -/
def attrsBytes (attrs : List TagAttr) (space : List UInt8) : List UInt8 :=
  attrs.flatMap TagAttr.bytes ++ space

/-- The bytes of a start tag, without the `>`. -/
def StartTag.bytes (tag : StartTag) : List UInt8 :=
  (ch '<').val :: (tag.name ++ attrsBytes tag.attrs tag.space)

theorem attrsBytes_cons (y : TagAttr) (ys : List TagAttr) (space : List UInt8) :
    attrsBytes (y :: ys) space =
      y.space ++ (y.name ++ (y.form.text ++ attrsBytes ys space)) := by
  simp only [attrsBytes, TagAttr.bytes, List.flatMap_cons, List.append_assoc]

/-! ## What is wanted -/

/-- The attribute has the name, and a value. -/
def IsWanted (a : CString) (y : TagAttr) : Prop := SameName a y.name ∧ y.form.behind? ≠ none

instance (a : CString) (y : TagAttr) : Decidable (IsWanted a y) :=
  inferInstanceAs (Decidable (_ ∧ _))

/-- The attributes before the first wanted one. -/
def beforeWanted (a : CString) (attrs : List TagAttr) : List TagAttr :=
  attrs.takeWhile fun y => ¬ IsWanted a y

/-- The first wanted one. -/
def wanted? (a : CString) (attrs : List TagAttr) : Option TagAttr :=
  attrs.find? fun y => IsWanted a y

/-- The value that is to be given, cut to `n` bytes. -/
def wantedValue (a : CString) (n : Nat) (attrs : List TagAttr) : List UInt8 :=
  (((wanted? a attrs).bind fun y => y.form.value?).getD []).take n

/-- Inside a value, a mention of the name. -/
def InnerMention (a : CString) (v r : List UInt8) : Prop :=
  ∃ u b t, v = u ++ b :: t ∧ isSpace b = true ∧ Mention a t r

/-- The attribute is taken for the wanted one: it has a value and its name repeats the wanted one,
or its value is quoted and has a mention behind white space. -/
def TagAttr.Misleads (a : CString) (y : TagAttr) : Prop :=
  (y.form.behind? ≠ none ∧ Copies a y.name ∧ ¬ SameName a y.name) ∨
    ∃ quote v r, y.form = .quoted quote v ∧ InnerMention a v r

/-! ## Mentions in a tag -/

/-- What may follow an attribute: white space and then no `=`, or nothing. -/
structure FollowsAttr (rest : List UInt8) : Prop where
  /-- white space comes first -/
  space : ∀ b, rest.head? = some b → isSpace b = true
  /-- and no `=` after that -/
  no_eq : ∀ ws r, AllSpace ws → rest ≠ ws ++ eqByte :: r

theorem followsAttr_attrsBytes (attrs : List TagAttr) {space : List UInt8} (h : AllSpace space) :
    FollowsAttr (attrsBytes attrs space) := by
  cases attrs with
  | nil =>
    refine ⟨fun b hb => h b (List.mem_of_head? hb), ?_⟩
    rintro ws r - rfl
    exact absurd (h eqByte (by simp)) (by decide)
  | cons y ys =>
    obtain ⟨c, name, hname⟩ := List.exists_cons_of_ne_nil y.name_ne
    obtain ⟨hc, hceq, -, -⟩ := y.name_ok c (by rw [hname]; exact List.mem_cons_self)
    rw [attrsBytes_cons]
    refine ⟨fun b hb => ?_, fun ws r hws he => ?_⟩
    · rw [List.head?_append_of_ne_nil _ y.space_ne] at hb
      exact y.allSpace b (List.mem_of_head? hb)
    · rw [hname, List.cons_append] at he
      have heq := space_eq y.allSpace hws (fun b hb => by
        obtain rfl : c = b := by simpa using hb
        exact hc) he
      exact hceq (List.cons.inj heq).1

/-- A mention does not start where no word does. -/
theorem Mention.ne_nil_of_follows {a : CString} (ha : AttrName a) {rest p m ws r : List UInt8}
    (hrest : FollowsAttr rest) (hm : Copies a m) (h : rest = p ++ (m ++ (ws ++ eqByte :: r))) :
    p ≠ [] := by
  rintro rfl
  obtain ⟨b, m', rfl, hb⟩ := hm.exists_cons ha
  have hspace := hrest.space b (by rw [h]; rfl)
  rw [hb.not_space] at hspace
  cases hspace

/-- Two texts without an `=` that one follows are the same. -/
theorem eq_of_eqByte {x y r s : List UInt8} (hx : eqByte ∉ x) (hy : eqByte ∉ y)
    (h : x ++ eqByte :: r = y ++ eqByte :: s) : x = y ∧ r = s := by
  have hrs : r.length = s.length :=
    Nat.le_antisymm (length_le_of_first hy h.symm) (length_le_of_first hx h)
  obtain ⟨hxy, he⟩ := List.append_inj' h (by rw [List.length_cons, List.length_cons, hrs])
  exact ⟨hxy, (List.cons.inj he).2⟩

section Attr

variable {a : CString} {y : TagAttr} {rest r : List UInt8}

/-- A mention at the attribute's own name. -/
theorem copies_of_mention_name (ha : AttrName a) (hrest : FollowsAttr rest) {m ws : List UInt8}
    (hm : Copies a m) (hws : AllSpace ws)
    (h : y.name ++ (y.form.text ++ rest) = m ++ (ws ++ eqByte :: r)) :
    Copies a y.name ∧ ∃ u, y.form.behind? = some u ∧ r = u ++ rest := by
  have hnameEq : eqByte ∉ y.name := fun hmem => (y.name_ok _ hmem).2.1 rfl
  have hmEq : eqByte ∉ m ++ ws := by
    rw [List.mem_append]
    rintro (hmem | hmem)
    · exact not_letter_eqByte (hm.letters ha _ hmem)
    · exact absurd (hws _ hmem) (by decide)
  cases hbehind : y.form.behind? with
  | none =>
    -- the `=` would follow the name and white space
    exfalso
    rw [AttrForm.text, hbehind, Option.elim_none, List.nil_append] at h
    rcases List.append_eq_append_iff.mp h with ⟨u, hmu, hu⟩ | ⟨u, hnu, hu⟩
    · cases u with
      | nil => exact hrest.no_eq ws r hws hu
      | cons b u =>
        have hletter := hm.letters ha b (by rw [hmu]; simp)
        have hspace := hrest.space b (by rw [hu]; rfl)
        rw [hletter.not_space] at hspace
        cases hspace
    · cases u with
      | nil => exact hrest.no_eq ws r hws hu.symm
      | cons b u =>
        have hb := y.name_ok b (by rw [hnu]; simp)
        cases ws with
        | nil => exact hb.2.1 (List.cons.inj hu).1.symm
        | cons c ws =>
          have hspace := hws c List.mem_cons_self
          rw [(List.cons.inj hu).1, hb.1] at hspace
          cases hspace
  | some u =>
    rw [AttrForm.text, hbehind, Option.elim_some, List.cons_append, ← List.append_assoc m] at h
    obtain ⟨hname, hr⟩ := eq_of_eqByte hnameEq hmEq h
    have hnil : ws = [] := by
      refine List.eq_nil_iff_forall_not_mem.mpr fun b hb => ?_
      have hspace := hws b hb
      rw [(y.name_ok b (by rw [hname]; exact List.mem_append_right _ hb)).1] at hspace
      cases hspace
    rw [hnil, List.append_nil] at hname
    exact ⟨hname ▸ hm, u, rfl, hr.symm⟩

/-- What has no quote in it ends before the first one. -/
theorem exists_before_quote {w u v : List UInt8} {quote : UInt8} (hno : quote ∉ w)
    (h : w ++ r = u ++ quote :: v) : ∃ r', u = w ++ r' ∧ r = r' ++ quote :: v := by
  rcases List.append_eq_append_iff.mp h with ⟨c, hc, hr⟩ | ⟨c, hc, hr⟩
  · exact ⟨c, hc, hr⟩
  · cases c with
    | nil => exact ⟨[], by rw [hc, List.append_nil, List.append_nil], hr.symm⟩
    | cons d c =>
      obtain ⟨rfl, -⟩ := List.cons.inj hr
      exact absurd (by rw [hc]; simp) hno

/-- A mention behind a name with a quoted value is in the value or in what follows. -/
theorem mention_of_behind_quoted (ha : AttrName a) {quote : UInt8} (hquote : IsQuote quote)
    {v p m ws : List UInt8} (hpne : p ≠ []) (hp : EndsInSpace p) (hm : Copies a m)
    (hws : AllSpace ws)
    (h : [eqByte, quote] ++ (v ++ quote :: rest) = p ++ (m ++ (ws ++ eqByte :: r))) :
    (∃ r', InnerMention a v r' ∧ r = r' ++ quote :: rest) ∨ Mention a rest r := by
  have hqspace : isSpace quote = false := by rcases hquote with rfl | rfl <;> decide
  have hqletter : ¬ IsLetter quote := by rcases hquote with rfl | rfl <;> decide
  have hqeq : quote ≠ eqByte := by rcases hquote with rfl | rfl <;> decide
  have hword : ∀ b ∈ [eqByte, quote], isSpace b = false :=
    List.forall_mem_cons.mpr ⟨by decide, List.forall_mem_singleton.mpr hqspace⟩
  rcases behind_word hword hp h with hnil | ⟨q, hq, rfl, h₁⟩
  · exact absurd hnil hpne
  have hqend := hp.of_append
  obtain ⟨b, m', hbm, hb⟩ := hm.exists_cons ha
  rcases List.append_eq_append_iff.mp h₁ with ⟨u, rfl, hu⟩ | ⟨u, hvu, hu⟩
  · -- behind the value
    refine Or.inr ?_
    cases u with
    | nil =>
      rw [hbm] at hu
      obtain ⟨rfl, -⟩ := List.cons.inj hu
      exact absurd hb hqletter
    | cons c u =>
      obtain ⟨-, hrest'⟩ := List.cons.inj hu
      refine ⟨u, m, ws, hrest', ?_, hm, hws⟩
      exact EndsInSpace.of_append (s := v ++ [c]) (by simpa using hqend)
  · -- inside the value: the quote comes after the `=`
    have hno : quote ∉ m ++ (ws ++ [eqByte]) := by
      rw [List.mem_append, List.mem_append, List.mem_singleton]
      rintro (hmem | hmem | hmem)
      · exact hqletter (hm.letters ha _ hmem)
      · have hspace := hws _ hmem
        rw [hqspace] at hspace
        cases hspace
      · exact hqeq hmem
    have hu' : (m ++ (ws ++ [eqByte])) ++ r = u ++ quote :: rest := by simpa using hu
    obtain ⟨r', hur, hr⟩ := exists_before_quote hno hu'
    obtain ⟨q', d, rfl⟩ : ∃ q' d, q = q' ++ [d] :=
      ⟨_, _, (List.dropLast_append_getLast hq).symm⟩
    refine Or.inl ⟨r', ⟨q', d, u, by simpa using hvu, hqend d (by simp), ?_⟩, hr⟩
    exact ⟨[], m, ws, by rw [hur]; simp, endsInSpace_nil, hm, hws⟩

/-- A mention behind the attribute's name is in its quoted value or in what follows. -/
theorem mention_of_behind_name (ha : AttrName a) {p m ws : List UInt8} (hpne : p ≠ [])
    (hp : EndsInSpace p) (hm : Copies a m) (hws : AllSpace ws)
    (h : y.form.text ++ rest = p ++ (m ++ (ws ++ eqByte :: r))) :
    (∃ quote v r', y.form = .quoted quote v ∧ InnerMention a v r' ∧ r = r' ++ quote :: rest) ∨
      Mention a rest r := by
  have hok := y.form_ok
  cases hform : y.form with
  | bare =>
    rw [hform] at h
    exact Or.inr ⟨p, m, ws, h, hp, hm, hws⟩
  | plain v =>
    rw [hform] at h hok
    have hword : ∀ b ∈ eqByte :: v, isSpace b = false :=
      List.forall_mem_cons.mpr ⟨by decide, fun b hb => (hok.2 b hb).1⟩
    rcases behind_word (s := eqByte :: v) hword hp h with hnil | ⟨q, -, rfl, hq⟩
    · exact absurd hnil hpne
    · exact Or.inr ⟨q, m, ws, hq, hp.of_append, hm, hws⟩
  | quoted quote v =>
    rw [hform] at h hok
    have htext : (AttrForm.quoted quote v).text ++ rest =
        [eqByte, quote] ++ (v ++ quote :: rest) := by
      simp [AttrForm.text, AttrForm.behind?]
    rw [htext] at h
    rcases mention_of_behind_quoted ha hok.1 hpne hp hm hws h with ⟨r', hinner, hr⟩ | hrest
    · exact Or.inl ⟨quote, v, r', rfl, hinner, hr⟩
    · exact Or.inr hrest

/-- **The mentions at an attribute**: its own name, those in its quoted value, and those in what
follows. -/
theorem mention_attr_iff (ha : AttrName a) (hrest : FollowsAttr rest) :
    Mention a (y.space ++ (y.name ++ (y.form.text ++ rest))) r ↔
      (Copies a y.name ∧ ∃ u, y.form.behind? = some u ∧ r = u ++ rest) ∨
      (∃ quote v r', y.form = .quoted quote v ∧ InnerMention a v r' ∧ r = r' ++ quote :: rest) ∨
      Mention a rest r := by
  refine ⟨?_, ?_⟩
  · rintro ⟨p, m, ws, h, hp, hm, hws⟩
    obtain ⟨b, m', hbm, hb⟩ := hm.exists_cons ha
    have h₁ := h
    rw [hbm, List.cons_append] at h₁
    obtain ⟨q, rfl, h₂⟩ := behind_space y.allSpace hb.not_space h₁
    rw [← List.cons_append, ← hbm] at h₂
    rcases behind_word (fun b hb => (y.name_ok b hb).1) hp.of_append h₂ with
      rfl | ⟨q', hq', rfl, h₃⟩
    · exact Or.inl (copies_of_mention_name ha hrest hm hws h₂)
    · exact Or.inr (mention_of_behind_name ha hq' hp.of_append.of_append hm hws h₃)
  · rintro (⟨hm, u, hu, rfl⟩ | ⟨quote, v, r', hform, ⟨u, b, t, rfl, hb, p, m, ws, rfl, hp, hm, hws⟩,
      rfl⟩ | ⟨p, m, ws, hp', hp, hm, hws⟩)
    · refine ⟨y.space, y.name, [], ?_, y.allSpace.endsInSpace, hm, fun b hb => by cases hb⟩
      rw [AttrForm.text, hu]
      rfl
    · refine ⟨y.space ++ (y.name ++ (eqByte :: quote :: (u ++ b :: p))), m, ws, ?_, ?_, hm, hws⟩
      · rw [hform]
        simp [AttrForm.text, AttrForm.behind?]
      · have hsplit : y.space ++ (y.name ++ (eqByte :: quote :: (u ++ b :: p))) =
            (y.space ++ (y.name ++ (eqByte :: quote :: u))) ++ b :: p := by simp
        rw [hsplit, endsInSpace_append (List.cons_ne_nil _ _)]
        rcases eq_or_ne p [] with rfl | hne
        · intro c hc
          obtain rfl : b = c := by simpa using hc
          exact hb
        · exact (endsInSpace_append (s := [b]) hne).mpr hp
    · have hne := Mention.ne_nil_of_follows ha hrest hm hp'
      refine ⟨y.space ++ (y.name ++ (y.form.text ++ p)), m, ws, ?_, ?_, hm, hws⟩
      · rw [hp']
        simp
      · rw [← List.append_assoc, ← List.append_assoc]
        exact (endsInSpace_append hne).mpr hp

end Attr

/-! ## The first mention -/

/-- There is one at most. -/
theorem FirstMention.unique {a : CString} {t r r' : List UInt8} (h : FirstMention a t r)
    (h' : FirstMention a t r') : r = r' := by
  have hsuffix : ∀ {x}, Mention a t x → x <:+ t := by
    rintro x ⟨p, m, ws, rfl, -⟩
    exact ⟨p ++ (m ++ (ws ++ [eqByte])), by simp⟩
  have hlen := Nat.le_antisymm (h'.first r h.mention) (h.first r' h'.mention)
  exact (List.suffix_of_suffix_length_le (hsuffix h.mention) (hsuffix h'.mention)
    hlen.le).eq_of_length hlen

section Tag

variable {a : CString}

/-- The mentions in a tag are those at its attributes. -/
theorem mention_tag_iff (ha : AttrName a) (tag : StartTag) (r : List UInt8) :
    Mention a tag.bytes r ↔ Mention a (attrsBytes tag.attrs tag.space) r := by
  have hword : ∀ b ∈ (ch '<').val :: tag.name, isSpace b = false :=
    List.forall_mem_cons.mpr ⟨by decide, fun b hb => (tag.name_ok b hb).1⟩
  refine @mention_pass_iff a [] ((ch '<').val :: tag.name) _ r ha (fun b hb => by cases hb) hword ?_
    (followsAttr_attrsBytes tag.attrs tag.allSpace).space
  intro c u h hc
  obtain ⟨b, c', rfl⟩ := List.exists_cons_of_ne_nil (hc.ne_nil ha)
  have hb := hc.letters ha b List.mem_cons_self
  rw [← (List.cons.inj h).1] at hb
  exact absurd hb (by decide)

/-- Attributes that are neither wanted nor misleading have no mention. -/
theorem mention_clear_iff (ha : AttrName a) {space : List UInt8} (hspace : AllSpace space)
    (ys : List TagAttr) (r : List UInt8) : ∀ zs : List TagAttr,
      (∀ z ∈ zs, ¬ IsWanted a z ∧ ¬ z.Misleads a) →
        (Mention a (attrsBytes (zs ++ ys) space) r ↔ Mention a (attrsBytes ys space) r) := by
  intro zs
  induction zs with
  | nil => exact fun _ => Iff.rfl
  | cons z zs ih =>
    intro h
    obtain ⟨hunwanted, hclear⟩ := h z List.mem_cons_self
    rw [List.cons_append, attrsBytes_cons,
      mention_attr_iff ha (followsAttr_attrsBytes (zs ++ ys) hspace),
      ih fun x hx => h x (List.mem_cons_of_mem _ hx)]
    refine ⟨?_, fun hm => Or.inr (Or.inr hm)⟩
    rintro (⟨hcopies, u, hu, -⟩ | ⟨quote, v, r', hform, hinner, -⟩ | hm)
    · have hne : z.form.behind? ≠ none := by
        rw [hu]
        exact Option.some_ne_none u
      exact absurd (Or.inl ⟨hne, hcopies, fun hsame => hunwanted ⟨hsame, hne⟩⟩) hclear
    · exact absurd (Or.inr ⟨quote, v, r', hform, hinner⟩) hclear
    · exact hm

/-- A misleading attribute has one. -/
theorem exists_mention_of_misleads (ha : AttrName a) {space : List UInt8} (hspace : AllSpace space)
    {y : TagAttr} (hy : y.Misleads a) (ys : List TagAttr) : ∀ zs : List TagAttr,
      ∃ r, Mention a (attrsBytes (zs ++ y :: ys) space) r := by
  intro zs
  induction zs with
  | nil =>
    rw [List.nil_append, attrsBytes_cons]
    have hiff := fun r => mention_attr_iff (y := y) (r := r) ha (followsAttr_attrsBytes ys hspace)
    rcases hy with ⟨hne, hcopies, -⟩ | ⟨quote, v, r', hform, hinner⟩
    · obtain ⟨u, hu⟩ := Option.ne_none_iff_exists'.mp hne
      exact ⟨_, (hiff _).mpr (Or.inl ⟨hcopies, u, hu, rfl⟩)⟩
    · exact ⟨_, (hiff _).mpr (Or.inr (Or.inl ⟨quote, v, r', hform, hinner, rfl⟩))⟩
  | cons z zs ih =>
    obtain ⟨r, hr⟩ := ih
    rw [List.cons_append, attrsBytes_cons]
    exact ⟨r, (mention_attr_iff ha (followsAttr_attrsBytes _ hspace)).mpr (Or.inr (Or.inr hr))⟩

/-- A run that the text behind does not go on with. -/
theorem takeWhile_append_stop {α : Type*} {p : α → Bool} {l rest : List α}
    (h : rest.takeWhile p = []) : (l ++ rest).takeWhile p = l.takeWhile p := by
  induction l with
  | nil => exact h
  | cons b l ih => rw [List.cons_append, List.takeWhile_cons, List.takeWhile_cons, ih]

/-- A run has the first `n` of a list exactly if they all belong to it. -/
theorem take_takeWhile_eq_iff {α : Type*} {p : α → Bool} {l : List α} {n : Nat} :
    (l.takeWhile p).take n = l.take n ↔ ∀ b ∈ l.take n, p b = true := by
  rw [← List.takeWhile_eq_self_iff]
  induction l generalizing n with
  | nil => simp
  | cons b l ih =>
    cases n with
    | zero => simp
    | succ n =>
      rw [List.takeWhile_cons, List.take_succ_cons, List.takeWhile_cons]
      split
      · rw [List.take_succ_cons, List.cons_inj_right, List.cons_inj_right, ih]
      · exact Iff.rfl

/-- The value of the wanted attribute is read up to its end, or up to a `/` in it. -/
theorem readValue_wanted {y : TagAttr} {u rest : List UInt8} (hu : y.form.behind? = some u)
    (hrest : FollowsAttr rest) (n : Nat) :
    readValue (n + 1) (u ++ rest) = (y.form.value?.getD []).take n ↔ y.form.ReadsWhole n := by
  have hok := y.form_ok
  rw [readValue, Nat.add_sub_cancel]
  cases hform : y.form with
  | bare =>
    rw [hform] at hu
    cases hu
  | quoted quote v =>
    rw [hform] at hu hok
    obtain rfl := Option.some.inj hu
    obtain ⟨hquote, hv, -⟩ := hok
    have hqspace : isSpace quote = false := by rcases hquote with rfl | rfl <;> decide
    have hmem : ∀ b ∈ v, decide (b ≠ quote) = true := by
      intro b hb
      simpa using fun he : b = quote => hv (he ▸ hb)
    refine iff_of_true ?_ trivial
    rw [List.cons_append, List.dropWhile_cons_of_neg (by rw [hqspace]; exact Bool.false_ne_true),
      attrValue, if_pos (by simpa [IsQuote] using hquote), List.append_assoc,
      List.takeWhile_append_of_pos hmem, List.singleton_append,
      List.takeWhile_cons_of_neg (by simp), List.append_nil]
    rfl
  | plain v =>
    rw [hform] at hu hok
    obtain rfl := Option.some.inj hu
    obtain ⟨hne, hbytes⟩ := hok
    obtain ⟨b, v', rfl⟩ := List.exists_cons_of_ne_nil hne
    obtain ⟨hbspace, hbquote, -⟩ := hbytes b List.mem_cons_self
    have hstop : rest.takeWhile (fun c => !endsWord c) = [] := by
      cases rest with
      | nil => rfl
      | cons c rest =>
        refine List.takeWhile_cons_of_neg ?_
        rw [endsWord, hrest.space c rfl, Bool.true_or, Bool.true_or]
        exact Bool.false_ne_true
    have hends : ∀ c ∈ b :: v', (!endsWord c) = true ↔ c ≠ slash.val := by
      intro c hc
      obtain ⟨hcspace, -, hcstop⟩ := hbytes c hc
      have hgt : decide (c = (ch '>').val) = false := decide_eq_false hcstop
      rw [endsWord, hcspace, Bool.false_or, hgt, Bool.false_or, Bool.not_eq_true',
        decide_eq_false_iff_not]
    rw [List.cons_append, List.dropWhile_cons_of_neg (by rw [hbspace]; exact Bool.false_ne_true),
      attrValue, if_neg (by simpa [IsQuote] using hbquote), ← List.cons_append,
      takeWhile_append_stop hstop]
    change ((b :: v').takeWhile _).take n = (b :: v').take n ↔ _
    rw [take_takeWhile_eq_iff]
    refine ⟨fun h hmem => (hends _ (List.mem_of_mem_take hmem)).mp (h _ hmem) rfl, fun h c hc => ?_⟩
    exact (hends c (List.mem_of_mem_take hc)).mpr fun he => h (he ▸ hc)

end Tag

/-! ## What is given -/

/-- Nothing before the wanted attribute misleads. -/
def Unmisled (a : CString) (tag : StartTag) : Prop :=
  ∀ y ∈ beforeWanted a tag.attrs, ¬ y.Misleads a

/-- Nothing misleads, and the wanted value is read as a whole. -/
structure PlainlyFound (a : CString) (n : Nat) (tag : StartTag) : Prop where
  /-- nothing misleads -/
  clear : Unmisled a tag
  /-- no `/` ends the value -/
  whole : ∀ y, wanted? a tag.attrs = some y → y.form.ReadsWhole n

/-- The bytes that `extract_attr` copies to the caller's buffer. -/
def extractedBytes (tag after : List UInt8) (attrName : CString) (outLen : Nat) :
    Except HtmlFault (List UInt8) :=
  extractAttrLoop after attrName outLen (tag.length + 1) tag

/-- The attributes that resources are named by. -/
def urlAttrs : List CString :=
  [text ['h', 'r', 'e', 'f'], text ['s', 'r', 'c'], text ['r', 'e', 'l']]

theorem wantedValue_of_none {a : CString} {n : Nat} {attrs : List TagAttr}
    (h : wanted? a attrs = none) : wantedValue a n attrs = [] := by
  rw [wantedValue, h]
  exact List.take_nil

/-- Where nothing misleads, the value is given if it is read as a whole. -/
theorem extractedBytes_of_clear {a : CString} (ha : AttrName a) {tag : StartTag}
    (hclear : Unmisled a tag) (rest : List UInt8) (n : Nat) :
    extractedBytes tag.bytes (tagStop :: rest) a (n + 1) = .ok (wantedValue a n tag.attrs) ↔
      ∀ y, wanted? a tag.attrs = some y → y.form.ReadsWhole n := by
  have hbefore : ∀ z ∈ beforeWanted a tag.attrs, ¬ IsWanted a z ∧ ¬ z.Misleads a := fun z hz =>
    ⟨by simpa using List.mem_takeWhile_imp hz, hclear z hz⟩
  have hmention : ∀ r, Mention a tag.bytes r ↔
      Mention a (attrsBytes (tag.attrs.dropWhile fun y => ¬ IsWanted a y) tag.space) r := by
    intro r
    have hclear := mention_clear_iff ha tag.allSpace
      (tag.attrs.dropWhile fun y => ¬ IsWanted a y) r _ hbefore
    rw [beforeWanted, List.takeWhile_append_dropWhile] at hclear
    rw [mention_tag_iff ha, hclear]
  have hwanted : wanted? a tag.attrs =
      (tag.attrs.dropWhile fun y => ¬ IsWanted a y).head? := by
    rw [wanted?, List.find?_eq_head?_dropWhile_not]
    simp
  have hcases := extractAttrLoop_cases ha (by decide : ¬ IsLetter tagStop) rest (n + 1) tag.bytes
  rw [extractedBytes]
  cases hdrop : tag.attrs.dropWhile fun y => ¬ IsWanted a y with
  | nil =>
    rw [hdrop] at hmention hwanted
    have hno : ∀ r, ¬ Mention a tag.bytes r := fun r hr =>
      not_mention_space ha tag.allSpace ((hmention r).mp hr)
    rw [wantedValue_of_none hwanted, hwanted]
    rcases hcases with ⟨-, hok⟩ | ⟨r, hr, -⟩
    · exact iff_of_true hok fun y hy => by cases hy
    · exact absurd hr.mention (hno r)
  | cons y ys =>
    rw [hdrop] at hmention hwanted
    have hy : IsWanted a y := by
      have hhead := List.head?_dropWhile_not (fun y => decide ¬ IsWanted a y) tag.attrs
      rw [hdrop] at hhead
      simpa using hhead
    obtain ⟨u, hu⟩ := Option.ne_none_iff_exists'.mp hy.2
    have hown : FirstMention a tag.bytes (u ++ attrsBytes ys tag.space) := by
      rw [firstMention_congr hmention, attrsBytes_cons, AttrForm.text, hu]
      exact @firstMention_found a _ _ [] _ ha y.allSpace hy.1 fun b hb => by cases hb
    have hvalue : wantedValue a n tag.attrs = (y.form.value?.getD []).take n := by
      rw [wantedValue, hwanted]
      rfl
    rcases hcases with ⟨hno, -⟩ | ⟨r, hr, hok⟩
    · exact absurd hown.mention (hno _)
    · obtain rfl := hr.unique hown
      rw [hok, hvalue, Except.ok.injEq,
        readValue_wanted hu (followsAttr_attrsBytes ys tag.allSpace), hwanted]
      exact ⟨fun h z hz => Option.some.inj hz ▸ h, fun h => h y rfl⟩

/-- Where something misleads, the bytes behind the first mention are given. -/
theorem extractedBytes_of_misled {a : CString} (ha : AttrName a) {tag : StartTag}
    (hmisled : ¬ Unmisled a tag) (rest : List UInt8) (n : Nat) :
    ∃ r, FirstMention a tag.bytes r ∧
      extractedBytes tag.bytes (tagStop :: rest) a (n + 1) = .ok (readValue (n + 1) r) := by
  obtain ⟨y, hy, hmisleads⟩ : ∃ y ∈ beforeWanted a tag.attrs, y.Misleads a := by
    by_contra hno
    exact hmisled fun y hy hmisleads => hno ⟨y, hy, hmisleads⟩
  obtain ⟨zs, ys, hattrs⟩ := List.append_of_mem ((List.takeWhile_sublist _).subset hy)
  obtain ⟨r₀, hr₀⟩ := exists_mention_of_misleads ha tag.allSpace hmisleads ys zs
  rw [← hattrs, ← mention_tag_iff ha] at hr₀
  rcases extractAttrLoop_cases ha (by decide : ¬ IsLetter tagStop) rest (n + 1) tag.bytes with
    ⟨hno, -⟩ | hfound
  · exact absurd hr₀ (hno r₀)
  · exact hfound

/-- **Attribute extraction** gives the value where it is plainly found, and where no attribute
misleads, only there. -/
theorem extractAttr_exact_iff {a : CString} (ha : a ∈ urlAttrs) (tag : StartTag)
    (rest : List UInt8) (n : Nat) :
    (PlainlyFound a n tag →
      extractedBytes tag.bytes (tagStop :: rest) a (n + 1) = .ok (wantedValue a n tag.attrs)) ∧
    (Unmisled a tag →
      extractedBytes tag.bytes (tagStop :: rest) a (n + 1) = .ok (wantedValue a n tag.attrs) →
      PlainlyFound a n tag) := by
  have hname : AttrName a := (by decide : ∀ a ∈ urlAttrs, AttrName a) a ha
  refine ⟨fun h => ?_, fun hclear hexact => ⟨hclear, ?_⟩⟩
  · exact (extractedBytes_of_clear hname h.clear rest n).mpr h.whole
  · exact (extractedBytes_of_clear hname hclear rest n).mp hexact

/-- `<img alt="src=y" src="z">` -/
def quotedName : StartTag where
  name := [105, 109, 103]
  attrs :=
    [⟨[32], [97, 108, 116], .quoted 34 [115, 114, 99, 61, 121], by decide, by decide, by decide,
      by decide, by decide⟩,
    ⟨[32], [115, 114, 99], .quoted 34 [122], by decide, by decide, by decide, by decide, by decide⟩]
  space := []
  name_ok := by decide
  allSpace := by decide

/-- Its `src` is plainly found: the mention in `alt` has no white space before it. -/
theorem plainlyFound_quotedName : PlainlyFound (text ['s', 'r', 'c']) 255 quotedName := by
  refine ⟨fun y hy => ?_, fun y hy => ?_⟩
  · obtain rfl : y = ⟨[32], [97, 108, 116], .quoted 34 [115, 114, 99, 61, 121], by decide,
        by decide, by decide, by decide, by decide⟩ := List.mem_singleton.mp hy
    rintro (⟨-, hcopies, -⟩ | ⟨quote, v, r, hform, u, b, t, rfl, hb, -⟩)
    · obtain ⟨c, m, hm, hc, -⟩ := hcopies.exists_front
      cases c with
      | nil => exact absurd hc (by decide)
      | cons b c =>
        obtain rfl : 97 = b := (List.cons.inj hm).1
        exact absurd (List.cons.inj hc).1 (by decide)
    · have hmem : b ∈ [115, 114, 99, 61, 121] := by
        rw [(AttrForm.quoted.inj hform).2]
        exact List.mem_append_right u List.mem_cons_self
      rw [(by decide : ∀ b ∈ [115, 114, 99, 61, 121], isSpace b = false) b hmem] at hb
      cases hb
  · obtain rfl : (⟨[32], [115, 114, 99], .quoted 34 [122], by decide, by decide, by decide,
        by decide, by decide⟩ : TagAttr) = y := Option.some.inj hy
    trivial

theorem extractAttr_exact_iff_src :
    text ['s', 'r', 'c'] ∈ urlAttrs ∧ PlainlyFound (text ['s', 'r', 'c']) 255 quotedName ∧
      extractedBytes quotedName.bytes [tagStop] (text ['s', 'r', 'c']) 256 =
        .ok (wantedValue (text ['s', 'r', 'c']) 255 quotedName.attrs) ∧
      wantedValue (text ['s', 'r', 'c']) 255 quotedName.attrs = [122] := by
  obtain ⟨hfound, -⟩ := extractAttr_exact_iff (by decide : text ['s', 'r', 'c'] ∈ urlAttrs)
    quotedName [] 255
  exact ⟨by decide, plainlyFound_quotedName, hfound plainlyFound_quotedName, by decide⟩

/-- `<img alt="x src=y" src="z">` -/
def quotedMention : StartTag where
  name := [105, 109, 103]
  attrs :=
    [⟨[32], [97, 108, 116], .quoted 34 [120, 32, 115, 114, 99, 61, 121], by decide, by decide,
      by decide, by decide, by decide⟩,
    ⟨[32], [115, 114, 99], .quoted 34 [122], by decide, by decide, by decide, by decide, by decide⟩]
  space := []
  name_ok := by decide
  allSpace := by decide

/-- Its `src` is `z`, but `y"` is given. -/
theorem extractAttr_quotedMention :
    text ['s', 'r', 'c'] ∈ urlAttrs ∧
      extractedBytes quotedMention.bytes [tagStop] (text ['s', 'r', 'c']) 256 = .ok [121, 34] ∧
      extractedBytes quotedMention.bytes [tagStop] (text ['s', 'r', 'c']) 256 ≠
        .ok (wantedValue (text ['s', 'r', 'c']) 255 quotedMention.attrs) := by
  decide

end DsoBrowser

import DsoBrowser.HtmlTag

/-!
# What the attribute scanner finds

`extract_attr` goes over a tag word by word and knows of no quotes. Its rounds on a text are the
relation `AttrRounds`, and what they find is the first **mention** of the attribute
(`AttrRounds.finds`): a place behind white space where the name stands, once or more often, with an
`=` after it. What the function gives is the value it reads behind that
(`extractAttrLoop_cases`).
-/

namespace DsoBrowser

/-- The byte that a value follows. -/
def eqByte : UInt8 := (ch '=').val

/-! ## Names and spaces -/

/-- A name the scanner is asked for: small letters. -/
structure AttrName (a : CString) : Prop where
  /-- it has a letter -/
  ne_nil : a ≠ []
  /-- and only letters -/
  letters : ∀ c ∈ a, 97 ≤ c.val ∧ c.val ≤ 122

instance (a : CString) : Decidable (AttrName a) :=
  decidable_of_iff (a ≠ [] ∧ ∀ c ∈ a, 97 ≤ c.val ∧ c.val ≤ 122)
    ⟨fun h => ⟨h.1, h.2⟩, fun h => ⟨h.ne_nil, h.letters⟩⟩

/-- The bytes are the name, in letters of either case. -/
def SameName (a : CString) (n : List UInt8) : Prop := n.map toLower = a.bytes.map toLower

instance (a : CString) (n : List UInt8) : Decidable (SameName a n) :=
  inferInstanceAs (Decidable (_ = _))

/-- A letter of either case. -/
def IsLetter (b : UInt8) : Prop := 97 ≤ toLower b ∧ toLower b ≤ 122

instance (b : UInt8) : Decidable (IsLetter b) := inferInstanceAs (Decidable (_ ∧ _))

theorem IsLetter.toNat {b : UInt8} (h : IsLetter b) :
    (65 ≤ b.toNat ∧ b.toNat ≤ 90) ∨ (97 ≤ b.toNat ∧ b.toNat ≤ 122) := by
  simp only [IsLetter, toLower] at h
  split at h
  · rename_i hupper
    simp only [Bool.and_eq_true, decide_eq_true_eq] at hupper
    exact Or.inl hupper
  · exact Or.inr h

theorem IsLetter.not_space {b : UInt8} (h : IsLetter b) : isSpace b = false := by
  have hb := h.toNat
  simp only [isSpace, Bool.or_eq_false_iff, Bool.and_eq_false_imp, decide_eq_true_eq,
    decide_eq_false_iff_not]
  refine ⟨?_, fun _ => ?_⟩
  · rintro rfl
    revert hb
    decide
  · rw [UInt8.le_iff_toNat_le]
    change ¬ b.toNat ≤ 13
    omega

theorem IsLetter.ne {b c : UInt8} (h : IsLetter b) (hc : ¬ IsLetter c) : b ≠ c := by
  rintro rfl
  exact hc h

theorem not_letter_eqByte : ¬ IsLetter eqByte := by decide

/-- Only letters are the same as small letters. -/
theorem AttrName.letter_of_toLower {a : CString} (ha : AttrName a) {c : CChar} (hc : c ∈ a)
    {b : UInt8} (hb : toLower b = toLower c.val) : IsLetter b := by
  have hsmall := ha.letters c hc
  have hlower : toLower c.val = c.val := by
    rw [toLower, if_neg]
    rw [Bool.and_eq_true, decide_eq_true_eq, decide_eq_true_eq, not_and, UInt8.not_le]
    exact fun _ => UInt8.lt_of_lt_of_le (by decide : (90 : UInt8) < 97) hsmall.1
  rw [IsLetter, hb, hlower]
  exact hsmall

theorem SameName.letters {a : CString} {n : List UInt8} (ha : AttrName a) (h : SameName a n) :
    ∀ b ∈ n, IsLetter b := by
  intro b hb
  have hmem : toLower b ∈ a.bytes.map toLower := h ▸ List.mem_map_of_mem hb
  rw [CString.bytes, List.map_map] at hmem
  obtain ⟨c, hc, he⟩ := List.mem_map.mp hmem
  exact ha.letter_of_toLower hc he.symm

theorem SameName.length_eq {a : CString} {n : List UInt8} (h : SameName a n) :
    n.length = a.length := by
  have hlen := congrArg List.length h
  rwa [List.length_map, List.length_map, CString.length_bytes] at hlen

theorem SameName.ne_nil {a : CString} {n : List UInt8} (ha : AttrName a) (h : SameName a n) :
    n ≠ [] := by
  rintro rfl
  exact ha.ne_nil (List.eq_nil_of_length_eq_zero h.length_eq.symm)

/-- White space. -/
def AllSpace (l : List UInt8) : Prop := ∀ b ∈ l, isSpace b = true

instance (l : List UInt8) : Decidable (AllSpace l) := inferInstanceAs (Decidable (∀ b ∈ l, _))

/-- There is white space at the end, or nothing. -/
def EndsInSpace (p : List UInt8) : Prop := ∀ b, p.getLast? = some b → isSpace b = true

theorem endsInSpace_nil : EndsInSpace [] := fun _ hb => by cases hb

theorem AllSpace.endsInSpace {l : List UInt8} (h : AllSpace l) : EndsInSpace l :=
  fun b hb => h b (List.mem_of_getLast? hb)

theorem endsInSpace_append {s p : List UInt8} (h : p ≠ []) :
    EndsInSpace (s ++ p) ↔ EndsInSpace p := by
  rw [EndsInSpace, EndsInSpace, List.getLast?_append_of_ne_nil _ h]

theorem EndsInSpace.of_append {s p : List UInt8} (h : EndsInSpace (s ++ p)) : EndsInSpace p := by
  rcases eq_or_ne p [] with rfl | hne
  · exact endsInSpace_nil
  · exact (endsInSpace_append hne).mp h

/-- What starts behind white space is behind all of it. -/
theorem behind_space {s t p : List UInt8} {b : UInt8} {x : List UInt8} (hs : AllSpace s)
    (hb : isSpace b = false) (h : s ++ t = p ++ b :: x) : ∃ q, p = s ++ q ∧ t = q ++ b :: x := by
  rcases List.append_eq_append_iff.mp h with ⟨q, hp, ht⟩ | ⟨u, hsu, hu⟩
  · exact ⟨q, hp, ht⟩
  · cases u with
    | nil => exact ⟨[], by rw [hsu, List.append_nil, List.append_nil], hu.symm⟩
    | cons c u =>
      obtain ⟨rfl, -⟩ := List.cons.inj hu
      have hspace := hs b (by rw [hsu]; simp)
      rw [hb] at hspace
      cases hspace

/-- What starts behind white space is not inside a word. -/
theorem behind_word {s t p x : List UInt8} (hs : ∀ b ∈ s, isSpace b = false) (hp : EndsInSpace p)
    (h : s ++ t = p ++ x) : p = [] ∨ ∃ q, q ≠ [] ∧ p = s ++ q ∧ t = q ++ x := by
  have hfront : ∀ u, s = p ++ u → p = [] := by
    intro u hsu
    by_contra hne
    have hspace := hp _ (List.getLast?_eq_some_getLast hne)
    rw [hs _ (by rw [hsu]; exact List.mem_append_left _ (List.getLast_mem hne))] at hspace
    cases hspace
  rcases List.append_eq_append_iff.mp h with ⟨q, hpq, ht⟩ | ⟨u, hsu, -⟩
  · rcases eq_or_ne q [] with rfl | hne
    · exact Or.inl (hfront [] (by rw [hpq, List.append_nil, List.append_nil]))
    · exact Or.inr ⟨q, hne, hpq, ht⟩
  · exact Or.inl (hfront u hsu)

/-! ## Mentions -/

/-- The name, once or more often. -/
inductive Copies (a : CString) : List UInt8 → Prop
  | one {c : List UInt8} : SameName a c → Copies a c
  | more {c m : List UInt8} : SameName a c → Copies a m → Copies a (c ++ m)

/-- Somewhere behind white space, or in front, the name stands, once or more often, and an `=`
follows; `r` is the text behind that. -/
def Mention (a : CString) (t r : List UInt8) : Prop :=
  ∃ p m ws, t = p ++ (m ++ (ws ++ eqByte :: r)) ∧ EndsInSpace p ∧ Copies a m ∧ AllSpace ws

/-- The mention that comes first. -/
structure FirstMention (a : CString) (t r : List UInt8) : Prop where
  /-- it is one -/
  mention : Mention a t r
  /-- and no other comes before it -/
  first : ∀ r', Mention a t r' → r'.length ≤ r.length

theorem firstMention_congr {a : CString} {t t' r : List UInt8}
    (h : ∀ r, Mention a t r ↔ Mention a t' r) : FirstMention a t r ↔ FirstMention a t' r :=
  ⟨fun hr => ⟨(h r).mp hr.mention, fun r' hr' => hr.first r' ((h r').mpr hr')⟩,
    fun hr => ⟨(h r).mpr hr.mention, fun r' hr' => hr.first r' ((h r').mp hr')⟩⟩

/-- The scanner's rounds over a text, and the text behind the `=` that they stop at. -/
inductive AttrRounds (a : CString) : List UInt8 → Option (List UInt8) → Prop
  /-- the text is used up -/
  | done {sp : List UInt8} : AllSpace sp → AttrRounds a sp none
  /-- the name stands there, with an `=` -/
  | found {sp c ws r : List UInt8} : AllSpace sp → SameName a c → AllSpace ws →
      AttrRounds a (sp ++ (c ++ (ws ++ eqByte :: r))) (some r)
  /-- it stands there without one, and the next round is on what follows -/
  | again {sp c ws t : List UInt8} {res : Option (List UInt8)} : AllSpace sp → SameName a c →
      AllSpace ws → (∀ b, t.head? = some b → isSpace b = false ∧ b ≠ eqByte) →
      AttrRounds a t res → AttrRounds a (sp ++ (c ++ (ws ++ t))) res
  /-- something else stands there, and the word is passed over -/
  | pass {sp w t : List UInt8} {res : Option (List UInt8)} : AllSpace sp → w ≠ [] →
      (∀ b ∈ w, isSpace b = false) → (∀ c u, w ++ t = c ++ u → ¬ SameName a c) →
      (∀ b, t.head? = some b → isSpace b = true) → AttrRounds a t res →
      AttrRounds a (sp ++ (w ++ t)) res

theorem Copies.letters {a : CString} (ha : AttrName a) {m : List UInt8} (h : Copies a m) :
    ∀ b ∈ m, IsLetter b := by
  induction h with
  | one hc => exact hc.letters ha
  | more hc _ ih =>
    intro b hb
    exact (List.mem_append.mp hb).elim (hc.letters ha b) (ih b)

theorem Copies.exists_cons {a : CString} (ha : AttrName a) {m : List UInt8} (h : Copies a m) :
    ∃ b m', m = b :: m' ∧ IsLetter b := by
  have hne : m ≠ [] := by
    cases h with
    | one hc => exact hc.ne_nil ha
    | more hc _ => exact List.append_ne_nil_of_left_ne_nil (hc.ne_nil ha) _
  obtain ⟨b, m', rfl⟩ := List.exists_cons_of_ne_nil hne
  exact ⟨b, m', rfl, h.letters ha b List.mem_cons_self⟩

/-- The first of the copies. -/
theorem Copies.exists_front {a : CString} {m : List UInt8} (h : Copies a m) :
    ∃ c m', m = c ++ m' ∧ SameName a c ∧ (m' = [] ∨ Copies a m') := by
  cases h with
  | one hc => exact ⟨m, [], (List.append_nil m).symm, hc, Or.inl rfl⟩
  | more hc hm => exact ⟨_, _, rfl, hc, Or.inr hm⟩

/-- Where two texts with an `=` agree, white space in front of it does. -/
theorem space_eq {ws ws' r t : List UInt8} (hws : AllSpace ws) (hws' : AllSpace ws')
    (ht : ∀ b, t.head? = some b → isSpace b = false) (h : ws ++ t = ws' ++ eqByte :: r) :
    t = eqByte :: r := by
  obtain ⟨q, rfl, hq⟩ := behind_space hws (by decide) h
  cases q with
  | nil => exact hq
  | cons b q =>
    have hspace := hws' b (by simp)
    rw [ht b (by rw [hq]; rfl)] at hspace
    cases hspace

section Rounds

variable {a : CString} {sp c ws w t r : List UInt8}

/-- A mention is not in white space. -/
theorem not_mention_space (ha : AttrName a) (hsp : AllSpace sp) : ¬ Mention a sp r := by
  rintro ⟨p, m, ws, rfl, -, hm, -⟩
  obtain ⟨b, m', rfl, hb⟩ := hm.exists_cons ha
  have hspace := hsp b (by simp)
  rw [hb.not_space] at hspace
  cases hspace

/-- Where the name stands without an `=`, the mentions are those in what follows. -/
theorem mention_again_iff (ha : AttrName a) (hsp : AllSpace sp) (hc : SameName a c)
    (hws : AllSpace ws) (ht : ∀ b, t.head? = some b → isSpace b = false ∧ b ≠ eqByte) :
    Mention a (sp ++ (c ++ (ws ++ t))) r ↔ Mention a t r := by
  have hletters : ∀ x ∈ c, isSpace x = false := fun x hx => (hc.letters ha x hx).not_space
  refine ⟨?_, ?_⟩
  · rintro ⟨p, m, ws', h, hp, hm, hws'⟩
    obtain ⟨b, m', hbm, hb⟩ := hm.exists_cons ha
    have h₁ := h
    rw [hbm, List.cons_append] at h₁
    obtain ⟨q, rfl, h₂⟩ := behind_space hsp hb.not_space h₁
    rcases behind_word hletters hp.of_append h₂ with rfl | ⟨q', -, rfl, h₃⟩
    · -- the copies start with this one
      obtain ⟨c', m₂, rfl, hc', hm₂⟩ := hm.exists_front
      rw [List.append_nil] at h
      have h₄ := List.append_cancel_left h
      rw [List.append_assoc] at h₄
      obtain ⟨-, h₅⟩ := List.append_inj h₄ (hc.length_eq.trans hc'.length_eq.symm)
      rcases hm₂ with rfl | hm₂
      · -- an `=` follows, and is not in front of `t`
        have heq := space_eq hws hws' (fun x hx => (ht x hx).1) h₅
        exact absurd rfl (ht eqByte (by rw [heq]; rfl)).2
      · obtain ⟨b₂, m₃, hb₂, hletter⟩ := hm₂.exists_cons ha
        have h₆ := h₅
        rw [hb₂, List.cons_append] at h₆
        obtain ⟨q, hq, h₇⟩ := behind_space (p := []) hws hletter.not_space h₆
        obtain ⟨rfl, rfl⟩ := List.append_eq_nil_iff.mp hq.symm
        exact ⟨[], m₂, ws', h₅, endsInSpace_nil, hm₂, hws'⟩
    · obtain ⟨q₂, rfl, h₄⟩ := behind_space hws hb.not_space h₃
      rw [← List.cons_append, ← hbm] at h₄
      exact ⟨q₂, m, ws', h₄, hp.of_append.of_append.of_append, hm, hws'⟩
  · rintro ⟨p, m, ws', rfl, hp, hm, hws'⟩
    rcases eq_or_ne p [] with rfl | hne
    · rcases eq_or_ne ws [] with rfl | hwsne
      · refine ⟨sp, c ++ m, ws', ?_, hsp.endsInSpace, Copies.more hc hm, hws'⟩
        rw [List.append_assoc]
        rfl
      · refine ⟨sp ++ (c ++ ws), m, ws', by simp, ?_, hm, hws'⟩
        rw [← List.append_assoc]
        exact (endsInSpace_append hwsne).mpr hws.endsInSpace
    · refine ⟨sp ++ (c ++ (ws ++ p)), m, ws', by simp, ?_, hm, hws'⟩
      rw [← List.append_assoc, ← List.append_assoc]
      exact (endsInSpace_append hne).mpr hp

/-- Where another word stands, they are those in what follows it, too. -/
theorem mention_pass_iff (ha : AttrName a) (hsp : AllSpace sp)
    (hw : ∀ b ∈ w, isSpace b = false) (hno : ∀ c u, w ++ t = c ++ u → ¬ SameName a c)
    (ht : ∀ b, t.head? = some b → isSpace b = true) :
    Mention a (sp ++ (w ++ t)) r ↔ Mention a t r := by
  refine ⟨?_, ?_⟩
  · rintro ⟨p, m, ws, h, hp, hm, hws⟩
    obtain ⟨b, m', hbm, hb⟩ := hm.exists_cons ha
    have h₁ := h
    rw [hbm, List.cons_append] at h₁
    obtain ⟨q, rfl, h₂⟩ := behind_space hsp hb.not_space h₁
    rw [← List.cons_append, ← hbm] at h₂
    rcases behind_word hw hp.of_append h₂ with rfl | ⟨q', -, rfl, h₃⟩
    · obtain ⟨c, m₂, rfl, hc, -⟩ := hm.exists_front
      rw [List.nil_append, List.append_assoc] at h₂
      exact absurd hc (hno c _ h₂)
    · exact ⟨q', m, ws, h₃, hp.of_append.of_append, hm, hws⟩
  · rintro ⟨p, m, ws, rfl, hp, hm, hws⟩
    -- `t` does not start with a letter
    have hpne : p ≠ [] := by
      rintro rfl
      obtain ⟨b, m', rfl, hb⟩ := hm.exists_cons ha
      have hspace := ht b rfl
      rw [hb.not_space] at hspace
      cases hspace
    refine ⟨sp ++ (w ++ p), m, ws, by simp, ?_, hm, hws⟩
    rw [← List.append_assoc]
    exact (endsInSpace_append hpne).mpr hp

/-- The text behind the first `=` is the longest. -/
theorem length_le_of_first {x y r r' : List UInt8} (hx : eqByte ∉ x)
    (h : x ++ eqByte :: r = y ++ eqByte :: r') : r'.length ≤ r.length := by
  rcases List.append_eq_append_iff.mp h with ⟨q, -, hr⟩ | ⟨u, rfl, hu⟩
  · have hlen := congrArg List.length hr
    rw [List.length_append, List.length_cons, List.length_cons] at hlen
    omega
  · cases u with
    | nil => exact (List.cons.inj hu).2.symm ▸ le_rfl
    | cons b u =>
      obtain ⟨rfl, -⟩ := List.cons.inj hu
      exact absurd (List.mem_append_right _ List.mem_cons_self) hx

/-- Where the name stands with an `=`, that is the first mention. -/
theorem firstMention_found (ha : AttrName a) (hsp : AllSpace sp) (hc : SameName a c)
    (hws : AllSpace ws) : FirstMention a (sp ++ (c ++ (ws ++ eqByte :: r))) r := by
  refine ⟨⟨sp, c, ws, rfl, hsp.endsInSpace, Copies.one hc, hws⟩, ?_⟩
  rintro r' ⟨p, m, ws', h, -, -, -⟩
  have hno : eqByte ∉ sp ++ (c ++ ws) := by
    rw [List.mem_append, List.mem_append]
    rintro (hm | hm | hm)
    · exact absurd (hsp _ hm) (by decide)
    · exact not_letter_eqByte (hc.letters ha _ hm)
    · exact absurd (hws _ hm) (by decide)
  refine @length_le_of_first _ (p ++ (m ++ ws')) _ _ hno ?_
  simpa using h

/-- **What the rounds find** is the first mention. -/
theorem AttrRounds.finds (ha : AttrName a) {res : Option (List UInt8)} (h : AttrRounds a t res) :
    (res = none ∧ ∀ r, ¬ Mention a t r) ∨ ∃ r, res = some r ∧ FirstMention a t r := by
  induction h with
  | done hsp => exact Or.inl ⟨rfl, fun r => not_mention_space ha hsp⟩
  | found hsp hc hws => exact Or.inr ⟨_, rfl, firstMention_found ha hsp hc hws⟩
  | again hsp hc hws ht _ ih =>
    have hiff := fun r => mention_again_iff (r := r) ha hsp hc hws ht
    simpa only [firstMention_congr hiff, hiff] using ih
  | pass hsp _ hw hno ht _ ih =>
    have hiff := fun r => mention_pass_iff (r := r) ha hsp hw hno ht
    simpa only [firstMention_congr hiff, hiff] using ih

end Rounds

/-! ## The loop -/

/-- The comparison with the name, which at the latest stops at the byte behind the text. -/
theorem startsWithCase_append {a : CString} (ha : ∀ c ∈ a, 97 ≤ c.val ∧ c.val ≤ 122)
    (t : List UInt8) {stop : UInt8} (hstop : ¬ IsLetter stop) (rest : List UInt8) :
    startsWithCase (t ++ stop :: rest) a = .ok (decide (SameName a (t.take a.length))) := by
  induction a generalizing t with
  | nil =>
    rw [startsWithCase, List.length_nil, List.take_zero]
    rfl
  | cons c a ih =>
    have hname : AttrName (c :: a) := ⟨List.cons_ne_nil _ _, ha⟩
    cases t with
    | nil =>
      rw [List.nil_append, startsWithCase, if_neg]
      · rfl
      · exact fun he => hstop (hname.letter_of_toLower List.mem_cons_self he)
    | cons b t =>
      have hsame : SameName (c :: a) ((b :: t).take (c :: a).length) ↔
          toLower b = toLower c.val ∧ SameName a (t.take a.length) := List.cons_eq_cons
      rw [List.cons_append, startsWithCase]
      split
      · rename_i he
        rw [ih (fun d hd => ha d (List.mem_cons_of_mem _ hd)),
          decide_eq_decide.mpr (hsame.trans (and_iff_right he))]
      · rename_i hne
        rw [decide_eq_false (fun h => hne (hsame.mp h).1)]

/-- White space, then the first byte of a word, or nothing. -/
theorem exists_space_append (t : List UInt8) :
    ∃ sp, AllSpace sp ∧ t = sp ++ t.dropWhile isSpace ∧
      ∀ b, (t.dropWhile isSpace).head? = some b → isSpace b = false := by
  refine ⟨t.takeWhile isSpace, fun b hb => List.mem_takeWhile_imp hb,
    List.takeWhile_append_dropWhile.symm, fun b hb => ?_⟩
  have hhead := List.head?_dropWhile_not isSpace t
  rw [hb] at hhead
  simpa using hhead

theorem dropWhile_space_append {sp t : List UInt8} (hsp : AllSpace sp)
    (ht : ∀ b, t.head? = some b → isSpace b = false) : (sp ++ t).dropWhile isSpace = t := by
  rw [List.dropWhile_append_of_pos hsp]
  cases t with
  | nil => rfl
  | cons b t => rw [List.dropWhile_cons_of_neg (by rw [ht b rfl]; exact Bool.false_ne_true)]

/-- What starts with the name. -/
theorem SameName.take_eq {a : CString} {c u t : List UInt8} (h : SameName a c) (ht : t = c ++ u) :
    t.take a.length = c ∧ t.drop a.length = u := by
  rw [ht, ← h.length_eq]
  exact ⟨List.take_left, List.drop_left⟩

/-- Every text has rounds. -/
theorem exists_attrRounds {a : CString} (ha : AttrName a) (t : List UInt8) :
    ∃ res, AttrRounds a t res := by
  induction hn : t.length using Nat.strong_induction_on generalizing t with
  | _ n ih =>
    obtain ⟨sp, hsp, ht, hhead⟩ := exists_space_append t
    generalize hword : t.dropWhile isSpace = t' at ht hhead
    subst ht
    rw [List.length_append] at hn
    rcases eq_or_ne t' [] with rfl | hne
    · exact ⟨none, by rw [List.append_nil]; exact .done hsp⟩
    by_cases hname : SameName a (t'.take a.length)
    · -- the name stands here
      obtain ⟨ws, hws, hu, huhead⟩ := exists_space_append (t'.drop a.length)
      generalize hrest : (t'.drop a.length).dropWhile isSpace = u at hu huhead
      have hsplit : t' = t'.take a.length ++ (ws ++ u) := by rw [← hu, List.take_append_drop]
      have hlen := congrArg List.length hsplit
      rw [List.length_append, List.length_append] at hlen
      have hpos := List.length_pos_of_ne_nil (hname.ne_nil ha)
      rw [hsplit]
      by_cases heq : u.head? = some eqByte
      · obtain ⟨r, rfl⟩ := List.head?_eq_some_iff.mp heq
        exact ⟨some r, .found hsp hname hws⟩
      · obtain ⟨res, hres⟩ := ih u.length (by omega) u rfl
        exact ⟨res, .again hsp hname hws (fun b hb => ⟨huhead b hb, fun he => heq (he ▸ hb)⟩) hres⟩
    · -- another word does
      have hsplit : t' = t'.takeWhile (fun b => !isSpace b) ++ t'.dropWhile fun b => !isSpace b :=
        List.takeWhile_append_dropWhile.symm
      have hw : t'.takeWhile (fun b => !isSpace b) ≠ [] := by
        obtain ⟨b, t'', rfl⟩ := List.exists_cons_of_ne_nil hne
        rw [List.takeWhile_cons_of_pos (by rw [hhead b rfl]; rfl)]
        exact List.cons_ne_nil _ _
      have hlen := congrArg List.length hsplit
      rw [List.length_append] at hlen
      have hpos := List.length_pos_of_ne_nil hw
      obtain ⟨res, hres⟩ := ih _ (by omega) (t'.dropWhile fun b => !isSpace b) rfl
      refine ⟨res, ?_⟩
      rw [hsplit]
      refine .pass hsp hw (fun b hb => ?_) (fun c u he hc => hname ?_) (fun b hb => ?_) hres
      · simpa using List.mem_takeWhile_imp hb
      · rw [← hsplit] at he
        rwa [(hc.take_eq he).1]
      · have hdrop := List.head?_dropWhile_not (fun b => !isSpace b) t'
        rw [hb] at hdrop
        simpa using hdrop

/-- What is given for the text behind an `=`. -/
def readValue (outLen : Nat) (r : List UInt8) : List UInt8 :=
  (attrValue (r.dropWhile isSpace)).take (outLen - 1)

/-- One round of the loop. -/
theorem extractAttrLoop_succ {a : CString} (ha : AttrName a) {stop : UInt8}
    (hstop : ¬ IsLetter stop) (rest : List UInt8) (outLen n : Nat) {tag t : List UInt8}
    (ht : tag.dropWhile isSpace = t) (hne : t ≠ []) :
    extractAttrLoop (stop :: rest) a outLen (n + 1) tag =
      if SameName a (t.take a.length) then
        if ((t.drop a.length).dropWhile isSpace).head? = some eqByte then
          .ok (readValue outLen ((t.drop a.length).dropWhile isSpace).tail)
        else extractAttrLoop (stop :: rest) a outLen n ((t.drop a.length).dropWhile isSpace)
      else extractAttrLoop (stop :: rest) a outLen n (t.dropWhile fun b => !isSpace b) := by
  rw [extractAttrLoop, ht, if_neg hne, startsWithCase_append ha.letters _ hstop]
  by_cases hname : SameName a (t.take a.length)
  · rw [decide_eq_true hname, if_pos hname]
    rfl
  · rw [decide_eq_false hname, if_neg hname]
    rfl

/-- The loop gives the value it reads where the rounds stop. -/
theorem extractAttrLoop_of_rounds {a : CString} (ha : AttrName a) {stop : UInt8}
    (hstop : ¬ IsLetter stop) (rest : List UInt8) (outLen : Nat) {t : List UInt8}
    {res : Option (List UInt8)} (h : AttrRounds a t res) : ∀ n, t.length ≤ n →
      extractAttrLoop (stop :: rest) a outLen (n + 1) t =
        .ok (res.elim [] (readValue outLen)) := by
  -- what is left where the name stands
  have hfront : ∀ {sp c u : List UInt8}, AllSpace sp → SameName a c →
      (sp ++ (c ++ u)).dropWhile isSpace = c ++ u ∧ c ++ u ≠ [] := by
    intro sp c u hsp hc
    obtain ⟨b, c', rfl⟩ := List.exists_cons_of_ne_nil (hc.ne_nil ha)
    refine ⟨dropWhile_space_append hsp fun x hx => ?_, List.cons_ne_nil _ _⟩
    obtain rfl : b = x := by simpa using hx
    exact (hc.letters ha b List.mem_cons_self).not_space
  induction h with
  | @done sp hsp =>
    intro n _
    have hdrop := dropWhile_space_append (t := []) hsp (by simp)
    rw [List.append_nil] at hdrop
    rw [extractAttrLoop, hdrop, if_pos rfl]
    rfl
  | @found sp c ws r hsp hc hws =>
    intro n _
    obtain ⟨hskip, hne⟩ := hfront (u := ws ++ eqByte :: r) hsp hc
    obtain ⟨htake, hdrop⟩ := hc.take_eq (u := ws ++ eqByte :: r) rfl
    have hspace : (ws ++ eqByte :: r).dropWhile isSpace = eqByte :: r :=
      dropWhile_space_append hws fun x hx => by
        obtain rfl : eqByte = x := by simpa using hx
        decide
    rw [extractAttrLoop_succ ha hstop rest outLen n hskip hne, htake, if_pos hc, hdrop, hspace]
    exact if_pos rfl
  | @again sp c ws t res hsp hc hws ht _ ih =>
    intro n hn
    obtain ⟨hskip, hne⟩ := hfront (u := ws ++ t) hsp hc
    obtain ⟨htake, hdrop⟩ := hc.take_eq (u := ws ++ t) rfl
    have hspace := dropWhile_space_append hws fun b hb => (ht b hb).1
    have hpos := List.length_pos_of_ne_nil (hc.ne_nil ha)
    simp only [List.length_append] at hn
    obtain ⟨k, rfl⟩ : ∃ k, n = k + 1 := ⟨n - 1, by omega⟩
    rw [extractAttrLoop_succ ha hstop rest outLen _ hskip hne, htake, if_pos hc, hdrop, hspace,
      if_neg fun he => (ht eqByte he).2 rfl]
    exact ih k (by omega)
  | @pass sp w t res hsp hw hword hno ht _ ih =>
    intro n hn
    have hpos := List.length_pos_of_ne_nil hw
    simp only [List.length_append] at hn
    obtain ⟨k, rfl⟩ : ∃ k, n = k + 1 := ⟨n - 1, by omega⟩
    have hskip : (sp ++ (w ++ t)).dropWhile isSpace = w ++ t := by
      refine dropWhile_space_append hsp fun b hb => hword b ?_
      rw [List.head?_append_of_ne_nil _ hw] at hb
      exact List.mem_of_head? hb
    have hrest : (w ++ t).dropWhile (fun b => !isSpace b) = t := by
      rw [List.dropWhile_append_of_pos fun b hb => by rw [hword b hb]; rfl]
      cases t with
      | nil => rfl
      | cons b t => rw [List.dropWhile_cons_of_neg (by rw [ht b rfl]; exact Bool.false_ne_true)]
    rw [extractAttrLoop_succ ha hstop rest outLen _ hskip
        (List.append_ne_nil_of_left_ne_nil hw _),
      if_neg (hno _ _ (List.take_append_drop _ _).symm), hrest]
    exact ih k (by omega)

/-- **What `extract_attr` gives** is the value it reads at the first mention, or nothing. -/
theorem extractAttrLoop_cases {a : CString} (ha : AttrName a) {stop : UInt8}
    (hstop : ¬ IsLetter stop) (rest : List UInt8) (outLen : Nat) (t : List UInt8) :
    ((∀ r, ¬ Mention a t r) ∧
      extractAttrLoop (stop :: rest) a outLen (t.length + 1) t = .ok []) ∨
    ∃ r, FirstMention a t r ∧
      extractAttrLoop (stop :: rest) a outLen (t.length + 1) t = .ok (readValue outLen r) := by
  obtain ⟨res, hres⟩ := exists_attrRounds ha t
  have hloop := extractAttrLoop_of_rounds ha hstop rest outLen hres t.length le_rfl
  rcases hres.finds ha with ⟨rfl, hno⟩ | ⟨r, rfl, hr⟩
  · exact Or.inl ⟨hno, hloop⟩
  · exact Or.inr ⟨r, hr, hloop⟩

end DsoBrowser

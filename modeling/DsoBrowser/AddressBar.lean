import DsoBrowser.Chunk
import DsoBrowser.HtmlUrl

/-!
# Absolute URLs in pages and in the address bar

A URL with a host becomes a content name in two places. `on_url_activate` keeps the host and drops
the scheme (`onUrlActivate_text`); `html_resolve_url` drops both (`htmlResolveUrl_text`). So a link
and the same URL in the address bar never have one name, and the links of two sites with one path
have the same (`contentName_eq_iff`, `not_keepsHosts`).
-/

namespace DsoBrowser

/-! ## The address bar -/

/-- `strstr`: the string from the first occurrence of `needle` on. -/
def strstr (needle : CString) : CString → Option CString
  | [] => if needle = [] then some [] else none
  | c :: s => if needle <+: c :: s then some (c :: s) else strstr needle s

/-- `is_content_name` -/
def isContentName (text : CString) : Bool := text.head? = some slash

/-- `"://"` -/
def schemeEnd : CString := text [':', '/', '/']

/-- `is_url` -/
def isUrl (text : CString) : Bool := (strstr schemeEnd text).isSome

/-- `on_url_activate`: the name it navigates to. -/
def onUrlActivate (text : CString) : CString :=
  if isContentName text then text
  else if isUrl text then
    match strstr schemeEnd text with
    | some path => snprintf psirpMaxName (slash :: path.drop 3)
    | none => text
  else text

/-! ## Absolute URLs -/

/-- A URL with a scheme, a host and a path. -/
structure AbsoluteUrl where
  /-- the scheme, with `://` -/
  scheme : CString
  host : CString
  path : CString
  /-- the scheme is one that pages refer by -/
  known : equalsCase scheme http = true ∨ equalsCase scheme https = true
  /-- the host ends where the path starts -/
  hostFree : slash ∉ host
  /-- the path starts at the root -/
  rooted : path.head? = some slash

/-- The URL as a page has it, or the user types it. -/
def AbsoluteUrl.text (u : AbsoluteUrl) : CString := u.scheme ++ (u.host ++ u.path)

/-- The name that a link with this URL has, in a buffer of `outLen` bytes. -/
def contentName (base : Option CString) (url : CString) (outLen : Nat) : Except HtmlFault CString :=
  (htmlResolveUrl base url outLen).map fun out => CString.ofBytes out.2

theorem length_of_equalsCase {s t : CString} (h : equalsCase s t = true) :
    s.length = t.length := by
  rw [equalsCase, decide_eq_true_eq] at h
  have hlen := congrArg List.length h
  rwa [List.length_map, List.length_map, CString.length_bytes, CString.length_bytes] at hlen

/-- Letters apart, strings that are the same in either case are the same. -/
theorem eq_of_equalsCase {t : CString} (ht : ∀ c ∈ t, ¬ (65 ≤ c.val.toNat ∧ c.val.toNat ≤ 90) ∧
    ¬ (97 ≤ c.val.toNat ∧ c.val.toNat ≤ 122)) :
    ∀ {s : CString}, equalsCase s t = true → s = t := by
  induction t with
  | nil =>
    intro s h
    exact List.eq_nil_of_length_eq_zero (length_of_equalsCase h)
  | cons c t ih =>
    intro s h
    cases s with
    | nil => exact absurd (length_of_equalsCase h) (Nat.succ_ne_zero _).symm
    | cons d s =>
      have hcons := of_decide_eq_true h
      obtain ⟨hd, hs⟩ := List.cons.inj hcons
      obtain ⟨hupper, hlower⟩ := ht c List.mem_cons_self
      have hc : toLower c.val = c.val := by
        rw [toLower, if_neg]
        simpa [UInt8.le_iff_toNat_le] using hupper
      rw [Subtype.ext (toLower_eq hlower (hd.trans hc)),
        ih (fun x hx => ht x (List.mem_cons_of_mem _ hx)) (decide_eq_true hs)]

/-- A scheme is a word and `://`. -/
theorem exists_word_of_scheme {s word : CString}
    (hword : ∀ c ∈ word, toLower c.val ≠ 58)
    (h : equalsCase s (word ++ schemeEnd) = true) :
    ∃ w, s = w ++ schemeEnd ∧ ∀ c ∈ w, c.val ≠ 58 := by
  have hmap := of_decide_eq_true h
  have hlen := length_of_equalsCase h
  rw [List.length_append] at hlen
  rw [CString.bytes, CString.bytes, List.map_append, List.map_append] at hmap
  have hsplit : (s.take word.length).map Subtype.val ++ (s.drop word.length).map Subtype.val =
      s.map Subtype.val := by
    rw [← List.map_append, List.take_append_drop]
  rw [← hsplit, List.map_append] at hmap
  obtain ⟨hfront, hback⟩ := List.append_inj hmap (by simp; omega)
  have hend : s.drop word.length = schemeEnd := eq_of_equalsCase (by decide) (decide_eq_true hback)
  refine ⟨s.take word.length, by rw [← hend, List.take_append_drop], fun c hc hcolon => ?_⟩
  have hmem : toLower c.val ∈ (word.map Subtype.val).map toLower :=
    hfront ▸ List.mem_map_of_mem (List.mem_map_of_mem hc)
  rw [List.map_map] at hmem
  obtain ⟨d, hd, he⟩ := List.mem_map.mp hmem
  exact hword d hd (by rw [Function.comp_apply] at he; rw [he, hcolon]; decide)

/-- The first `://` of a URL is the one of its scheme. -/
theorem strstr_append {w : CString} (hw : ∀ c ∈ w, c.val ≠ 58) (rest : CString) :
    strstr schemeEnd (w ++ (schemeEnd ++ rest)) = some (schemeEnd ++ rest) := by
  induction w with
  | nil =>
    rw [List.nil_append]
    change (if schemeEnd <+: schemeEnd ++ rest then _ else _) = _
    rw [if_pos (List.prefix_append _ _)]
    rfl
  | cons c w ih =>
    have hno : ¬ schemeEnd <+: c :: (w ++ (schemeEnd ++ rest)) := by
      rintro ⟨t, ht⟩
      have hc := (List.cons.inj ht).1
      exact hw c List.mem_cons_self (by rw [← hc]; decide)
    rw [List.cons_append, strstr, if_neg hno]
    exact ih fun x hx => hw x (List.mem_cons_of_mem _ hx)

namespace AbsoluteUrl

variable (u : AbsoluteUrl)

theorem exists_word : ∃ w, u.scheme = w ++ schemeEnd ∧ ∀ c ∈ w, c.val ≠ 58 := by
  rcases u.known with h | h
  · exact @exists_word_of_scheme _ (DsoBrowser.text ['h', 't', 't', 'p']) (by decide) h
  · exact @exists_word_of_scheme _ (DsoBrowser.text ['h', 't', 't', 'p', 's']) (by decide) h

/-- The path is what is left behind the host. -/
theorem dropWhile_host : (u.host ++ u.path).dropWhile (· ≠ slash) = u.path := by
  rw [List.dropWhile_append_of_pos]
  · cases hpath : u.path with
    | nil => rfl
    | cons c path =>
      have hroot := u.rooted
      rw [hpath] at hroot
      rw [List.dropWhile_cons_of_neg (by simpa using hroot)]
  · intro c hc
    simpa using fun he : c = slash => u.hostFree (he ▸ hc)

end AbsoluteUrl

/-- **In the address bar** the host is kept. -/
theorem onUrlActivate_text (u : AbsoluteUrl) :
    onUrlActivate u.text = snprintf psirpMaxName (slash :: (u.host ++ u.path)) := by
  obtain ⟨w, hw, hcolon⟩ := u.exists_word
  have hstr : strstr schemeEnd u.text = some (schemeEnd ++ (u.host ++ u.path)) := by
    rw [AbsoluteUrl.text, hw, List.append_assoc]
    exact strstr_append hcolon _
  have hname : isContentName u.text = false := by
    rw [isContentName, decide_eq_false_iff_not, AbsoluteUrl.text]
    rcases u.known with h | h
    all_goals
      cases hs : u.scheme with
      | nil => rw [hs] at h; exact absurd h (by decide)
      | cons c s =>
        rw [hs] at h
        intro he
        obtain rfl : c = slash := Option.some.inj he
        exact absurd (List.cons.inj (of_decide_eq_true h)).1 (by decide)
  rw [onUrlActivate, if_neg (by rw [hname]; exact Bool.false_ne_true), isUrl, hstr]
  rfl

/-- **In a page** the host is dropped. -/
theorem htmlResolveUrl_text (base : Option CString) (u : AbsoluteUrl) {outLen : Nat}
    (hout : 0 < outLen) : htmlResolveUrl base u.text outLen = .ok (copied u.path outLen) := by
  have htake : u.text.take u.scheme.length = u.scheme := by
    rw [AbsoluteUrl.text]
    exact List.take_left
  have hdrop : u.text.drop u.scheme.length = u.host ++ u.path := by
    rw [AbsoluteUrl.text]
    exact List.drop_left
  rw [htmlResolveUrl.eq_def, if_neg hout.ne']
  rcases u.known with h | h
  · rw [length_of_equalsCase h] at htake hdrop
    rw [if_pos (by rw [hasScheme, htake]; exact h), hdrop, u.dropWhile_host]
  · have hno : ¬ hasScheme http u.text = true := by
      intro hhttp
      have hfront := of_decide_eq_true hhttp
      have hscheme := of_decide_eq_true h
      rw [length_of_equalsCase h] at htake
      rw [← htake] at hscheme
      have hcut := congrArg (List.take http.length) hscheme
      rw [CString.bytes, ← List.map_take, ← List.map_take, List.take_take,
        Nat.min_eq_left (by decide : http.length ≤ https.length), ← CString.bytes, hfront] at hcut
      exact absurd hcut (by decide)
    rw [length_of_equalsCase h] at htake hdrop
    rw [if_neg hno, if_pos (by rw [hasScheme, htake]; exact h), hdrop, u.dropWhile_host]

/-- The name of a link is its path. -/
theorem contentName_text (base : Option CString) (u : AbsoluteUrl) {outLen : Nat}
    (hfit : u.path.length < outLen) : contentName base u.text outLen = .ok u.path := by
  rw [contentName, htmlResolveUrl_text base u (Nat.zero_lt_of_lt hfit), copied,
    List.take_of_length_le (Nat.le_sub_one_of_lt hfit)]
  exact congrArg Except.ok (CString.ofBytes_bytes_append u.path [])

/-- Links have the same name whatever their hosts. -/
theorem contentName_eq_iff (base : Option CString) {u v : AbsoluteUrl} {outLen : Nat}
    (hu : u.path.length < outLen) (hv : v.path.length < outLen) :
    contentName base u.text outLen = contentName base v.text outLen ↔ u.path = v.path := by
  rw [contentName_text base u hu, contentName_text base v hv]
  exact ⟨Except.ok.inj, congrArg Except.ok⟩

/-- The names of links tell hosts and paths apart, and are those of the address bar. -/
structure KeepsHosts (base : Option CString) (u v : AbsoluteUrl) (outLen : Nat) : Prop where
  /-- one name, one host and path -/
  apart : contentName base u.text outLen = contentName base v.text outLen →
    u.host = v.host ∧ u.path = v.path
  /-- the host stands in the name -/
  named : contentName base u.text outLen = .ok (slash :: (u.host ++ u.path))
  /-- and the address bar has the same name -/
  typed : contentName base u.text outLen = .ok (onUrlActivate u.text)

/-- **No link** keeps its host. -/
theorem not_keepsHosts (base : Option CString) (u v : AbsoluteUrl) {outLen : Nat}
    (hu : u.path.length < outLen)
    (hname : (slash :: (u.host ++ u.path)).length < psirpMaxName) :
    ¬ KeepsHosts base u v outLen := by
  intro h
  have htyped := h.typed
  rw [contentName_text base u hu, onUrlActivate_text, snprintf,
    List.take_of_length_le (Nat.le_sub_one_of_lt hname)] at htyped
  have hlen := congrArg List.length (Except.ok.inj htyped)
  rw [List.length_cons, List.length_append] at hlen
  omega

/-- `http://a/x` -/
def urlOfA : AbsoluteUrl where
  scheme := http
  host := text ['a']
  path := text ['/', 'x']
  known := by decide
  hostFree := by decide
  rooted := by decide

/-- `https://b/x` -/
def urlOfB : AbsoluteUrl where
  scheme := https
  host := text ['b']
  path := text ['/', 'x']
  known := by decide
  hostFree := by decide
  rooted := by decide

/-- Two sites with one path. -/
theorem not_keepsHosts_twoSites :
    urlOfA.path.length < htmlMaxAttrLen ∧
      (slash :: (urlOfA.host ++ urlOfA.path)).length < psirpMaxName ∧
      ¬ KeepsHosts none urlOfA urlOfB htmlMaxAttrLen :=
  ⟨by decide, by decide, not_keepsHosts none urlOfA urlOfB (by decide) (by decide)⟩

/-- They share the name `/x`, and the address bar has `/a/x` for the first. -/
theorem contentName_twoSites :
    contentName none urlOfA.text htmlMaxAttrLen = .ok (text ['/', 'x']) ∧
      contentName none urlOfB.text htmlMaxAttrLen = .ok (text ['/', 'x']) ∧
      onUrlActivate urlOfA.text = text ['/', 'a', '/', 'x'] ∧
      ¬ (∀ (base : Option CString) (u v : AbsoluteUrl) (outLen : Nat),
        u.path.length < outLen → v.path.length < outLen →
        (slash :: (u.host ++ u.path)).length < psirpMaxName → KeepsHosts base u v outLen) := by
  have ha : contentName none urlOfA.text htmlMaxAttrLen = .ok (text ['/', 'x']) := by decide
  have hb : contentName none urlOfB.text htmlMaxAttrLen = .ok (text ['/', 'x']) := by decide
  refine ⟨ha, hb, by decide, fun h => ?_⟩
  have hkeeps := h none urlOfA urlOfB htmlMaxAttrLen (by decide) (by decide) (by decide)
  exact absurd (hkeeps.apart (ha.trans hb.symm)).1 (by decide)

end DsoBrowser

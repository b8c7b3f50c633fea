import DsoBrowser.NameRender
import DsoBrowser.Chunk
import DsoBrowser.PlainStore

/-!
# The names of chunks and manifests

`<name>/chunk/<i>` and `<name>/chunks` are rendered, cut to `PSIRP_MAX_NAME` bytes and parsed
again, and the parser keeps sixteen components. What comes out depends on how many components of
the name were rendered:

* up to fourteen: all names are as intended, and canonical (`chunkName_eq`, `manifestName_eq`);
* fifteen: the chunk numbers are lost, so all chunks share one component list;
* sixteen: nothing of the suffix is left, and chunks and manifest share the name's own.

A versioned name has no such names: the version ends up inside the text, which the parser rejects
(`manifestPath_versioned`).
-/

namespace DsoBrowser

open Segments

/-- `chunk` -/
def chunkWord : CString := text ['c', 'h', 'u', 'n', 'k']

/-- `chunks` -/
def chunksWord : CString := text ['c', 'h', 'u', 'n', 'k', 's']

/-! ## Unversioned names -/

section Unversioned

variable {name : PsirpName}

/-- A name with a derived suffix: rendered, cut, and parsed again. -/
def derivedPath (name : PsirpName) (suffix : CString) : CString :=
  snprintf psirpMaxName (psirpNameToString name psirpMaxName ++ slash :: suffix)

theorem manifestPath_eq (name : PsirpName) : manifestPath name = derivedPath name chunksWord := rfl

theorem chunkPath_eq (name : PsirpName) (i : Nat) :
    chunkPath name i = derivedPath name (chunkWord ++ slash :: decimal i) := rfl

/-- A rendered name that leaves room for the slash of the suffix is followed by as much of the
suffix as fits. -/
theorem derivedPath_of_room (suffix : CString) {t : CString}
    (ht : psirpNameToString name psirpMaxName = t) (hlt : t.length + 1 < psirpMaxName) :
    derivedPath name suffix = t ++ slash :: suffix.take (psirpMaxName - 2 - t.length) := by
  obtain ⟨k, hk⟩ : ∃ k, psirpMaxName - 1 = t.length + (k + 1) :=
    ⟨psirpMaxName - 2 - t.length, by omega⟩
  rw [derivedPath, snprintf, ht, hk, List.take_length_add_append, List.take_succ_cons]
  congr 3
  omega

/-- Where the characters in front of such a suffix come from, all come from. -/
theorem mem_of_mem_append_suffix {t suffix : CString} {m : Nat} {P : CChar → Prop}
    (ht : ∀ c ∈ t, c = slash ∨ P c) :
    ∀ c ∈ t ++ slash :: suffix.take m, c = slash ∨ P c ∨ c ∈ suffix := by
  intro c hc
  rcases List.mem_append.mp hc with hc | hc
  · exact (ht c hc).imp_right Or.inl
  · rcases List.mem_cons.mp hc with hc | hc
    · exact Or.inl hc
    · exact Or.inr (Or.inr (List.mem_of_mem_take hc))

/-- The segments of a derived path: the rendered components, and what the cut leaves of the
suffix. With at most fifteen components and a short suffix that is all of it. -/
theorem segments_derivedPath (hv : name.hasVersion = false)
    (hpath : ∀ c ∈ name.components, PathComponent c) (suffix : CString) :
    ∃ m, segments slash (derivedPath name suffix) =
        renderedComponents name ++ segments slash (suffix.take m) ∧
      (∀ c ∈ derivedPath name suffix, c = slash ∨ c ∈ pathOf (renderedComponents name) ∨
        c ∈ suffix) ∧
      ((renderedComponents name).length < psirpMaxComponents → suffix.length ≤ 30 →
        suffix.take m = suffix) := by
  have hplain : ∀ c ∈ name.components, PlainComponent c := fun c hc =>
    (hpath c hc).toPlainComponent
  have hcomps : segments slash (pathOf (renderedComponents name)) = renderedComponents name :=
    segments_pathOf fun c hc => hpath c ((rendered_initial name).subset hc)
  rcases psirpNameToString_rendered hv hplain with ht | ⟨ht, hdepth⟩
  · -- the rendered components are all that was written
    have hcut := derivedPath_of_room suffix ht (length_rendered_lt hplain)
    refine ⟨psirpMaxName - 2 - (pathOf (renderedComponents name)).length, ?_, ?_, ?_⟩
    · rw [hcut, segments_append_cons, hcomps]
    · rw [hcut]
      exact mem_of_mem_append_suffix fun c hc => Or.inr hc
    · intro hdepth hlen
      have hshort := length_rendered hplain hdepth
      apply List.take_of_length_le
      simp only [psirpMaxName, psirpMaxComponents, psirpMaxComponent]
      omega
  · -- the slash of the component left out precedes the suffix
    have hshort := length_rendered hplain hdepth
    have hlen : (pathOf (renderedComponents name) ++ [slash]).length ≤ 961 := by
      rw [List.length_append, List.length_singleton]
      omega
    have hcut := derivedPath_of_room suffix ht
      (lt_of_le_of_lt (Nat.succ_le_succ hlen) (by decide))
    refine ⟨psirpMaxName - 2 - (pathOf (renderedComponents name) ++ [slash]).length, ?_, ?_, ?_⟩
    · rw [hcut, segments_append_cons, segments_append_cons, segments_nil, List.append_nil, hcomps]
    · rw [hcut]
      refine mem_of_mem_append_suffix fun c hc => ?_
      rcases List.mem_append.mp hc with hc | hc
      · exact Or.inr hc
      · exact Or.inl (List.mem_singleton.mp hc)
    · intro _ hsuffix
      apply List.take_of_length_le
      simp only [psirpMaxName, psirpMaxComponents, psirpMaxComponent]
      omega

/-- **A derived path parses**: to the first sixteen of the rendered components and the segments of
the suffix. -/
theorem psirpNameInit_derivedPath (hv : name.hasVersion = false)
    (hpath : ∀ c ∈ name.components, PathComponent c) {suffix : CString} (hlen : suffix.length ≤ 30)
    (hat : atSign ∉ suffix) :
    ∃ hash, psirpNameInit (derivedPath name suffix) = (true,
      ⟨(renderedComponents name ++ segments slash suffix).take psirpMaxComponents, hash, 0, false,
        List.length_take_le _ _⟩) := by
  obtain ⟨m, hsegs, hmem, hall⟩ := segments_derivedPath hv hpath suffix
  have hrendered : ∀ c ∈ renderedComponents name, PathComponent c := fun c hc =>
    hpath c ((rendered_initial name).subset hc)
  have hatPath : atSign ∉ derivedPath name suffix := by
    intro h
    rcases hmem _ h with h | h | h
    · exact atSign_ne_slash h
    · exact atSign_notMem_pathOf (fun c hc => (hrendered c hc).noAt) h
    · exact hat h
  have hshort : ∀ s ∈ (segments slash (derivedPath name suffix)).take psirpMaxComponents,
      s.length < psirpMaxComponent := by
    intro s hs
    rw [hsegs] at hs
    rcases List.mem_append.mp (List.mem_of_mem_take hs) with hs | hs
    · exact (hrendered s hs).length_lt
    · have hle := (mem_segments hs).2.2.length_le
      rw [List.length_take] at hle
      exact lt_of_le_of_lt (hle.trans ((Nat.min_le_right _ _).trans hlen)) (by decide)
  refine ⟨_, (psirpNameInit_of_noAt hatPath hshort).trans
    (congrArg (Prod.mk true) (PsirpName.ext ?_ rfl rfl rfl))⟩
  change (segments slash (derivedPath name suffix)).take psirpMaxComponents =
    (renderedComponents name ++ segments slash suffix).take psirpMaxComponents
  rw [hsegs]
  rcases Nat.lt_or_ge (renderedComponents name).length psirpMaxComponents with hlt | hge
  · rw [hall hlt hlen]
  · rw [List.take_append_of_le_length hge, List.take_append_of_le_length hge]

theorem chunkSuffix_length {i : Nat} (hi : i < 10 ^ 20) :
    (chunkWord ++ slash :: decimal i).length ≤ 30 := by
  have hdec := length_decimal_le (by decide : 0 < 20) hi
  have hword : chunkWord.length = 5 := rfl
  rw [List.length_append, List.length_cons, hword]
  omega

theorem atSign_notMem_chunkSuffix (i : Nat) : atSign ∉ chunkWord ++ slash :: decimal i := by
  intro h
  rcases List.mem_append.mp h with h | h
  · exact absurd h (by decide)
  · rcases List.mem_cons.mp h with h | h
    · exact atSign_ne_slash h
    · exact atSign_notMem_decimal i h

theorem segments_chunkSuffix (i : Nat) :
    segments slash (chunkWord ++ slash :: decimal i) = [chunkWord, decimal i] := by
  rw [segments_append_cons, segments_of_notMem (by decide) (by decide),
    segments_of_notMem (slash_notMem_decimal i) (decimal_ne_nil i)]
  rfl

/-- The name of a chunk has no version, and its components are the rendered ones, `chunk` and the
number, as far as sixteen go. -/
theorem psirpNameInit_chunkPath (hv : name.hasVersion = false)
    (hpath : ∀ c ∈ name.components, PathComponent c) {i : Nat} (hi : i < 10 ^ 20) :
    ∃ hash, psirpNameInit (chunkPath name i) = (true,
      ⟨(renderedComponents name ++ [chunkWord, decimal i]).take psirpMaxComponents, hash, 0, false,
        List.length_take_le _ _⟩) := by
  obtain ⟨hash, h⟩ := psirpNameInit_derivedPath hv hpath (chunkSuffix_length hi)
    (atSign_notMem_chunkSuffix i)
  rw [← chunkPath_eq] at h
  refine ⟨hash, h.trans (congrArg (Prod.mk true) (PsirpName.ext ?_ rfl rfl rfl))⟩
  rw [segments_chunkSuffix]

/-- The same for the manifest. -/
theorem psirpNameInit_manifestPath (hv : name.hasVersion = false)
    (hpath : ∀ c ∈ name.components, PathComponent c) :
    ∃ hash, psirpNameInit (manifestPath name) = (true,
      ⟨(renderedComponents name ++ [chunksWord]).take psirpMaxComponents, hash, 0, false,
        List.length_take_le _ _⟩) := by
  obtain ⟨hash, h⟩ := psirpNameInit_derivedPath hv hpath
    (show chunksWord.length ≤ 30 by decide) (show atSign ∉ chunksWord by decide)
  rw [← manifestPath_eq] at h
  refine ⟨hash, h.trans (congrArg (Prod.mk true) (PsirpName.ext ?_ rfl rfl rfl))⟩
  rw [segments_of_notMem (by decide) (by decide)]

/-! ## Up to fourteen components -/

/-- The component list of a chunk, as intended. -/
def chunkComponents (name : PsirpName) (i : Nat) : List CString :=
  name.components ++ [chunkWord, decimal i]

/-- The component list of the manifest, as intended. -/
def manifestComponents (name : PsirpName) : List CString := name.components ++ [chunksWord]

theorem chunkComponents_injective (name : PsirpName) :
    Function.Injective (chunkComponents name) := by
  intro i j h
  have htail := List.append_cancel_left h
  exact decimal_injective (List.cons.inj (List.cons.inj htail).2).1

theorem chunkComponents_ne_manifestComponents (a b : PsirpName) (i : Nat)
    (h : a.components.length = b.components.length) :
    chunkComponents a i ≠ manifestComponents b := by
  intro he
  have hlen := congrArg List.length he
  simp only [chunkComponents, manifestComponents, List.length_append, List.length_cons,
    List.length_nil] at hlen
  omega

theorem pathComponent_chunkWord : PathComponent chunkWord := by decide

theorem pathComponent_chunksWord : PathComponent chunksWord := by decide

theorem pathComponent_decimal {i : Nat} (hi : i < 10 ^ 20) : PathComponent (decimal i) :=
  ⟨⟨lt_of_le_of_lt (length_decimal_le (by decide : 0 < 20) hi) (by decide),
    slash_notMem_decimal i, atSign_notMem_decimal i⟩, decimal_ne_nil i⟩

/-- The number of components that leaves room for the derived names. -/
def Shallow (name : PsirpName) : Prop := name.components.length + 2 ≤ psirpMaxComponents

/-- A chunk's name as a key of the content map. -/
def chunkKey (hpath : ∀ c ∈ name.components, PathComponent c) (hshallow : Shallow name) {i : Nat}
    (hi : i < 10 ^ 20) : PlainKey where
  components := chunkComponents name i
  path := by
    intro c hc
    rcases List.mem_append.mp hc with hc | hc
    · exact hpath c hc
    · rcases List.mem_cons.mp hc with rfl | hc
      · exact pathComponent_chunkWord
      · exact List.mem_singleton.mp hc ▸ pathComponent_decimal hi
  ne_nil := by simp [chunkComponents]
  length_le := by
    rw [chunkComponents, List.length_append]
    exact hshallow

/-- The manifest's name as a key of the content map. -/
def manifestKey (hpath : ∀ c ∈ name.components, PathComponent c) (hshallow : Shallow name) :
    PlainKey where
  components := manifestComponents name
  path := by
    intro c hc
    rcases List.mem_append.mp hc with hc | hc
    · exact hpath c hc
    · exact List.mem_singleton.mp hc ▸ pathComponent_chunksWord
  ne_nil := by simp [manifestComponents]
  length_le := by
    rw [manifestComponents, List.length_append, List.length_singleton]
    exact (Nat.le_succ _).trans hshallow

theorem psirpNameToString_shallow (hv : name.hasVersion = false)
    (hpath : ∀ c ∈ name.components, PathComponent c) (hshallow : Shallow name) :
    psirpNameToString name psirpMaxName = pathOf name.components ∧
      (pathOf name.components).length ≤ 896 := by
  have hlen := length_pathOf_le fun c hc => (hpath c hc).length_lt
  have hle : (pathOf name.components).length ≤ 896 := by
    apply hlen.trans
    rw [Shallow] at hshallow
    simp only [psirpMaxComponents, psirpMaxComponent] at hshallow ⊢
    omega
  have hloop := nameToStringLoop_unversioned hv psirpMaxName name.components [] []
    (by simp only [List.length_nil, psirpMaxName, psirpMaxComponents, psirpMaxComponent]; omega)
  rw [List.append_nil] at hloop
  rw [psirpNameToString, if_neg (by decide), hloop]
  exact ⟨rfl, hle⟩

/-- **The name of a chunk**, of a name with up to fourteen components. -/
theorem chunkName_eq (hv : name.hasVersion = false)
    (hpath : ∀ c ∈ name.components, PathComponent c) (hshallow : Shallow name) {i : Nat}
    (hi : i < 10 ^ 20) : chunkName name i = (chunkKey hpath hshallow hi).name := by
  obtain ⟨htext, hlen⟩ := psirpNameToString_shallow hv hpath hshallow
  have hcanonical : chunkPath name i = pathOf (chunkComponents name i) := by
    rw [chunkPath_eq, derivedPath, snprintf, htext, List.take_of_length_le]
    · rw [chunkComponents, pathOf_append]
      simp
    · have hsuffix := chunkSuffix_length hi
      rw [List.length_append, List.length_cons]
      simp only [psirpMaxName, psirpMaxComponents, psirpMaxComponent]
      omega
  rw [chunkName, hcanonical]
  rfl

/-- **The name of the manifest**, of a name with up to fourteen components. -/
theorem manifestName_eq (hv : name.hasVersion = false)
    (hpath : ∀ c ∈ name.components, PathComponent c) (hshallow : Shallow name) :
    manifestName name = (manifestKey hpath hshallow).name := by
  obtain ⟨htext, hlen⟩ := psirpNameToString_shallow hv hpath hshallow
  have hcanonical : manifestPath name = pathOf (manifestComponents name) := by
    rw [manifestPath_eq, derivedPath, snprintf, htext, List.take_of_length_le]
    · rw [manifestComponents, pathOf_append]
      simp
    · have hword : chunksWord.length = 6 := rfl
      rw [List.length_append, List.length_cons, hword]
      simp only [psirpMaxName, psirpMaxComponents, psirpMaxComponent]
      omega
  rw [manifestName, hcanonical]
  rfl

end Unversioned

/-! ## Versioned names -/

theorem length_segments_pathOf_le {cs : List CString} (h : ∀ c ∈ cs, slash ∉ c) :
    (segments slash (pathOf cs)).length ≤ cs.length := by
  induction cs with
  | nil => simp
  | cons c cs ih =>
    have hc : (segments slash c).length ≤ 1 := by
      rcases eq_or_ne c [] with rfl | hne
      · simp
      · rw [segments_of_notMem (h c List.mem_cons_self) hne]
        rfl
    -- what is glued to `c` starts with a slash, if it is anything
    have hsplit : segments slash (pathOf (c :: cs)) =
        segments slash c ++ segments slash (pathOf cs) := by
      cases cs with
      | nil => simp
      | cons d ds =>
        rw [pathOf_cons c, List.cons_append, segments_cons, pathOf_cons, List.cons_append,
          segments_append_cons, segments_cons]
    have hcs := ih fun d hd => h d (List.mem_cons_of_mem _ hd)
    rw [hsplit, List.length_append, List.length_cons]
    omega

/-- **A versioned name has no manifest**: its version ends up inside the manifest's path, and the
parser rejects that. -/
theorem psirpNameInit_manifestPath_versioned {name : PsirpName} (hw : name.WellFormed)
    (hv : name.hasVersion = true) (hshallow : Shallow name)
    (hlen : (pathOf name.components).length ≤ 900) :
    (psirpNameInit (manifestPath name)).1 = false := by
  have hdec : (decimal name.version.toNat).length ≤ 20 :=
    length_decimal_le (by decide) (name.version.toNat_lt.trans (by decide))
  have htext : psirpNameToString name psirpMaxName =
      pathOf name.components ++ atSign :: decimal name.version.toNat := by
    rw [psirpNameToString_eq (hw.components_ne hv), versionText, if_pos hv]
    simp only [psirpMaxName, psirpMaxComponents, psirpMaxComponent]
    omega
  have hpath : manifestPath name = pathOf name.components ++
      atSign :: (decimal name.version.toNat ++ slash :: chunksWord) := by
    rw [manifestPath_eq, derivedPath, snprintf, htext, List.take_of_length_le]
    · simp
    · have hword : chunksWord.length = 6 := rfl
      simp only [List.length_append, List.length_cons, hword, psirpMaxName, psirpMaxComponents,
        psirpMaxComponent]
      omega
  rw [hpath]
  refine psirpNameInit_at_inner (atSign_notMem_pathOf fun c hc => (hw.plain c hc).noAt)
    (by simp) ?_
  have hsegs := length_segments_pathOf_le fun c hc => (hw.plain c hc).noSlash
  rw [Shallow] at hshallow
  omega

end DsoBrowser

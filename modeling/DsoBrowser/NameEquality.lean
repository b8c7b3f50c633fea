import DsoBrowser.StoredNames

/-!
# Names that denote the same

`psirp_name_equal` compares hashes before it compares components, and the two constructors do not
hash the same thing: `psirp_name_init` hashes the text it is given, `psirp_name_init_components`
the canonical path of the components. So a name is equal to another spelling of itself, or to the
name rebuilt from its components, only if the texts hashed are the same, or collide
(`nameEquality_iff`).
-/

namespace DsoBrowser

/-- The names have the same components and the same version, or both none. -/
structure DenoteSame (a b : PsirpName) : Prop where
  /-- the components -/
  components_eq : a.components = b.components
  /-- whether there is a version -/
  hasVersion_eq : a.hasVersion = b.hasVersion
  /-- the version -/
  version_eq : a.version = b.version

instance (a b : PsirpName) : Decidable (DenoteSame a b) :=
  decidable_of_iff (a.components = b.components ∧ a.hasVersion = b.hasVersion ∧
      a.version = b.version)
    ⟨fun ⟨hc, hh, hv⟩ => ⟨hc, hh, hv⟩, fun ⟨hc, hh, hv⟩ => ⟨hc, hh, hv⟩⟩

/-- The texts are the same, or different with the same hash. -/
def SameOrCollide (s t : CString) : Prop :=
  s = t ∨ s ≠ t ∧ fnv1aHash s.bytes = fnv1aHash t.bytes

theorem sameOrCollide_iff {s t : CString} :
    SameOrCollide s t ↔ fnv1aHash s.bytes = fnv1aHash t.bytes := by
  rw [SameOrCollide]
  refine ⟨?_, ?_⟩
  · rintro (rfl | ⟨-, h⟩)
    · rfl
    · exact h
  · intro h
    rcases eq_or_ne s t with he | hne
    · exact Or.inl he
    · exact Or.inr ⟨hne, h⟩

/-- **Equality of accepted names.** Names that denote the same are equal exactly if the texts of
their paths are the same or collide, and a name is equal to the one rebuilt from its components
exactly if that holds of its text and the canonical path. -/
theorem nameEquality_iff {p q : CString} {a b : PsirpName} (hp : psirpNameInit p = (true, a))
    (hq : psirpNameInit q = (true, b)) :
    (DenoteSame a b →
        (psirpNameEqual a b = true ↔ SameOrCollide (hashText p) (hashText q))) ∧
      (psirpNameEqual (entryName a) a = true ↔
        SameOrCollide (hashText p) (pathOf a.components)) := by
  refine ⟨?_, ?_⟩
  · intro hsame
    rw [psirpNameEqual_iff, and_iff_left hsame.components_eq, hash_of_psirpNameInit hp,
      hash_of_psirpNameInit hq, sameOrCollide_iff]
  · have hparsed : Parsed a := ⟨p, hp⟩
    have hcomps : (entryName a).components = a.components := by rw [hparsed.entryName_eq]
    rw [psirpNameEqual_of_selfHashed hparsed.selfHashed_entryName, and_iff_left hcomps,
      PsirpName.SelfHashed, pathHash, hash_of_psirpNameInit hp, sameOrCollide_iff]

theorem nameEquality_iff_a :
    let a := (psirpNameInit (text ['/', 'a'])).2
    let b := (psirpNameInit (text ['a'])).2
    (psirpNameEqual a b = true ↔ SameOrCollide (hashText (text ['/', 'a'])) (hashText (text ['a']))) ∧
      (psirpNameEqual (entryName a) a = true ↔
        SameOrCollide (hashText (text ['/', 'a'])) (pathOf a.components)) := by
  intro a b
  have h := nameEquality_iff (p := text ['/', 'a']) (q := text ['a']) (a := a) (b := b)
    (by decide) (by decide)
  exact ⟨h.1 (by decide), h.2⟩

/-- `/a/` is another spelling of `/a`, and neither equal to it nor to its own rebuilt name. -/
theorem not_nameEqual_trailingSlash :
    let a := (psirpNameInit (text ['/', 'a'])).2
    let b := (psirpNameInit (text ['/', 'a', '/'])).2
    (psirpNameInit (text ['/', 'a'])).1 = true ∧ (psirpNameInit (text ['/', 'a', '/'])).1 = true ∧
      DenoteSame a b ∧ psirpNameEqual a b = false ∧ psirpNameEqual (entryName b) b = false := by
  decide +kernel

end DsoBrowser

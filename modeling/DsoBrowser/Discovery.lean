import DsoBrowser.Pubsub
import DsoBrowser.HeardPrefixes
import DsoBrowser.NameRender

/-!
# Who is found under a version

A publisher announces itself in the DHT under the hash of the **base** name, whatever the version.
A peer that looks for a version has the name `pubsub_versioned_name` builds, and that name is hashed
over its text, version included (`hash_pubsubVersionedName`). So a publication makes the publisher a
holder of the version only if the two hashes collide (`discoverable_iff`).
-/

namespace DsoBrowser

open Segments

/-- The text of a version of a topic. -/
def versionPath (base : PsirpName) (version : UInt64) : CString :=
  pathOf base.components ++ atSign :: decimal version.toNat

/-- An unversioned name `psirp_name_init` accepts from a canonical path of at least one component
and at most 900 bytes. -/
def ShortCanonical (base : PsirpName) : Prop :=
  ∃ path : List CString, path ≠ [] ∧ (∀ c ∈ path, c ≠ [] ∧ slash ∉ c) ∧
    (pathOf path).length ≤ 900 ∧ psirpNameInit (pathOf path) = (true, base) ∧
    base.hasVersion = false

theorem ShortCanonical.canonical {base : PsirpName} (h : ShortCanonical base) : Canonical base := by
  obtain ⟨path, hne, hsegs, -, hinit, hver⟩ := h
  exact ⟨path, hne, hsegs, hinit, hver⟩

theorem ShortCanonical.length_pathOf_le {base : PsirpName} (h : ShortCanonical base) :
    (pathOf base.components).length ≤ 900 := by
  obtain ⟨path, -, hsegs, hlen, hinit, hver⟩ := h
  have hstart := (@psirpNameInit_unversioned (pathOf path) (Or.inr (by rwa [hinit]))).1
  rw [hinit, pathOf, segments_flatMap_cons hsegs] at hstart
  obtain ⟨more, hmore⟩ := hstart
  rw [← hmore, pathOf_append, List.length_append] at hlen
  exact (Nat.le_add_right _ _).trans hlen

/-- A short name is rendered in full, with its version behind it. -/
theorem versionedText_eq {base : PsirpName} (h : ShortCanonical base) (version : UInt64) :
    versionedText base version = versionPath base version := by
  have hlen := h.length_pathOf_le
  have hdigits : (decimal version.toNat).length ≤ 20 :=
    length_decimal_le (by decide) (version.toNat_lt.trans (by decide))
  have hver : versionText base = [] := by
    obtain ⟨-, -, -, -, -, hver⟩ := h
    rw [versionText, hver]
    rfl
  have hrender : psirpNameToString base psirpMaxName = pathOf base.components := by
    have hbuf : psirpMaxName = 1024 := by decide
    rw [psirpNameToString_eq h.canonical.components_ne (by omega), hver, List.append_nil]
  have hfit : (versionPath base version).length ≤ psirpMaxName - 1 := by
    have hbuf : psirpMaxName = 1024 := by decide
    rw [versionPath, List.length_append, List.length_cons]
    omega
  rw [versionedText, hrender, ← versionPath, snprintf, List.take_of_length_le hfit]

/-- **The name of a version is hashed over its text.** -/
theorem hash_pubsubVersionedName {base w : PsirpName} (h : ShortCanonical base) {version : UInt64}
    (hw : pubsubVersionedName base version = (true, w)) :
    w.hash = fnv1aHash (versionPath base version).bytes := by
  obtain ⟨c, cs, hcs⟩ := List.exists_cons_of_ne_nil h.canonical.components_ne
  have htext : hashText (versionPath base version) = versionPath base version := by
    rw [versionPath, hcs, pathOf_cons]
    simp [hashText, skipSlash]
  rw [pubsubVersionedName, versionedText_eq h] at hw
  rw [hash_of_psirpNameInit hw, htext]

/-- The publisher is among the holders the DHT has for the name. -/
def Discoverable (ctx : PubsubCtx) (w : PsirpName) : Prop :=
  ∃ dht, ctx.dht = some dht ∧ ctx.self ∈ dhtLookup dht w.hash

/-- **Discovery.** A version that was published leads to its publisher exactly when its text has the
hash of the base name, or the publisher was a holder of that hash before. -/
theorem discoverable_iff {ctx : PubsubCtx} {dht : DhtNode} {base w : PsirpName} {version : UInt64}
    (hbase : ShortCanonical base) (hdht : ctx.dht = some dht) (hroom : dht.RoomFor base.hash)
    (hpub : (pubsubPublish ctx base version).1 = true)
    (hw : pubsubVersionedName base version = (true, w)) :
    Discoverable (pubsubPublish ctx base version).2 w ↔
      fnv1aHash (versionPath base version).bytes = base.hash ∨
        ctx.self ∈ dhtLookup dht (fnv1aHash (versionPath base version).bytes) := by
  obtain ⟨hdht', hself⟩ := dht_of_published hpub
  rw [hdht, Option.map_some] at hdht'
  have hiff : Discoverable (pubsubPublish ctx base version).2 w ↔
      ctx.self ∈ dhtLookup (dhtAnnounce dht base.hash ctx.self) w.hash := by
    rw [Discoverable, hself]
    constructor
    · rintro ⟨dht', hsome, hmem⟩
      obtain rfl := Option.some.inj (hdht'.symm.trans hsome)
      exact hmem
    · exact fun hmem => ⟨_, hdht', hmem⟩
  rw [hiff, hash_pubsubVersionedName hbase hw]
  by_cases hsame : fnv1aHash (versionPath base version).bytes = base.hash
  · rw [hsame]
    exact iff_of_true (mem_dhtLookup_announce hroom) (Or.inl rfl)
  · rw [dhtLookup_announce_of_ne dht hsame, or_iff_right hsame]

theorem shortCanonical_news : ShortCanonical newsName :=
  ⟨[text ['n', 'e', 'w', 's']], by decide, by decide, by decide, by decide, by decide⟩

/-- A publisher with an empty DHT. -/
def newsPublisher : PubsubCtx := pubsubInit (some (dhtInit 0xABC)) 0x7f000001 9000

theorem discoverable_iff_news :
    Discoverable (pubsubPublish newsPublisher newsName 1).2 (pubsubVersionedName newsName 1).2 ↔
      fnv1aHash (versionPath newsName 1).bytes = newsName.hash ∨
        newsPublisher.self ∈ dhtLookup (dhtInit 0xABC)
          (fnv1aHash (versionPath newsName 1).bytes) :=
  discoverable_iff shortCanonical_news rfl (by decide) (by decide +kernel)
    (Prod.ext (by decide +kernel) rfl)

/-- Version 1 of `/news` is published, and nobody is found under `/news@1`. -/
theorem not_discoverable_news :
    ShortCanonical newsName ∧ (dhtInit 0xABC).RoomFor newsName.hash ∧
      (pubsubPublish newsPublisher newsName 1).1 = true ∧
      (pubsubVersionedName newsName 1).1 = true ∧
      ¬ Discoverable (pubsubPublish newsPublisher newsName 1).2 (pubsubVersionedName newsName 1).2 := by
  refine ⟨shortCanonical_news, by decide, by decide +kernel, by decide +kernel, ?_⟩
  rintro ⟨dht, hdht, hmem⟩
  have hnone : ((pubsubPublish newsPublisher newsName 1).2.dht.map fun dht =>
      dhtLookup dht (pubsubVersionedName newsName 1).2.hash) = some [] := by decide +kernel
  rw [hdht, Option.map_some] at hnone
  rw [Option.some.inj hnone] at hmem
  cases hmem

end DsoBrowser

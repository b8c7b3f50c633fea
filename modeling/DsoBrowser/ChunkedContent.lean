import DsoBrowser.ChunkedNames
import DsoBrowser.ChunkLoops

/-!
# Chunked content as part of the content map

What `psirp_cs_store_chunked` and `psirp_cs_lookup_chunked` do to a content store that stands for
a map, under unversioned names of up to fourteen components. Small data is kept directly under
the name; large data is kept in chunks, with a manifest next to them.

* `Readable` — the map holds the data of a name where the reader looks for it;
* `StandsFor.storeChunked_large` and `StandsFor.storeChunked_small` — the **writer** puts it there
  and changes nothing but the keys in `writes`;
* `Readable.lookupChunked` — the **reader** returns it;
* `Readable.congr` — it depends on the keys in `reads` alone.
-/

namespace DsoBrowser

open Heap Blocks Table

/-! ## Reading from a plain table -/

/-- The slots of a manifest are the ones it was made of. -/
theorem getElem?_chunks_of {refs : List PsirpChunkRef} (hlen : refs.length ≤ psirpMaxChunks)
    (total : Nat) {i : Nat} (hi : i < refs.length) :
    (PsirpManifest.of total refs).chunks[i]? = refs[i]? := by
  change ((refs ++ List.replicate psirpMaxChunks PsirpChunkRef.zero).take psirpMaxChunks)[i]? = _
  rw [List.getElem?_take_of_lt (by omega), List.getElem?_append_left hi]

/-- A manifest has as many slots in use as it was made of. -/
theorem toNat_chunkCount_of {refs : List PsirpChunkRef} (hlen : refs.length ≤ psirpMaxChunks)
    (total : Nat) : (PsirpManifest.of total refs).chunkCount.toNat = refs.length :=
  UInt64.toNat_ofNat_of_lt' (lt_of_le_of_lt hlen (by decide))

/-- If the manifest is found under its name, and every chunk under the name its slot refers to,
the reader returns the data. -/
theorem PlainTable.lookupChunked_of_content {s : ChunkState} {name : PsirpName} {d : List UInt8}
    {refs : List PsirpChunkRef} {outCap : Nat} (h : PlainTable s.cs)
    (hmn : (psirpNameInit (manifestPath name)).1 = true)
    (hversioned : (manifestName name).hasVersion = false)
    (hmax : d.length ≤ psirpMaxChunks * psirpChunkSize) (hrefs : RefsRefer s.heap name refs)
    (hlen : refs.length = chunkCount d)
    (hmanifest : contentAt s.cs (manifestName name).components =
      some (PsirpManifest.of d.length refs).bytes)
    (hchunks : ∀ i < chunkCount d, (chunkName name i).hasVersion = false ∧
      contentAt s.cs (chunkName name i).components = some (chunkOf d i))
    (hcap : d.length ≤ outCap) (direct now : Nat → UInt64) :
    ∃ cs, psirpCsLookupChunked s name outCap direct now = some (⟨true, d, some d.length⟩, cs) := by
  have hcount : refs.length ≤ psirpMaxChunks := hlen ▸ chunkCount_le hmax
  have hlookup := h.lookup_data hversioned (direct 0)
  rw [hmanifest] at hlookup
  obtain ⟨me, hme, hdata⟩ := Option.map_eq_some_iff.mp hlookup
  -- the lookups of the loop see what the store had at the start
  have hread : ∀ cs i, (PlainTable cs ∧ ∀ k, contentAt cs k = contentAt s.cs k) → i < refs.length →
      ∃ ref, (PsirpManifest.of d.length refs).chunks[i]? = some ref ∧ ∃ j e,
        rawLookupIndex s.heap cs.entries ref.name (now i) = some (some j) ∧
          cs.entries[j]? = some e ∧ e.data = chunkOf d i := by
    rintro cs i ⟨hplain, hsame⟩ hi
    have href : refs[i]? = some refs[i] := List.getElem?_eq_getElem hi
    obtain ⟨hunversioned, hcontent⟩ := hchunks i (hlen ▸ hi)
    obtain ⟨j, e, hj, he, hdata⟩ :=
      hplain.lookupIndex_of_content hunversioned ((hsame _).trans hcontent) (now i)
    exact ⟨refs[i], (getElem?_chunks_of hcount _ hi).trans href, j, e,
      by rw [rawLookupIndex_of_refers (hrefs i _ href), hj], he, hdata⟩
  obtain ⟨cs, hloop⟩ := reassembleLoop_reads now
    (fun cs j t hs => ⟨hs.1.touch j t, fun k => (contentAt_touch cs j t k).trans (hs.2 k)⟩)
    hread refs.length 0 _ [] (h.lookup_frame (manifestName name) (direct 0)) (Nat.zero_add _)
  have hblocks : ((List.range' 0 refs.length).map (chunkOf d)).flatten = d := by
    rw [← List.range_eq_range']
    exact flatten_blocks_of_le (hlen ▸ length_le_chunkCount d)
  rw [List.nil_append, hblocks, ← toNat_chunkCount_of hcount d.length] at hloop
  have htotal : (PsirpManifest.of d.length refs).totalLen.toNat = d.length :=
    UInt64.toNat_ofNat_of_lt' (lt_of_le_of_lt hmax (by decide))
  exact ⟨cs, psirpCsLookupChunked_of_manifest hmn hme hdata (htotal.trans_le hcap) hloop
    htotal.symm⟩

/-! ## Where the data of a name is kept -/

/-- The pieces the data is kept in, each with the components of the name it is kept under. -/
def pieces (name : PsirpName) (data : List UInt8) : List (List CString × List UInt8) :=
  if data.length ≤ psirpChunkSize then [(name.components, data)]
  else (List.range (chunkCount data)).map fun i => (chunkComponents name i, chunkOf data i)

/-- The keys the writer stores under. -/
def writes (name : PsirpName) (data : List UInt8) : List (List CString) :=
  if data.length ≤ psirpChunkSize then (pieces name data).map Prod.fst
  else manifestComponents name :: (pieces name data).map Prod.fst

/-- The keys the reader looks up. -/
def reads (name : PsirpName) (data : List UInt8) : List (List CString) :=
  manifestComponents name :: (pieces name data).map Prod.fst

/-- The map holds the data of the name where the reader looks for it: every piece is there, and
the manifest is there exactly for large data. -/
structure Readable (heap : StringHeap) (m : ContentMap) (name : PsirpName) (data : List UInt8) :
    Prop where
  /-- the pieces -/
  pieces_lookup : ∀ p ∈ pieces name data, m.lookup p.1 = some p.2
  /-- no manifest next to small data -/
  manifest_none : data.length ≤ psirpChunkSize → m.lookup (manifestComponents name) = none
  /-- the manifest next to the chunks -/
  manifest_some : psirpChunkSize < data.length → ∃ refs, RefsRefer heap name refs ∧
    refs.length = chunkCount data ∧
    m.lookup (manifestComponents name) = some (PsirpManifest.of data.length refs).bytes

theorem RefsRefer.mono {heap heap' : StringHeap} (hext : Extends heap heap') {name : PsirpName}
    {refs : List PsirpChunkRef} (h : RefsRefer heap name refs) : RefsRefer heap' name refs :=
  fun i ref hi => (h i ref hi).mono hext

/-- Whether data is readable depends on the keys the reader looks up alone. -/
theorem Readable.congr {heap heap' : StringHeap} {m m' : ContentMap} {name : PsirpName}
    {data : List UInt8} (h : Readable heap m name data) (hext : Extends heap heap')
    (hagree : ∀ k ∈ reads name data, m'.lookup k = m.lookup k) : Readable heap' m' name data := by
  have hmanifest := hagree (manifestComponents name) List.mem_cons_self
  refine ⟨?_, ?_, ?_⟩
  · intro p hp
    rw [hagree p.1 (List.mem_cons_of_mem _ (List.mem_map_of_mem hp))]
    exact h.pieces_lookup p hp
  · intro hsmall
    rw [hmanifest]
    exact h.manifest_none hsmall
  · intro hlarge
    obtain ⟨refs, hrefs, hlen, hlookup⟩ := h.manifest_some hlarge
    exact ⟨refs, hrefs.mono hext, hlen, hmanifest.trans hlookup⟩

section Content

variable {s s' : ChunkState} {m : ContentMap} {name : PsirpName} {d : List UInt8}

/-- Once `i` chunks are stored, the map has these chunks and is otherwise as it was before. -/
def AfterChunks (m : ContentMap) (name : PsirpName) (d : List UInt8) (i : Nat) (cs : PsirpCs) :
    Prop :=
  ∃ m', StandsFor cs m' ∧
    (∀ j < i, m'.lookup (chunkComponents name j) = some (chunkOf d j)) ∧
    ∀ k, (∀ j < i, k ≠ chunkComponents name j) → m'.lookup k = m.lookup k

theorem AfterChunks.zero (h : StandsFor s.cs m) : AfterChunks m name d 0 s.cs :=
  ⟨m, h, fun j hj => absurd hj (Nat.not_lt_zero j), fun _ _ => rfl⟩

/-- **Writer**, small data: the data is inserted under the name itself. -/
theorem StandsFor.storeChunked_small {malloc : Allocator UInt64 CString} {k : PlainKey}
    {now : Nat → UInt64} (h : StandsFor s.cs m) (hsmall : d.length ≤ psirpChunkSize)
    (hstore : psirpCsStoreChunked malloc s k.name d 0 now = (true, s')) :
    StandsFor s'.cs (m.insert k.components d) ∧ s'.heap = s.heap := by
  rw [psirpCsStoreChunked, if_pos hsmall] at hstore
  obtain ⟨hok, rfl⟩ := Prod.mk.inj hstore
  exact ⟨h.store_of_true k (Prod.ext hok rfl), rfl⟩

variable (hv : name.hasVersion = false) (hpath : ∀ c ∈ name.components, PathComponent c)
  (hshallow : Shallow name)

include hv hpath hshallow

theorem components_manifestName :
    (manifestName name).components = manifestComponents name ∧
      (manifestName name).hasVersion = false := by
  rw [manifestName_eq hv hpath hshallow]
  exact ⟨PlainKey.components_name _, PlainKey.hasVersion_name _⟩

theorem components_chunkName {i : Nat} (hi : i < 10 ^ 20) :
    (chunkName name i).components = chunkComponents name i ∧
      (chunkName name i).hasVersion = false := by
  rw [chunkName_eq hv hpath hshallow hi]
  exact ⟨PlainKey.components_name _, PlainKey.hasVersion_name _⟩

omit hshallow in
theorem psirpNameInit_manifestPath_fst : (psirpNameInit (manifestPath name)).1 = true := by
  obtain ⟨hash, h⟩ := psirpNameInit_manifestPath hv hpath
  rw [h]

/-- **Reader.** Readable data is read. -/
theorem Readable.lookupChunked (h : StandsFor s.cs m) (hr : Readable s.heap m name d)
    (hmax : d.length ≤ psirpMaxChunks * psirpChunkSize) {outCap : Nat} (hcap : d.length ≤ outCap)
    (direct now : Nat → UInt64) :
    ∃ cs, psirpCsLookupChunked s name outCap direct now =
      some (⟨true, d, some d.length⟩, cs) := by
  have hmn := psirpNameInit_manifestPath_fst hv hpath
  obtain ⟨hcomps, hversioned⟩ := components_manifestName hv hpath hshallow
  rcases Nat.lt_or_ge psirpChunkSize d.length with hlarge | hsmall
  · obtain ⟨refs, hrefs, hlen, hmanifest⟩ := hr.manifest_some hlarge
    refine h.table.lookupChunked_of_content hmn hversioned hmax hrefs hlen ?_ ?_ hcap direct now
    · rw [hcomps, h.contentAt_eq, hmanifest]
    · intro i hi
      have hi' : i < 10 ^ 20 := lt_of_lt_of_le hi ((chunkCount_le hmax).trans (by decide))
      obtain ⟨hcomps, hversioned⟩ := components_chunkName hv hpath hshallow hi'
      refine ⟨hversioned, ?_⟩
      rw [hcomps, h.contentAt_eq]
      apply hr.pieces_lookup (chunkComponents name i, chunkOf d i)
      rw [pieces, if_neg (Nat.not_le.mpr hlarge)]
      exact List.mem_map.mpr ⟨i, List.mem_range.mpr hi, rfl⟩
  · -- there is no manifest, and the data is under the name itself
    have hlookup := h.lookup_data hversioned (direct 0)
    rw [hcomps, hr.manifest_none hsmall, Option.map_eq_none_iff] at hlookup
    have hdata := h.lookup_data hv (direct 1)
    rw [hr.pieces_lookup (name.components, d) (by rw [pieces, if_pos hsmall]; simp)] at hdata
    obtain ⟨e, he, rfl⟩ := Option.map_eq_some_iff.mp hdata
    exact ⟨_, psirpCsLookupChunked_of_none hmn hlookup he hcap⟩

/-- The next chunk. -/
theorem AfterChunks.step (hmax : d.length ≤ psirpMaxChunks * psirpChunkSize) {i : Nat}
    {cs cs' : PsirpCs} {now : UInt64} (h : AfterChunks m name d i cs)
    (hi : psirpChunkSize * i < d.length)
    (hok : psirpCsStore cs (chunkName name i) (chunkOf d i) 0 now = (true, cs')) :
    AfterChunks m name d (i + 1) cs' := by
  obtain ⟨m', hs, hchunks, hframe⟩ := h
  have hi' : i < 10 ^ 20 := by
    simp only [psirpMaxChunks, psirpMaxData, psirpChunkSize] at hmax hi
    omega
  rw [chunkName_eq hv hpath hshallow hi'] at hok
  have hs' : StandsFor cs' (m'.insert (chunkComponents name i) (chunkOf d i)) :=
    hs.store_of_true _ hok
  refine ⟨_, hs', ?_, ?_⟩
  · intro j hj
    rcases Nat.lt_succ_iff_lt_or_eq.mp hj with hj | rfl
    · rw [Finmap.lookup_insert_of_ne _ fun he =>
        Nat.ne_of_lt hj (chunkComponents_injective name he)]
      exact hchunks j hj
    · exact Finmap.lookup_insert _
  · intro k hk
    rw [Finmap.lookup_insert_of_ne _ (hk i (Nat.lt_succ_self i))]
    exact hframe k fun j hj => hk j (Nat.lt_succ_of_lt hj)

/-- **Writer**, large data: afterwards the data is readable, and only keys it writes have
changed. -/
theorem StandsFor.storeChunked_large {malloc : Allocator UInt64 CString} {now : Nat → UInt64}
    (h : StandsFor s.cs m) (hlarge : psirpChunkSize < d.length)
    (hmax : d.length ≤ psirpMaxChunks * psirpChunkSize)
    (hstore : psirpCsStoreChunked malloc s name d 0 now = (true, s')) :
    ∃ m', StandsFor s'.cs m' ∧ Extends s.heap s'.heap ∧ Readable s'.heap m' name d ∧
      ∀ k ∉ writes name d, m'.lookup k = m.lookup k := by
  obtain ⟨refs, cs, hcount, ⟨m', hs, hchunks, hframe⟩, hmanifest, hrefs, hext⟩ :=
    psirpCsStoreChunked_rule (fun i cs cs' => AfterChunks.step hv hpath hshallow hmax) hlarge
      (AfterChunks.zero h) hstore
  rw [min_eq_right (chunkCount_le hmax)] at hcount
  rw [manifestName_eq hv hpath hshallow] at hmanifest
  have hs' : StandsFor s'.cs (m'.insert (manifestComponents name)
      (PsirpManifest.of d.length refs).bytes) := hs.store_of_true _ hmanifest
  refine ⟨_, hs', hext, ⟨?_, ?_, ?_⟩, ?_⟩
  · intro p hp
    rw [pieces, if_neg (Nat.not_le.mpr hlarge)] at hp
    obtain ⟨i, hi, rfl⟩ := List.mem_map.mp hp
    rw [Finmap.lookup_insert_of_ne _ (chunkComponents_ne_manifestComponents name name i rfl)]
    exact hchunks i (hcount ▸ List.mem_range.mp hi)
  · intro hsmall
    exact absurd hlarge (Nat.not_lt.mpr hsmall)
  · intro _
    exact ⟨refs, hrefs, hcount, Finmap.lookup_insert _⟩
  · intro k hk
    rw [writes, if_neg (Nat.not_le.mpr hlarge), pieces, if_neg (Nat.not_le.mpr hlarge),
      List.mem_cons, List.map_map, not_or] at hk
    rw [Finmap.lookup_insert_of_ne _ hk.1]
    refine hframe k fun j hj he => hk.2 ?_
    exact List.mem_map.mpr ⟨j, List.mem_range.mpr (hcount ▸ hj), he.symm⟩

end Content

end DsoBrowser

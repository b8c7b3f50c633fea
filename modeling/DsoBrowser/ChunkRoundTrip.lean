import DsoBrowser.ChunkedContent

/-!
# Which objects survive the chunked store

What `psirp_cs_store_chunked` accepts into an empty store is not always what
`psirp_cs_lookup_chunked` returns.

* `not_versionedChunkRoundTrip` — nothing stored under a **versioned** name is ever returned: its
  manifest's name does not parse, and the reader asks for the manifest first.
* `chunkRoundTrip_iff` — for **unversioned** names, exactly the `Recoverable` objects are returned.
  The parser keeps sixteen components, so from fifteen components on the derived names run into
  each other, and the manifest has a fixed number of slots.

The second is proved by looking at what a lookup finds first under each component list
(`contentAt`), which the chunks and the manifest share in different ways for different depths.
-/

namespace DsoBrowser

open Heap Blocks Table

/-! ## Versioned names -/

/-- Storing the data succeeds, and the reader then returns exactly the data. -/
def VersionedChunkRoundTrip (malloc : Allocator UInt64 CString) (s : ChunkState) (n : PsirpName)
    (d : List UInt8) (outCap : Nat) (now direct now' : Nat → UInt64) : Prop :=
  let stored := psirpCsStoreChunked malloc s n d 0 now
  stored.1 = true ∧ ∃ len cs,
    psirpCsLookupChunked stored.2 n outCap direct now' = some (⟨true, d, len⟩, cs)

/-- The reader always fails under a versioned name: it gives up at the manifest's name. -/
theorem psirpCsLookupChunked_versioned {n : PsirpName} (hn : Parsed n) (hv : n.hasVersion = true)
    (hdepth : n.components.length ≤ 14) (hlen : (pathOf n.components).length ≤ 900)
    (s : ChunkState) (outCap : Nat) (direct now : Nat → UInt64) :
    psirpCsLookupChunked s n outCap direct now = some (.failure, s.cs) := by
  have hshallow : Shallow n := Nat.add_le_add_right hdepth 2
  exact psirpCsLookupChunked_unnamed
    (psirpNameInit_manifestPath_versioned hn.wellFormed hv hshallow hlen)

/-- **Nothing stored under a versioned name is read back.** -/
theorem not_versionedChunkRoundTrip {n : PsirpName} (hn : Parsed n) (hv : n.hasVersion = true)
    (hdepth : n.components.length ≤ 14) (hlen : (pathOf n.components).length ≤ 900)
    (malloc : Allocator UInt64 CString) (s : ChunkState) (d : List UInt8) (outCap : Nat)
    (now direct now' : Nat → UInt64) :
    ¬ VersionedChunkRoundTrip malloc s n d outCap now direct now' := by
  rintro ⟨-, len, cs, hread⟩
  rw [psirpCsLookupChunked_versioned hn hv hdepth hlen] at hread
  simp [ChunkAnswer.failure] at hread

theorem not_versionedChunkRoundTrip_news :
    ¬ VersionedChunkRoundTrip countUp ⟨psirpCsInit, []⟩
      (psirpNameInit (text ['/', 'n', 'e', 'w', 's', '@', '4', '2'])).2 [7] 1
      (fun _ => 0) (fun _ => 0) (fun _ => 0) :=
  not_versionedChunkRoundTrip ⟨text ['/', 'n', 'e', 'w', 's', '@', '4', '2'], by decide⟩ (by decide)
    (by decide) (by decide) countUp ⟨psirpCsInit, []⟩ [7] 1 _ _ _

/-- One byte stored under `/a@1` is stored, but not read back. -/
theorem not_versionedChunkRoundTrip_a :
    let n := (psirpNameInit (text ['/', 'a', '@', '1'])).2
    Parsed n ∧ n.hasVersion = true ∧
      (psirpCsStoreChunked countUp ⟨psirpCsInit, []⟩ n [7] 0 fun _ => 0).1 = true ∧
      ¬ VersionedChunkRoundTrip countUp ⟨psirpCsInit, []⟩ n [7] 1 (fun _ => 0) (fun _ => 0)
        (fun _ => 0) := by
  have hn : Parsed (psirpNameInit (text ['/', 'a', '@', '1'])).2 :=
    ⟨text ['/', 'a', '@', '1'], by decide⟩
  refine ⟨hn, by decide, by decide +kernel, ?_⟩
  rintro ⟨-, len, cs, hread⟩
  rw [psirpCsLookupChunked_versioned hn (by decide) (by decide) (by decide)] at hread
  simp [ChunkAnswer.failure] at hread

/-! ## Unversioned names -/

/-- Whatever is read after a store into the empty content store that succeeds is exactly what was
stored, wherever the strings are placed and whatever the clock shows. -/
def ChunkRoundTrip (n : PsirpName) (d : List UInt8) : Prop :=
  ∀ (malloc : Allocator UInt64 CString) (heap : StringHeap) (now direct now' : Nat → UInt64)
    (outCap : Nat), d.length ≤ outCap →
    ∀ s, psirpCsStoreChunked malloc ⟨psirpCsInit, heap⟩ n d 0 now = (true, s) →
      ∃ cs, psirpCsLookupChunked s n outCap direct now' = some (⟨true, d, some d.length⟩, cs)

/-- The condition on the name and the data. Small data needs one component to spare for its
manifest's name. Large data has to fit the slots, and needs two to spare for the names of its
chunks, or one if all its chunks are the same. -/
def Recoverable (n : PsirpName) (d : List UInt8) : Prop :=
  let depth := (renderedComponents n).length
  if d.length ≤ psirpChunkSize then depth + 1 ≤ psirpMaxComponents
  else d.length ≤ psirpMaxChunks * psirpChunkSize ∧
    (depth + 2 ≤ psirpMaxComponents ∨
      depth + 1 = psirpMaxComponents ∧ ∀ i < chunkCount d, chunkOf d i = chunkOf d 0)

/-- The components of the manifest's name, as they come out of the parser. -/
def parsedManifest (n : PsirpName) : List CString :=
  (renderedComponents n ++ [chunksWord]).take psirpMaxComponents

/-- The components of the name of a chunk, as they come out of the parser. -/
def parsedChunk (n : PsirpName) (i : Nat) : List CString :=
  (renderedComponents n ++ [chunkWord, decimal i]).take psirpMaxComponents

/-- The components that all chunks share under fifteen rendered components. -/
def sharedChunk (n : PsirpName) : List CString := renderedComponents n ++ [chunkWord]

/-- An unversioned name with the given components, that a successful parse built. -/
structure Derived (n : PsirpName) (components : List CString) : Prop where
  /-- it parsed -/
  parsed : Parsed n
  /-- it is unversioned -/
  hasVersion_eq : n.hasVersion = false
  /-- its components -/
  components_eq : n.components = components

section Unversioned

variable {n : PsirpName} {d : List UInt8}

theorem derived_manifestName (hn : Parsed n) (hv : n.hasVersion = false) :
    (psirpNameInit (manifestPath n)).1 = true ∧ Derived (manifestName n) (parsedManifest n) := by
  obtain ⟨hash, h⟩ := psirpNameInit_manifestPath hv (hn.pathComponent hv)
  refine ⟨by rw [h], ⟨manifestPath n, Prod.ext (by rw [h]) rfl⟩, ?_, ?_⟩
  · rw [manifestName, h]
  · rw [manifestName, h, parsedManifest]

theorem derived_chunkName (hn : Parsed n) (hv : n.hasVersion = false) {i : Nat} (hi : i < 10 ^ 20) :
    (psirpNameInit (chunkPath n i)).1 = true ∧ Derived (chunkName n i) (parsedChunk n i) := by
  obtain ⟨hash, h⟩ := psirpNameInit_chunkPath hv (hn.pathComponent hv) hi
  refine ⟨by rw [h], ⟨chunkPath n i, Prod.ext (by rw [h]) rfl⟩, ?_, ?_⟩
  · rw [chunkName, h]
  · rw [chunkName, h, parsedChunk]

/-- Sixteen rendered components are all there are, and leave no room for a suffix. -/
theorem parsedManifest_deep (h : psirpMaxComponents ≤ (renderedComponents n).length) :
    parsedManifest n = n.components ∧ ∀ i, parsedChunk n i = n.components := by
  have hall : renderedComponents n = n.components :=
    (rendered_initial n).eq_of_length_le (n.count_le.trans h)
  rw [hall] at h
  have htake : n.components.take psirpMaxComponents = n.components :=
    List.take_of_length_le n.count_le
  refine ⟨?_, fun i => ?_⟩
  · rw [parsedManifest, hall, List.take_append_of_le_length h, htake]
  · rw [parsedChunk, hall, List.take_append_of_le_length h, htake]

/-- With fewer, the manifest has a name of its own. -/
theorem parsedManifest_ne (hn : Parsed n)
    (h : (renderedComponents n).length < psirpMaxComponents) :
    parsedManifest n ≠ n.components := by
  rw [parsedManifest, List.take_of_length_le (by rw [List.length_append]; exact h)]
  intro he
  have hplain := hn.wellFormed.plain
  rw [renderedComponents] at he h
  split at he
  · exact absurd (congrArg List.length he) (by simp)
  · -- the component left out is too long to be the word `chunks`
    rename_i hfit
    rw [if_neg hfit] at h
    have hinit : (pathOf n.components.dropLast).length ≤
        psirpMaxComponent * n.components.dropLast.length :=
      length_pathOf_le fun c hc => (hplain c (List.mem_of_mem_dropLast hc)).length_lt
    rw [← he, pathOf_append, List.length_append] at hfit
    have hword : (pathOf [chunksWord]).length = 7 := rfl
    rw [hword] at hfit
    simp only [psirpMaxName, psirpMaxComponents, psirpMaxComponent] at h hfit hinit
    omega

/-- With fifteen, the chunks lose their numbers. -/
theorem parsedChunk_of_fifteen (h : (renderedComponents n).length + 1 = psirpMaxComponents) :
    (∀ i, parsedChunk n i = sharedChunk n) ∧ parsedManifest n ≠ sharedChunk n := by
  refine ⟨fun i => ?_, ?_⟩
  · rw [parsedChunk, ← h, List.take_length_add_append]
    rfl
  · rw [parsedManifest, ← h, List.take_length_add_append, sharedChunk]
    intro he
    exact absurd (List.append_cancel_left he) (by decide)

/-- Storing small data leaves one entry, which holds it. -/
theorem storeChunked_small_init {malloc : Allocator UInt64 CString} {heap : StringHeap}
    {now : Nat → UInt64} {s : ChunkState} (hn : Parsed n) (hv : n.hasVersion = false)
    (hsmall : d.length ≤ psirpChunkSize)
    (h : psirpCsStoreChunked malloc ⟨psirpCsInit, heap⟩ n d 0 now = (true, s)) :
    PlainTable s.cs ∧ contentAt s.cs n.components = some d ∧
      ∀ k ≠ n.components, contentAt s.cs k = none := by
  rw [psirpCsStoreChunked, if_pos hsmall] at h
  obtain ⟨hok, rfl⟩ := Prod.mk.inj h
  obtain ⟨hplain, hother, hself⟩ := plainTable_init.store hn hv (Prod.ext hok rfl)
  refine ⟨hplain, ?_, fun k hk => hother k hk⟩
  rcases hself with hself | ⟨-, -, hself⟩
  · exact hself
  · exact absurd rfl hself

/-! ### Small data -/

/-- Small data is read back if its manifest would have a name of its own. -/
theorem chunkRoundTrip_small (hn : Parsed n) (hv : n.hasVersion = false)
    (hsmall : d.length ≤ psirpChunkSize)
    (hdepth : (renderedComponents n).length < psirpMaxComponents) : ChunkRoundTrip n d := by
  intro malloc heap now direct now' outCap hcap s hstore
  obtain ⟨htable, hself, hother⟩ := storeChunked_small_init hn hv hsmall hstore
  obtain ⟨hmn, -, hversioned, hcomps⟩ := derived_manifestName hn hv
  have hnone := htable.lookup_data hversioned (direct 0)
  rw [hcomps, hother _ (parsedManifest_ne hn hdepth), Option.map_eq_none_iff] at hnone
  have hdata := htable.lookup_data hv (direct 1)
  rw [hself] at hdata
  obtain ⟨e, he, rfl⟩ := Option.map_eq_some_iff.mp hdata
  exact ⟨_, psirpCsLookupChunked_of_none hmn hnone he hcap⟩

/-- Every entry is under the given components. -/
abbrev AllUnder (k : List CString) : PsirpCs → Prop := EveryEntry fun e => e.components = k

theorem AllUnder.store {k : List CString} {cs : PsirpCs} (h : AllUnder k cs) {n : PsirpName}
    (hn : Parsed n) (hk : n.components = k) (d : List UInt8) (f : UInt32) (now : UInt64) :
    AllUnder k (psirpCsStore cs n d f now).2 := by
  refine EveryEntry.store h (fun _ => ?_) fun _ _ _ he => he
  change (entryName n).components = k
  rw [hn.entryName_eq]
  exact hk

theorem AllUnder.touch {k : List CString} {cs : PsirpCs} (h : AllUnder k cs) (i : Nat)
    (now : UInt64) : AllUnder k { cs with entries := cs.entries.modify i (touch now) } :=
  EveryEntry.modify_touch h (fun _ _ he => he) i now

/-- A fresh store takes small data, in one piece. -/
theorem psirpCsStoreChunked_small_init (heap : StringHeap) (n : PsirpName) (f : UInt32)
    (now : Nat → UInt64) (hd : d ≠ []) (hsmall : d.length ≤ psirpChunkSize) :
    ∃ cs, psirpCsStore psirpCsInit n d f (now 0) = (true, cs) ∧
      psirpCsStoreChunked countUp ⟨psirpCsInit, heap⟩ n d f now = (true, ⟨cs, heap⟩) := by
  have hstorable : Storable d :=
    ⟨fun hzero => hd (List.eq_nil_of_length_eq_zero hzero), hsmall.trans (by decide)⟩
  obtain ⟨cs, hcs, -⟩ := psirpCsStore_of_room (rfl : psirpCsInit.maxBytes = 0) (by decide) n
    hstorable f (now 0)
  refine ⟨cs, hcs, ?_⟩
  rw [psirpCsStoreChunked, if_pos hsmall]
  simp only [hcs]

/-- Small data under a name of sixteen rendered components is taken for its own manifest, whose
addresses lead nowhere. -/
theorem not_chunkRoundTrip_small (hn : Parsed n) (hv : n.hasVersion = false) (hd : d ≠ [])
    (hsmall : d.length ≤ psirpChunkSize)
    (hdepth : psirpMaxComponents ≤ (renderedComponents n).length) : ¬ ChunkRoundTrip n d := by
  intro h
  obtain ⟨hmanifest, -⟩ := parsedManifest_deep hdepth
  have hne : n.components ≠ [] := by
    intro he
    have hle := (rendered_initial n).length_le
    rw [he] at hle
    exact absurd (hdepth.trans hle) (by decide)
  obtain ⟨cs, hcs, hstore⟩ := psirpCsStoreChunked_small_init [] n 0 (fun _ => 0) hd hsmall
  obtain ⟨htable, hself, -⟩ := storeChunked_small_init hn hv hsmall hstore
  have hunder : AllUnder n.components cs := by
    have hinit : AllUnder n.components psirpCsInit := fun e he => absurd he List.not_mem_nil
    have hnext := hinit.store hn rfl d 0 0
    rwa [hcs] at hnext
  obtain ⟨cs', hread⟩ := h countUp [] _ (fun _ => 0) (fun _ => 0) d.length le_rfl _ hstore
  rcases psirpCsLookupChunked_eq_true hread with ⟨hnone, -⟩ | ⟨me, -, -, hloop⟩
  · -- the manifest's name finds the data itself
    obtain ⟨-, -, hversioned, hcomps⟩ := derived_manifestName hn hv
    have hdata := htable.lookup_data hversioned 0
    rw [hnone, hcomps, hmanifest, hself] at hdata
    cases hdata
  · -- no slot leads to an entry, so nothing is written
    have hwild : ∀ cs i ref j e, AllUnder n.components cs →
        i < (readManifest me.data).chunkCount.toNat →
        (readManifest me.data).chunks[i]? = some ref →
        rawLookupIndex [] cs.entries ref.name 0 = some (some j) → cs.entries[j]? = some e →
        False := by
      intro cs i ref j e hs _ _ hj _
      obtain ⟨e', he', hcomps⟩ := rawLookupIndex_eq_some hj
      have hunder := hs e' (List.mem_of_getElem? he')
      rw [← hunder] at hne
      rw [rawComponentsEqual_nil_heap hne] at hcomps
      cases hcomps
    obtain ⟨pieces, -, hout, hfalse, -⟩ :=
      reassembleLoop_pieces (R := AllUnder n.components) (Q := fun _ _ => False)
        (fun cs j t hs => AllUnder.touch hs j t) hwild _ 0 _ _ _ _
        (EveryEntry.lookup hunder fun _ he => he) (Nat.zero_add _) hloop
    rw [List.eq_nil_iff_forall_not_mem.mpr (forall_mem_of_getElem? hfalse)] at hout
    exact hd hout

/-! ### Large data -/

theorem shallow_of_rendered (hn : Parsed n)
    (h : (renderedComponents n).length + 2 ≤ psirpMaxComponents) : Shallow n := by
  rcases Nat.lt_or_ge n.components.length psirpMaxComponents with hlt | hge
  · rwa [renderedComponents_eq hn.wellFormed.plain hlt] at h
  · have hlen : n.components.length ≤ (renderedComponents n).length + 1 := by
      rw [renderedComponents]
      split
      · exact Nat.le_succ _
      · rw [List.length_dropLast]
        omega
    omega

/-- Large data is read back under up to fourteen components. -/
theorem chunkRoundTrip_shallow (hn : Parsed n) (hv : n.hasVersion = false)
    (hlarge : psirpChunkSize < d.length) (hmax : d.length ≤ psirpMaxChunks * psirpChunkSize)
    (hdepth : (renderedComponents n).length + 2 ≤ psirpMaxComponents) : ChunkRoundTrip n d := by
  intro malloc heap now direct now' outCap hcap s hstore
  have hpath := hn.pathComponent hv
  have hshallow := shallow_of_rendered hn hdepth
  obtain ⟨m, hs, -, hreadable, -⟩ :=
    standsFor_init.storeChunked_large hv hpath hshallow hlarge hmax hstore
  exact hreadable.lookupChunked hv hpath hshallow hs hmax hcap direct now'

/-- A store of large data under an unversioned name can succeed. -/
theorem storeChunked_large_init (hn : Parsed n) (hv : n.hasVersion = false)
    (hlarge : psirpChunkSize < d.length) :
    ∃ s, psirpCsStoreChunked countUp ⟨psirpCsInit, []⟩ n d 0 (fun _ => 0) = (true, s) := by
  refine psirpCsStoreChunked_succeeds (fun i hi => ?_) (derived_manifestName hn hv).1 hlarge rfl
    (by decide) (supplies_countUp (by decide))
  exact (derived_chunkName hn hv (lt_of_lt_of_le hi (by decide))).1

/-- No entry holds more than a chunk. -/
abbrev AllShort : PsirpCs → Prop := EveryEntry fun e => e.data.length ≤ psirpChunkSize

theorem AllShort.store {cs cs' : PsirpCs} (h : AllShort cs) {n : PsirpName} {d : List UInt8}
    {f : UInt32} {now : UInt64} (hd : d.length ≤ psirpChunkSize)
    (hs : psirpCsStore cs n d f now = (true, cs')) : AllShort cs' := by
  have hnext : AllShort (psirpCsStore cs n d f now).2 :=
    EveryEntry.store h (fun _ => hd) fun _ _ _ _ => hd
  rwa [hs] at hnext

theorem AllShort.lookup {cs : PsirpCs} (h : AllShort cs) (n : PsirpName) (now : UInt64) :
    AllShort (psirpCsLookup cs n now).2 := EveryEntry.lookup h fun _ he => he

/-- Large data is stored in short pieces. -/
theorem AllShort.storeChunked {malloc : Allocator UInt64 CString} {s s' : ChunkState}
    {now : Nat → UInt64} (h : AllShort s.cs) (hlarge : psirpChunkSize < d.length)
    (hstore : psirpCsStoreChunked malloc s n d 0 now = (true, s')) : AllShort s'.cs := by
  obtain ⟨refs, cs, -, hcs, hmanifest, -⟩ := psirpCsStoreChunked_rule (I := fun _ => AllShort)
    (fun i cs cs' hcs _ hok => AllShort.store hcs (length_block_le _ _ _) hok) hlarge h hstore
  refine AllShort.store hcs ?_ hmanifest
  rw [PsirpManifest.length_bytes]
  decide

/-- The slots are not enough for the data: what is read is shorter. -/
theorem not_chunkRoundTrip_long (hn : Parsed n) (hv : n.hasVersion = false)
    (hlong : psirpMaxChunks * psirpChunkSize < d.length) : ¬ ChunkRoundTrip n d := by
  intro h
  have hlarge : psirpChunkSize < d.length := lt_of_le_of_lt (by decide) hlong
  obtain ⟨s, hstore⟩ := storeChunked_large_init hn hv hlarge
  have hshort : AllShort s.cs :=
    AllShort.storeChunked (fun e he => absurd he List.not_mem_nil) hlarge hstore
  obtain ⟨cs, hread⟩ := h countUp [] _ (fun _ => 0) (fun _ => 0) d.length le_rfl _ hstore
  rcases psirpCsLookupChunked_eq_true hread with ⟨-, e, he, hdata⟩ | ⟨me, -, -, hloop⟩
  · -- no entry is long enough
    obtain ⟨e₀, he₀, rfl⟩ := lookupEntry_eq_some he
    have hle := hshort e₀ he₀
    rw [← hdata] at hlarge
    exact absurd hlarge (Nat.not_lt.mpr hle)
  · -- nor are as many pieces as there are slots
    obtain ⟨pieces, hcount, hout, hpieces, hslots⟩ :=
      reassembleLoop_pieces (R := AllShort) (Q := fun _ p => p.length ≤ psirpChunkSize)
        (fun cs j t hs => EveryEntry.modify_touch hs (fun _ _ he => he) j t)
        (fun cs i ref j e hs _ _ _ he => hs e (List.mem_of_getElem? he))
        _ 0 _ _ _ _ (hshort.lookup (manifestName n) 0) (Nat.zero_add _) hloop
    rw [(readManifest me.data).length_chunks] at hslots
    have hle := length_flatten_le (forall_mem_of_getElem? hpieces)
    rw [hout, List.nil_append] at hlong
    rw [hcount] at hle
    rcases Nat.eq_zero_or_pos (readManifest me.data).chunkCount.toNat with hzero | hpos
    · rw [hzero] at hle
      omega
    · have hmul := Nat.mul_le_mul_left psirpChunkSize (hslots (by omega))
      rw [Nat.mul_comm psirpMaxChunks] at hlong
      omega

/-- Under sixteen rendered components the chunks and the manifest get the name's own components. -/
theorem storeChunked_deep {malloc : Allocator UInt64 CString} {s : ChunkState}
    {now : Nat → UInt64} (hn : Parsed n) (hv : n.hasVersion = false)
    (hlarge : psirpChunkSize < d.length) (hmax : d.length ≤ psirpMaxChunks * psirpChunkSize)
    (hdepth : psirpMaxComponents ≤ (renderedComponents n).length)
    (hstore : psirpCsStoreChunked malloc ⟨psirpCsInit, []⟩ n d 0 now = (true, s)) :
    PlainTable s.cs ∧ AllUnder n.components s.cs := by
  obtain ⟨hmanifest, hchunk⟩ := parsedManifest_deep hdepth
  -- chunks and manifest alike are stored under the name's own components
  have hput : ∀ {cs cs' : PsirpCs} {k : PsirpName} {x : List UInt8} {t : UInt64},
      (PlainTable cs ∧ AllUnder n.components cs) → Derived k n.components →
      psirpCsStore cs k x 0 t = (true, cs') → PlainTable cs' ∧ AllUnder n.components cs' := by
    rintro cs cs' k x t ⟨htable, hunder⟩ hk hok
    have hnext := hunder.store hk.parsed hk.components_eq x 0 t
    rw [hok] at hnext
    exact ⟨(htable.store hk.parsed hk.hasVersion_eq hok).1, hnext⟩
  have hchunks : ∀ i cs cs', (PlainTable cs ∧ AllUnder n.components cs) →
      psirpChunkSize * i < d.length →
      psirpCsStore cs (chunkName n i) (chunkOf d i) 0 (now i) = (true, cs') →
      PlainTable cs' ∧ AllUnder n.components cs' := by
    intro i cs cs' hcs hi hok
    have hi' : i < 10 ^ 20 := by
      simp only [psirpMaxChunks, psirpMaxData, psirpChunkSize] at hmax hi
      omega
    obtain ⟨-, hk⟩ := derived_chunkName hn hv hi'
    rw [hchunk] at hk
    exact hput hcs hk hok
  obtain ⟨refs, cs, -, hcs, hok, -⟩ := psirpCsStoreChunked_rule hchunks hlarge
    ⟨plainTable_init, fun e he => absurd he List.not_mem_nil⟩ hstore
  obtain ⟨-, hk⟩ := derived_manifestName hn hv
  rw [hmanifest] at hk
  exact hput hcs hk hok

/-- Among entries of one name, a name in memory leads to the first or none. -/
theorem AllUnder.data_of_raw {k : List CString} {cs : PsirpCs} (h : AllUnder k cs)
    (htable : PlainTable cs) {x : List UInt8} (hx : contentAt cs k = some x) {heap : StringHeap}
    {r : RawName} {now : UInt64} {j : Nat} {e : PsirpCsEntry}
    (hj : rawLookupIndex heap cs.entries r now = some (some j)) (he : cs.entries[j]? = some e) :
    e.data = x := by
  have hname : ∀ e ∈ cs.entries, ∀ e' ∈ cs.entries, e'.name.components = e.name.components ∧
      e'.name.hash = e.name.hash ∧ e'.name.version = e.name.version := by
    intro e he e' he'
    have hcomps : e'.name.components = e.name.components := (h e' he').trans (h e he).symm
    refine ⟨hcomps, ?_, ?_⟩
    · rw [(htable.plain e' he').selfHashed, (htable.plain e he).selfHashed, hcomps]
    · rw [(htable.plain e' he').version_eq, (htable.plain e he).version_eq]
  obtain rfl := rawLookupIndex_eq_zero
    (fun e he => entryExpired_of_freshness_zero (htable.plain e he).freshness_eq now) hname hj
  obtain ⟨rest, hrest⟩ : ∃ rest, cs.entries = e :: rest := by
    cases hes : cs.entries with
    | nil =>
      rw [hes] at he
      cases he
    | cons a rest =>
      rw [hes] at he
      exact ⟨rest, by rw [Option.some.inj he]⟩
  rw [contentAt, hrest, row_cons, if_pos (h e (List.mem_of_getElem? he))] at hx
  exact Option.some.inj hx

/-- Large data under sixteen rendered components: what is found under the manifest's name is the
first entry, and no slot leads to another one. -/
theorem not_chunkRoundTrip_deep (hn : Parsed n) (hv : n.hasVersion = false)
    (hlarge : psirpChunkSize < d.length) (hmax : d.length ≤ psirpMaxChunks * psirpChunkSize)
    (hdepth : psirpMaxComponents ≤ (renderedComponents n).length) : ¬ ChunkRoundTrip n d := by
  intro h
  obtain ⟨s, hstore⟩ := storeChunked_large_init hn hv hlarge
  obtain ⟨htable, hunder⟩ := storeChunked_deep hn hv hlarge hmax hdepth hstore
  obtain ⟨cs, hread⟩ := h countUp [] _ (fun _ => 0) (fun _ => 0) d.length le_rfl _ hstore
  obtain ⟨-, -, hversioned, hcomps⟩ := derived_manifestName hn hv
  rw [(parsedManifest_deep hdepth).1] at hcomps
  have hmanifest := htable.lookup_data hversioned 0
  rw [hcomps] at hmanifest
  rcases psirpCsLookupChunked_eq_true hread with ⟨hnone, e, he, hdata⟩ | ⟨me, hme, hsize, hloop⟩
  · -- the two names find the same
    have hself := htable.lookup_data hv 0
    rw [he] at hself
    rw [hnone, ← hself] at hmanifest
    cases hmanifest
  · -- every piece is as long as the manifest, so they are too short together
    rw [hme] at hmanifest
    obtain ⟨hstart, hsame⟩ := htable.lookup_frame (manifestName n) 0
    obtain ⟨pieces, hcount, hout, hpieces, hslots⟩ := reassembleLoop_pieces
      (R := fun cs => PlainTable cs ∧ AllUnder n.components cs ∧
        contentAt cs n.components = some me.data) (Q := fun _ p => p.length ≤ sizeofManifest)
      (fun cs j t hs => ⟨hs.1.touch j t, hs.2.1.touch j t, (contentAt_touch cs j t _).trans hs.2.2⟩)
      (fun cs i ref j e hs _ _ hj he => by
        rw [hs.2.1.data_of_raw hs.1 hs.2.2 hj he]
        exact hsize.le)
      _ 0 _ _ _ _ ⟨hstart, EveryEntry.lookup hunder fun _ he => he, (hsame _).trans hmanifest.symm⟩
      (Nat.zero_add _) hloop
    rw [(readManifest me.data).length_chunks] at hslots
    have hle := length_flatten_le (forall_mem_of_getElem? hpieces)
    rw [hout, List.nil_append] at hlarge
    rw [hcount] at hle
    simp only [psirpMaxChunks, psirpMaxData, psirpChunkSize, sizeofManifest] at hle hslots hlarge
    omega

/-- The state after `i` chunks under fifteen rendered components: one of them is found under the
components that they share, and there is no manifest yet. -/
structure SharedChunks (n : PsirpName) (d : List UInt8) (i : Nat) (cs : PsirpCs) : Prop where
  /-- only plain entries -/
  table : PlainTable cs
  /-- no manifest -/
  manifest_none : contentAt cs (parsedManifest n) = none
  /-- what is found is a chunk -/
  first : ∀ x, contentAt cs (sharedChunk n) = some x → ∃ j < i, x = chunkOf d j
  /-- after the first chunk, one is found -/
  stored : 0 < i → contentAt cs (sharedChunk n) ≠ none

theorem SharedChunks.init : SharedChunks n d 0 psirpCsInit where
  table := plainTable_init
  manifest_none := rfl
  first x hx := by cases hx
  stored h := absurd h (Nat.lt_irrefl 0)

theorem SharedChunks.store {i : Nat} {cs cs' : PsirpCs} {now : UInt64} (h : SharedChunks n d i cs)
    (hdepth : (renderedComponents n).length + 1 = psirpMaxComponents)
    (hk : Derived (chunkName n i) (parsedChunk n i))
    (hok : psirpCsStore cs (chunkName n i) (chunkOf d i) 0 now = (true, cs')) :
    SharedChunks n d (i + 1) cs' := by
  obtain ⟨hchunk, hne⟩ := parsedChunk_of_fifteen hdepth
  have hcomps : (chunkName n i).components = sharedChunk n := hk.components_eq.trans (hchunk i)
  obtain ⟨htable, hother, hself⟩ := h.table.store hk.parsed hk.hasVersion_eq hok
  rw [hcomps] at hother hself
  refine ⟨htable, (hother _ hne).trans h.manifest_none, fun x hx => ?_, fun _ => ?_⟩
  · rcases hself with hnew | ⟨-, hold, -⟩
    · rw [hnew] at hx
      exact ⟨i, Nat.lt_succ_self i, (Option.some.inj hx).symm⟩
    · rw [hold] at hx
      obtain ⟨j, hj, hxj⟩ := h.first x hx
      exact ⟨j, Nat.lt_succ_of_lt hj, hxj⟩
  · rcases hself with hnew | ⟨-, hold, hsome⟩
    · rw [hnew]
      exact nofun
    · rw [hold]
      exact hsome

/-- Under fifteen rendered components, the manifest is found under its name, and one and the same
chunk under the names of all chunks. -/
theorem storeChunked_fifteen {malloc : Allocator UInt64 CString} {heap : StringHeap}
    {s : ChunkState} {now : Nat → UInt64} (hn : Parsed n) (hv : n.hasVersion = false)
    (hlarge : psirpChunkSize < d.length) (hmax : d.length ≤ psirpMaxChunks * psirpChunkSize)
    (hdepth : (renderedComponents n).length + 1 = psirpMaxComponents)
    (hstore : psirpCsStoreChunked malloc ⟨psirpCsInit, heap⟩ n d 0 now = (true, s)) :
    ∃ refs, PlainTable s.cs ∧ RefsRefer s.heap n refs ∧ refs.length = chunkCount d ∧
      contentAt s.cs (parsedManifest n) = some (PsirpManifest.of d.length refs).bytes ∧
      ∃ j < chunkCount d, contentAt s.cs (sharedChunk n) = some (chunkOf d j) := by
  have hchunks : ∀ i cs cs', SharedChunks n d i cs → psirpChunkSize * i < d.length →
      psirpCsStore cs (chunkName n i) (chunkOf d i) 0 (now i) = (true, cs') →
      SharedChunks n d (i + 1) cs' := by
    intro i cs cs' hcs hi hok
    have hi' : i < 10 ^ 20 := by
      simp only [psirpMaxChunks, psirpMaxData, psirpChunkSize] at hmax hi
      omega
    exact hcs.store hdepth (derived_chunkName hn hv hi').2 hok
  obtain ⟨refs, cs, hcount, hcs, hok, hrefs, -⟩ := psirpCsStoreChunked_rule hchunks hlarge
    SharedChunks.init hstore
  rw [min_eq_right (chunkCount_le hmax)] at hcount
  obtain ⟨-, hk⟩ := derived_manifestName hn hv
  obtain ⟨htable, hother, hself⟩ := hcs.table.store hk.parsed hk.hasVersion_eq hok
  rw [hk.components_eq] at hother hself
  have hne : sharedChunk n ≠ parsedManifest n := (parsedChunk_of_fifteen hdepth).2.symm
  have hpos : 0 < refs.length := by
    rw [hcount, chunkCount]
    simp only [psirpChunkSize] at hlarge ⊢
    omega
  obtain ⟨x, hx⟩ := Option.ne_none_iff_exists'.mp (hcs.stored hpos)
  obtain ⟨j, hj, rfl⟩ := hcs.first x hx
  refine ⟨refs, htable, hrefs, hcount, ?_, j, hcount ▸ hj, (hother _ hne).trans hx⟩
  rcases hself with hnew | ⟨-, -, hsome⟩
  · exact hnew
  · exact absurd hcs.manifest_none hsome

/-- So the data is read back if all its chunks are the same. -/
theorem chunkRoundTrip_fifteen (hn : Parsed n) (hv : n.hasVersion = false)
    (hlarge : psirpChunkSize < d.length) (hmax : d.length ≤ psirpMaxChunks * psirpChunkSize)
    (hdepth : (renderedComponents n).length + 1 = psirpMaxComponents)
    (hsame : ∀ i < chunkCount d, chunkOf d i = chunkOf d 0) : ChunkRoundTrip n d := by
  intro malloc heap now direct now' outCap hcap s hstore
  obtain ⟨refs, htable, hrefs, hcount, hmanifest, j, hj, hfirst⟩ :=
    storeChunked_fifteen hn hv hlarge hmax hdepth hstore
  obtain ⟨hmn, -, hversioned, hcomps⟩ := derived_manifestName hn hv
  rw [← hcomps] at hmanifest
  refine htable.lookupChunked_of_content hmn hversioned hmax hrefs hcount hmanifest ?_ hcap direct now'
  intro i hi
  have hi' : i < 10 ^ 20 := lt_of_lt_of_le hi ((chunkCount_le hmax).trans (by decide))
  obtain ⟨-, -, hunversioned, hchunk⟩ := derived_chunkName hn hv hi'
  refine ⟨hunversioned, ?_⟩
  rw [hchunk, (parsedChunk_of_fifteen hdepth).1, hsame i hi, ← hsame j hj]
  exact hfirst

/-- Large data that is one of its chunks repeated has equal chunks. -/
theorem chunks_eq_of_replicate (hlarge : psirpChunkSize < d.length) {j : Nat}
    (hj : j < chunkCount d) (h : d = (List.replicate (chunkCount d) (chunkOf d j)).flatten) :
    ∀ i < chunkCount d, chunkOf d i = chunkOf d 0 := by
  obtain ⟨k, hk⟩ : ∃ k, chunkCount d = k + 1 := ⟨chunkCount d - 1, by omega⟩
  have hlen : d.length = k * (chunkOf d j).length + (chunkOf d j).length := by
    have hlen := congrArg List.length h
    rwa [List.length_flatten, List.map_replicate, List.sum_replicate_nat, hk, Nat.succ_mul] at hlen
  have hblock : (chunkOf d j).length = psirpChunkSize := by
    have hmin : (chunkOf d j).length = _ := length_block psirpChunkSize d j
    have hkpos : 0 < k ∧ psirpChunkSize * k < d.length := by
      rw [chunkCount] at hk
      simp only [psirpChunkSize] at hk hlarge ⊢
      omega
    rcases Nat.le_total psirpChunkSize (d.length - psirpChunkSize * j) with hfull | hlast
    · rw [hmin, Nat.min_eq_left hfull]
    · -- the last chunk is as long as the others
      rw [Nat.min_eq_right hlast] at hmin
      obtain rfl : j = k := by
        have hmul := Nat.mul_le_mul_left psirpChunkSize (Nat.le_of_lt_succ (hk ▸ hj))
        by_contra hne
        have hmul' := Nat.mul_le_mul_left psirpChunkSize (show j + 1 ≤ k by omega)
        rw [Nat.mul_succ] at hmul'
        omega
      have hmul : j * (chunkOf d j).length = j * psirpChunkSize := by
        rw [Nat.mul_comm j psirpChunkSize]
        omega
      exact Nat.eq_of_mul_eq_mul_left hkpos.1 hmul
  -- cutting the data gives back what was repeated
  have hall : ∀ i < chunkCount d, chunkOf d i = chunkOf d j := by
    intro i hi
    have hrep := block_flatten_replicate hblock hi
    rwa [← h] at hrep
  intro i hi
  rw [hall i hi, hall 0 (by omega)]

/-- And only then: the data read is one chunk repeated. -/
theorem chunks_eq_of_chunkRoundTrip (hn : Parsed n) (hv : n.hasVersion = false)
    (hlarge : psirpChunkSize < d.length) (hmax : d.length ≤ psirpMaxChunks * psirpChunkSize)
    (hdepth : (renderedComponents n).length + 1 = psirpMaxComponents) (h : ChunkRoundTrip n d) :
    ∀ i < chunkCount d, chunkOf d i = chunkOf d 0 := by
  obtain ⟨s, hstore⟩ := storeChunked_large_init hn hv hlarge
  obtain ⟨refs, htable, hrefs, hcount, hmanifest, j, hj, hfirst⟩ :=
    storeChunked_fifteen hn hv hlarge hmax hdepth hstore
  obtain ⟨cs, hread⟩ := h countUp [] _ (fun _ => 0) (fun _ => 0) d.length le_rfl _ hstore
  obtain ⟨-, -, hversioned, hcomps⟩ := derived_manifestName hn hv
  have hlookup := htable.lookup_data hversioned 0
  rw [hcomps, hmanifest] at hlookup
  have hslots : refs.length ≤ psirpMaxChunks := hcount ▸ chunkCount_le hmax
  rcases psirpCsLookupChunked_eq_true hread with ⟨hnone, -⟩ | ⟨me, hme, -, hloop⟩
  · rw [hnone] at hlookup
    cases hlookup
  · rw [hme] at hlookup
    rw [Option.some.inj hlookup, readManifest_bytes, toNat_chunkCount_of hslots] at hloop
    obtain ⟨hstart, hsame⟩ := htable.lookup_frame (manifestName n) 0
    -- every slot leads to the chunk that all chunk names find
    have hfind : ∀ cs i ref j' e,
        (PlainTable cs ∧ contentAt cs (sharedChunk n) = some (chunkOf d j)) → i < refs.length →
        (PsirpManifest.of d.length refs).chunks[i]? = some ref →
        rawLookupIndex s.heap cs.entries ref.name 0 = some (some j') → cs.entries[j']? = some e →
        e.data = chunkOf d j := by
      rintro cs i ref j' e ⟨htable, hcontent⟩ hi href hj' he
      rw [getElem?_chunks_of hslots _ hi] at href
      have hi' : i < 10 ^ 20 := lt_of_lt_of_le hi (hslots.trans (by decide))
      obtain ⟨-, -, hunversioned, hchunk⟩ := derived_chunkName hn hv hi'
      rw [← (parsedChunk_of_fifteen hdepth).1 i, ← hchunk] at hcontent
      obtain ⟨j'', e', hj'', he', hdata⟩ := htable.lookupIndex_of_content hunversioned hcontent 0
      rw [rawLookupIndex_of_refers (hrefs i ref href), hj''] at hj'
      obtain rfl := Option.some.inj (Option.some.inj hj')
      rw [← Option.some.inj (he'.symm.trans he)]
      exact hdata
    obtain ⟨pieces, hlen, hout, hpieces, -⟩ := reassembleLoop_pieces
      (R := fun cs => PlainTable cs ∧ contentAt cs (sharedChunk n) = some (chunkOf d j))
      (Q := fun _ p => p = chunkOf d j)
      (fun cs j t hs => ⟨hs.1.touch j t, (contentAt_touch cs j t _).trans hs.2⟩) hfind
      _ 0 _ _ _ _ ⟨hstart, (hsame _).trans hfirst⟩ (Nat.zero_add _) hloop
    rw [List.nil_append, List.eq_replicate_of_mem (forall_mem_of_getElem? hpieces), hlen,
      hcount] at hout
    exact chunks_eq_of_replicate hlarge hj hout

/-- **What survives.** Data stored under an unversioned name is read back exactly when it is
recoverable. -/
theorem chunkRoundTrip_iff (hn : Parsed n) (hv : n.hasVersion = false) (hd : d ≠ []) :
    ChunkRoundTrip n d ↔ Recoverable n d := by
  rw [Recoverable]
  rcases Nat.lt_or_ge psirpChunkSize d.length with hlarge | hsmall
  · rw [if_neg (Nat.not_le.mpr hlarge)]
    constructor
    · intro h
      have hmax : d.length ≤ psirpMaxChunks * psirpChunkSize := by
        by_contra hlong
        exact not_chunkRoundTrip_long hn hv (Nat.not_le.mp hlong) h
      have hdepth : (renderedComponents n).length < psirpMaxComponents := by
        by_contra hdeep
        exact not_chunkRoundTrip_deep hn hv hlarge hmax (Nat.not_lt.mp hdeep) h
      refine ⟨hmax, ?_⟩
      rcases Nat.lt_or_ge ((renderedComponents n).length + 1) psirpMaxComponents with hlt | hge
      · exact Or.inl hlt
      · have hfifteen := Nat.le_antisymm hdepth hge
        exact Or.inr ⟨hfifteen, chunks_eq_of_chunkRoundTrip hn hv hlarge hmax hfifteen h⟩
    · rintro ⟨hmax, hdepth | ⟨hdepth, hsame⟩⟩
      · exact chunkRoundTrip_shallow hn hv hlarge hmax hdepth
      · exact chunkRoundTrip_fifteen hn hv hlarge hmax hdepth hsame
  · rw [if_pos hsmall]
    constructor
    · intro h
      by_contra hdepth
      exact not_chunkRoundTrip_small hn hv hd hsmall (Nat.not_lt.mp hdepth) h
    · exact chunkRoundTrip_small hn hv hsmall

end Unversioned

/-- One byte more than a chunk. -/
def twoChunks : List UInt8 := List.replicate (psirpChunkSize + 1) 0

theorem length_twoChunks : twoChunks.length = psirpChunkSize + 1 := List.length_replicate

/-- Two chunks stored under `/a` are read back. -/
theorem chunkRoundTrip_iff_a : ChunkRoundTrip (psirpNameInit (text ['/', 'a'])).2 twoChunks := by
  have hlen := length_twoChunks
  have hdepth : (renderedComponents (psirpNameInit (text ['/', 'a'])).2).length + 2 ≤
      psirpMaxComponents := by decide +kernel
  refine (chunkRoundTrip_iff ⟨text ['/', 'a'], by decide⟩ (by decide) ?_).mpr ?_
  · exact List.ne_nil_of_length_pos (hlen ▸ Nat.succ_pos _)
  · rw [Recoverable, if_neg (by omega), hlen]
    exact ⟨by decide, Or.inl hdepth⟩

/-- The path of sixteen components `a`. -/
def deepPath : CString := pathOf (List.replicate psirpMaxComponents (text ['a']))

/-- One byte stored under a path of sixteen components is not read back. -/
theorem not_chunkRoundTrip_deepPath :
    let n := (psirpNameInit deepPath).2
    Parsed n ∧ n.hasVersion = false ∧ ¬ ChunkRoundTrip n [7] := by
  have hn : Parsed (psirpNameInit deepPath).2 := ⟨deepPath, by decide +kernel⟩
  have hv : (psirpNameInit deepPath).2.hasVersion = false := by decide +kernel
  exact ⟨hn, hv, not_chunkRoundTrip_small hn hv (List.cons_ne_nil _ _) (by decide)
    (by decide +kernel)⟩

end DsoBrowser

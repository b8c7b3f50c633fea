import DsoBrowser.ChunkRoundTrip
import DsoBrowser.Net
import DsoBrowser.PacketRoundTrip

/-!
# Chunks in datagrams

A stored entry is answered in one UDP datagram, which holds at most 65507 bytes. A Data packet has
18 bytes besides the path of its name and the data (`fitsDatagram_iff`), and a chunk is 65536 bytes.
So a full chunk never fits, and **what `psirp_cs_store_chunked` stored can be sent exactly when** it
was stored in one piece, short enough for a datagram (`storedFit_iff`).
-/

namespace DsoBrowser

open Blocks ByteOrder

/-- The payload `sendto` takes at most over IPv4. -/
def udpMaxPayload : Nat := 65507

/-- The packet is serialized, to something a datagram holds. -/
def FitsDatagram (pkt : PsirpData) : Prop :=
  ∃ buf, psirpDataSerialize pkt psirpRecvBufSize = some buf ∧ buf.length ≠ 0 ∧
    buf.length ≤ udpMaxPayload

theorem length_psirpDataSerialize {pkt : PsirpData} {bufLen : Nat} {buf : List UInt8}
    (h : psirpDataSerialize pkt bufLen = some buf) :
    buf.length = 18 + (pathOf pkt.name.components).length + pkt.data.length := by
  rw [(psirpDataSerialize_eq_some h).1, ← length_componentBytes]
  simp only [List.length_cons, List.length_append, length_beBytes]
  omega

/-- **The size of a Data packet** decides whether it fits. -/
theorem fitsDatagram_iff {pkt : PsirpData} (hlen : ∀ c ∈ pkt.name.components, c.length < 256) :
    FitsDatagram pkt ↔
      18 + (pathOf pkt.name.components).length + pkt.data.length ≤ udpMaxPayload := by
  constructor
  · rintro ⟨buf, h, -, hle⟩
    rwa [length_psirpDataSerialize h] at hle
  · intro hle
    have hbuf : 18 + (componentBytes pkt.name.components).length + pkt.data.length ≤
        psirpRecvBufSize := by
      rw [length_componentBytes]
      exact hle.trans (by decide)
    obtain ⟨buf, h⟩ := psirpDataSerialize_of_le hlen hbuf
    refine ⟨buf, h, ?_, ?_⟩
    · rw [length_psirpDataSerialize h]
      omega
    · rw [length_psirpDataSerialize h]
      exact hle

/-- A full chunk does not. -/
theorem not_fitsDatagram_chunk {pkt : PsirpData} (h : pkt.data.length = psirpChunkSize) :
    ¬ FitsDatagram pkt := by
  rintro ⟨buf, hbuf, -, hle⟩
  rw [length_psirpDataSerialize hbuf, h] at hle
  simp only [psirpChunkSize, udpMaxPayload] at hle
  omega

variable {n : PsirpName} {d : List UInt8} {f : UInt32}

/-- There is no byte budget, and after the first chunk there is an entry for it. -/
structure FirstChunk (n : PsirpName) (d : List UInt8) (i : Nat) (cs : PsirpCs) : Prop where
  /-- no budget -/
  maxBytes_eq : cs.maxBytes = 0
  /-- the entry -/
  stored : 0 < i → ∃ e ∈ cs.entries, e.components = chunkComponents n 0 ∧ e.data = chunkOf d 0

/-- A store without a byte budget leaves an entry with its name and data, and keeps the entries
under other components. -/
theorem entries_of_psirpCsStore {cs cs' : PsirpCs} (hb : cs.maxBytes = 0) {k : PsirpName}
    (hk : Parsed k) {x : List UInt8} {now : UInt64}
    (h : psirpCsStore cs k x f now = (true, cs')) :
    cs'.maxBytes = 0 ∧ (∃ e ∈ cs'.entries, e.components = k.components ∧ e.data = x) ∧
      ∀ e ∈ cs.entries, e.components ≠ k.components → e ∈ cs'.entries := by
  rcases psirpCsStore_cases_of_unlimited hb k x f now with
    ⟨hs, -⟩ | ⟨-, i, b, hi, hs⟩ | ⟨-, -, -, b, hs⟩
  · rw [hs] at h
    cases h
  · -- an entry under the name is overwritten, the others stay where they are
    obtain rfl := (Prod.mk.inj (hs.symm.trans h)).2
    obtain ⟨hlt, heq, -⟩ := List.findIdx?_eq_some_iff_getElem.mp hi
    have hcomps : cs.entries[i].components = k.components := (psirpNameEqual_iff.mp heq).2
    refine ⟨hb, ⟨overwrite x f now cs.entries[i], ?_, hcomps, rfl⟩, fun e he hne => ?_⟩
    · refine List.mem_of_getElem? (i := i) ?_
      rw [List.getElem?_modify_eq, List.getElem?_eq_getElem hlt]
      rfl
    · obtain ⟨j, hj⟩ := List.mem_iff_getElem?.mp he
      refine List.mem_of_getElem? (i := j) ?_
      have hij : i ≠ j := by
        rintro rfl
        obtain rfl := Option.some.inj ((List.getElem?_eq_getElem hlt).symm.trans hj)
        exact hne hcomps
      exact (List.getElem?_modify_ne _ _ hij).trans hj
  · obtain rfl := (Prod.mk.inj (hs.symm.trans h)).2
    refine ⟨hb, ⟨newEntry k x f now, ?_, ?_, rfl⟩, fun e he _ => ?_⟩
    · exact List.mem_append_right _ (List.mem_singleton_self _)
    · change (entryName k).components = k.components
      rw [hk.entryName_eq]
    · exact List.mem_append_left _ he

theorem FirstChunk.store {i : Nat} {cs cs' : PsirpCs} {now : UInt64} (h : FirstChunk n d i cs)
    (hk : Derived (chunkName n i) (chunkComponents n i))
    (hok : psirpCsStore cs (chunkName n i) (chunkOf d i) f now = (true, cs')) :
    FirstChunk n d (i + 1) cs' := by
  obtain ⟨hb, ⟨e, he, hcomps, hdata⟩, hkeep⟩ := entries_of_psirpCsStore h.maxBytes_eq hk.parsed hok
  rw [hk.components_eq] at hcomps hkeep
  refine ⟨hb, fun _ => ?_⟩
  rcases Nat.eq_zero_or_pos i with rfl | hpos
  · exact ⟨e, he, hcomps, hdata⟩
  · obtain ⟨e₀, he₀, hcomps₀, hdata₀⟩ := h.stored hpos
    refine ⟨e₀, hkeep e₀ he₀ ?_, hcomps₀, hdata₀⟩
    rw [hcomps₀]
    exact (chunkComponents_injective n).ne (Nat.ne_of_lt hpos)

/-- Under up to fourteen components, the derived names are as intended. -/
theorem derived_of_shallow (hn : Parsed n) (hv : n.hasVersion = false) (hshallow : Shallow n) :
    (∀ i < 10 ^ 20, Derived (chunkName n i) (chunkComponents n i)) ∧
      Derived (manifestName n) (manifestComponents n) := by
  have hpath := hn.pathComponent hv
  refine ⟨fun i hi => ?_, ?_⟩
  · rw [chunkName_eq hv hpath hshallow hi]
    exact ⟨PlainKey.parsed _, PlainKey.hasVersion_name _, PlainKey.components_name _⟩
  · rw [manifestName_eq hv hpath hshallow]
    exact ⟨PlainKey.parsed _, PlainKey.hasVersion_name _, PlainKey.components_name _⟩

/-- Storing large data leaves an entry with a full chunk. -/
theorem exists_full_chunk {malloc : Heap.Allocator UInt64 CString} {heap : StringHeap}
    {now : Nat → UInt64} {s : ChunkState} (hn : Parsed n) (hv : n.hasVersion = false)
    (hshallow : Shallow n) (hlarge : psirpChunkSize < d.length) (hmax : d.length ≤ psirpMaxData)
    (h : psirpCsStoreChunked malloc ⟨psirpCsInit, heap⟩ n d f now = (true, s)) :
    ∃ e ∈ s.cs.entries, e.data.length = psirpChunkSize := by
  obtain ⟨hchunk, hmanifest⟩ := derived_of_shallow hn hv hshallow
  have hstep : ∀ i cs cs', FirstChunk n d i cs → psirpChunkSize * i < d.length →
      psirpCsStore cs (chunkName n i) (chunkOf d i) f (now i) = (true, cs') →
      FirstChunk n d (i + 1) cs' := by
    intro i cs cs' hcs hi hok
    refine hcs.store (hchunk i ?_) hok
    simp only [psirpChunkSize, psirpMaxData] at hi hmax
    omega
  have hinit : FirstChunk n d 0 psirpCsInit := ⟨rfl, fun h => absurd h (Nat.lt_irrefl 0)⟩
  obtain ⟨refs, cs, hcount, hcs, hok, -⟩ := psirpCsStoreChunked_rule hstep hlarge hinit h
  have hpos : 0 < refs.length := by
    rw [hcount, chunkCount]
    simp only [psirpMaxChunks, psirpMaxData, psirpChunkSize] at hlarge ⊢
    omega
  -- the manifest goes under a name of its own
  obtain ⟨-, -, hkeep⟩ := entries_of_psirpCsStore hcs.maxBytes_eq hmanifest.parsed hok
  obtain ⟨e, he, hcomps, hdata⟩ := hcs.stored hpos
  rw [hmanifest.components_eq] at hkeep
  refine ⟨e, hkeep e he ?_, ?_⟩
  · rw [hcomps]
    exact chunkComponents_ne_manifestComponents n n 0 rfl
  · rw [hdata, length_block, Nat.mul_zero, Nat.sub_zero, Nat.min_eq_left hlarge.le]

/-- Storing small data leaves the one entry. -/
theorem entries_of_small {malloc : Heap.Allocator UInt64 CString} {heap : StringHeap}
    {now : Nat → UInt64} {s : ChunkState} (hsmall : d.length ≤ psirpChunkSize)
    (h : psirpCsStoreChunked malloc ⟨psirpCsInit, heap⟩ n d f now = (true, s)) :
    s.cs.entries = [newEntry n d f (now 0)] := by
  rw [psirpCsStoreChunked, if_pos hsmall] at h
  have hok : (psirpCsStore psirpCsInit n d f (now 0)).1 = true := congrArg Prod.fst h
  have hstate : (psirpCsStore psirpCsInit n d f (now 0)).2 = s.cs :=
    congrArg (fun r => r.2.cs) h
  rcases psirpCsStore_cases_of_unlimited (rfl : psirpCsInit.maxBytes = 0) n d f (now 0) with
    ⟨hs, -⟩ | ⟨-, i, b, hi, -⟩ | ⟨-, -, -, b, hs⟩
  · rw [hs] at hok
    cases hok
  · cases hi
  · rw [← hstate, hs]
    rfl

/-- **What a chunked store leaves can be sent exactly when** it was stored in one piece, short
enough for a datagram. -/
theorem storedFit_iff {malloc : Heap.Allocator UInt64 CString} {heap : StringHeap}
    {now : Nat → UInt64} {s : ChunkState} (hn : Parsed n) (hv : n.hasVersion = false)
    (hshallow : Shallow n) (hmax : d.length ≤ psirpMaxData)
    (h : psirpCsStoreChunked malloc ⟨psirpCsInit, heap⟩ n d f now = (true, s)) :
    (∀ e ∈ s.cs.entries, FitsDatagram (replyOf e)) ↔
      18 + (pathOf n.components).length + d.length ≤ udpMaxPayload := by
  rcases Nat.lt_or_ge psirpChunkSize d.length with hlarge | hsmall
  · obtain ⟨e, he, hfull⟩ := exists_full_chunk hn hv hshallow hlarge hmax h
    refine iff_of_false (fun hall => not_fitsDatagram_chunk hfull (hall e he)) ?_
    simp only [psirpChunkSize, udpMaxPayload] at hlarge ⊢
    omega
  · have hcomps : (entryName n).components = n.components := by rw [hn.entryName_eq]
    have hbyte : ∀ c ∈ (entryName n).components, c.length < 256 := by
      rw [hcomps]
      exact fun c hc => (hn.wellFormed.plain c hc).length_lt.trans (by decide)
    rw [entries_of_small hsmall h, List.forall_mem_singleton, fitsDatagram_iff hbyte]
    change 18 + (pathOf (entryName n).components).length + d.length ≤ _ ↔ _
    rw [hcomps]

/-- Two chunks stored under `/a` cannot be sent. -/
theorem storedFit_iff_a : ∃ s,
    psirpCsStoreChunked Heap.countUp ⟨psirpCsInit, []⟩ keyA.name twoChunks 0 (fun _ => 0) =
        (true, s) ∧
      ¬ ∀ e ∈ s.cs.entries, FitsDatagram (replyOf e) := by
  have hlen := length_twoChunks
  have hmax : psirpChunkSize + 1 ≤ psirpMaxData := by decide
  have hmore : udpMaxPayload < psirpChunkSize + 1 := by decide
  have hlarge : psirpChunkSize < twoChunks.length := by omega
  obtain ⟨s, hs⟩ := storeChunked_large_init keyA.parsed keyA.hasVersion_name hlarge
  refine ⟨s, hs, fun hall => ?_⟩
  have hshort := (storedFit_iff keyA.parsed keyA.hasVersion_name (by rw [Shallow]; decide)
    (by omega) hs).mp hall
  omega

/-- 65536 bytes are stored under `/a` in one piece, which no datagram holds. -/
theorem not_storedFit_a :
    ∃ s, psirpCsStoreChunked Heap.countUp ⟨psirpCsInit, []⟩ keyA.name
        (List.replicate psirpChunkSize 0) 0 (fun _ => 0) = (true, s) ∧
      ¬ ∀ e ∈ s.cs.entries, FitsDatagram (replyOf e) := by
  have hlen : (List.replicate psirpChunkSize (0 : UInt8)).length = psirpChunkSize :=
    List.length_replicate
  have hne : List.replicate psirpChunkSize (0 : UInt8) ≠ [] := by
    rw [← List.length_pos_iff, hlen]
    decide
  obtain ⟨cs, -, hs⟩ := psirpCsStoreChunked_small_init [] keyA.name 0 (fun _ => 0) hne hlen.le
  refine ⟨⟨cs, []⟩, hs, fun hall => ?_⟩
  rw [entries_of_small hlen.le hs] at hall
  exact not_fitsDatagram_chunk hlen (hall _ (List.mem_singleton_self _))

end DsoBrowser

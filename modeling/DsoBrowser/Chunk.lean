import DsoBrowser.Name
import DsoBrowser.ContentStore
import DsoBrowser.Lib.ByteOrder
import DsoBrowser.Lib.Heap

/-!
# Chunked content

`psirp_cs_store_chunked` and `psirp_cs_lookup_chunked` of `psirp.c`. Data of more than
`PSIRP_CHUNK_SIZE` bytes is stored in chunks under `<name>/chunk/<i>`, with a manifest under
`<name>/chunks` that lists the chunk names.

The manifest is stored as its **bytes in memory**, and in memory a name is an array of
addresses. So a manifest read back leads to its chunk names through the heap of the process, and
that is how it is modelled: `psirp_manifest` has the layout of a 64-bit little-endian machine, the
heap holds the component strings the manifests point to, and the allocator that placed them is a
parameter. Other allocations are taken to succeed and are not kept track of.

A lookup by a name in memory (`rawLookupIndex`) dereferences its addresses as `strcmp` gets to
them. `none` stands for an access outside the heap or the manifest, which C leaves undefined.
-/

namespace DsoBrowser

open ByteOrder Heap

/-- The component strings in memory. -/
abbrev StringHeap : Type := List (UInt64 × CString)

/-! ## Names and manifests in memory -/

/-- `psirp_name` in memory -/
structure RawName where
  /-- `components`, as addresses -/
  ptrs : List UInt64
  /-- the array has its size -/
  length_ptrs : ptrs.length = psirpMaxComponents
  /-- `count` -/
  count : UInt64
  /-- `hash` -/
  hash : UInt64
  /-- `version` -/
  version : UInt64
  /-- `has_version` -/
  hasVersion : Bool

/-- `psirp_chunk_ref` -/
structure PsirpChunkRef where
  /-- chunk name -/
  name : RawName
  /-- chunk length -/
  len : UInt64

/-- The size of the `chunks` array. -/
def psirpMaxChunks : Nat := psirpMaxData / psirpChunkSize + 2

/-- `psirp_manifest` -/
structure PsirpManifest where
  /-- reassembled length -/
  totalLen : UInt64
  /-- number of slots in use -/
  chunkCount : UInt64
  /-- the slots -/
  chunks : List PsirpChunkRef
  /-- the array has its size -/
  length_chunks : chunks.length = psirpMaxChunks

/-- `sizeof(psirp_manifest)` -/
def sizeofManifest : Nat := 3040

/-- The bytes of a name: after the flag come seven bytes of padding, which `memset` cleared. -/
def RawName.bytes (r : RawName) : List UInt8 :=
  r.ptrs.flatMap u64Bytes ++ (u64Bytes r.count ++ (u64Bytes r.hash ++ (u64Bytes r.version ++
    (if r.hasVersion then 1 else 0) :: List.replicate 7 0)))

/-- Read a name. -/
def readName (bs : List UInt8) : RawName × List UInt8 :=
  let ptrs := readList readU64 psirpMaxComponents bs
  let count := readU64 ptrs.2
  let hash := readU64 count.2
  let version := readU64 hash.2
  (⟨ptrs.1, length_readList _ _ _, count.1, hash.1, version.1,
    decide (version.2.head?.getD 0 ≠ 0)⟩, version.2.drop 8)

/-- The bytes of a chunk reference. -/
def PsirpChunkRef.bytes (ref : PsirpChunkRef) : List UInt8 := ref.name.bytes ++ u64Bytes ref.len

/-- Read a chunk reference. -/
def readChunkRef (bs : List UInt8) : PsirpChunkRef × List UInt8 :=
  let name := readName bs
  let len := readU64 name.2
  (⟨name.1, len.1⟩, len.2)

/-- `memcpy(mbuf, &m, sizeof(m))` -/
def PsirpManifest.bytes (m : PsirpManifest) : List UInt8 :=
  u64Bytes m.totalLen ++ (u64Bytes m.chunkCount ++ m.chunks.flatMap PsirpChunkRef.bytes)

/-- `memcpy(&m, me->data, sizeof(m))` -/
def readManifest (bs : List UInt8) : PsirpManifest :=
  let totalLen := readU64 bs
  let chunkCount := readU64 totalLen.2
  ⟨totalLen.1, chunkCount.1, (readList readChunkRef psirpMaxChunks chunkCount.2).1,
    length_readList _ _ _⟩

/-! ## Derived names -/

/-- The text `snprintf` leaves in a buffer of the given size. -/
def snprintf (size : Nat) (s : CString) : CString := s.take (size - 1)

/-- `snprintf(cname, sizeof(cname), "%s/chunk/%zu", base, ci)` -/
def chunkPath (name : PsirpName) (ci : Nat) : CString :=
  snprintf psirpMaxName (psirpNameToString name psirpMaxName ++
    (text ['/', 'c', 'h', 'u', 'n', 'k', '/'] ++ decimal ci))

/-- `snprintf(mname, sizeof(mname), "%s/chunks", base)` -/
def manifestPath (name : PsirpName) : CString :=
  snprintf psirpMaxName (psirpNameToString name psirpMaxName ++
    text ['/', 'c', 'h', 'u', 'n', 'k', 's'])

/-- The name of the `i`-th chunk. -/
def chunkName (name : PsirpName) (i : Nat) : PsirpName := (psirpNameInit (chunkPath name i)).2

/-- The name of the manifest. -/
def manifestName (name : PsirpName) : PsirpName := (psirpNameInit (manifestPath name)).2

/-! ## Storing -/

/-- The content store of a process and the strings its manifests point to. -/
structure ChunkState where
  /-- the content store -/
  cs : PsirpCs
  /-- the strings -/
  heap : StringHeap

/-- A name in memory whose component strings are at the given addresses. -/
def RawName.of (name : PsirpName) (ptrs : List UInt64) : RawName where
  ptrs := (ptrs ++ List.replicate psirpMaxComponents 0).take psirpMaxComponents
  length_ptrs := by simp
  count := UInt64.ofNat name.components.length
  hash := name.hash
  version := name.version
  hasVersion := name.hasVersion

/-- The addresses of the components of a name, which the last loop of `psirp_cs_store_chunked`
frees. -/
def RawName.owned (r : RawName) : List UInt64 := r.ptrs.take r.count.toNat

/-- `psirp_name_init`, with the strings it allocates. -/
def nameInitOwned (malloc : Allocator UInt64 CString) (heap : StringHeap) (path : CString) :
    Option (PsirpName × RawName × StringHeap) :=
  match psirpNameInit path with
  | (false, _) => none
  | (true, name) =>
    (allocAll malloc name.components heap).map fun (ptrs, heap) =>
      (name, RawName.of name ptrs, heap)

/-- The chunk loop of `psirp_cs_store_chunked`: `rest` is what is left of the data, `refs` are the
slots filled so far, and `slots` is the number of slots left. The `i`-th call of
`psirp_cs_store` reads the clock as `now i`. -/
def storeChunksLoop (malloc : Allocator UInt64 CString) (name : PsirpName) (freshnessMs : UInt32)
    (now : Nat → UInt64) : (slots : Nat) → (rest : List UInt8) → List PsirpChunkRef → ChunkState →
    Bool × List PsirpChunkRef × ChunkState
  | 0, _, refs, s => (true, refs, s)
  | slots + 1, rest, refs, s =>
    if rest = [] then (true, refs, s)
    else
      match nameInitOwned malloc s.heap (chunkPath name refs.length) with
      | none => (false, refs, s)
      | some (cn, raw, heap) =>
        match psirpCsStore s.cs cn (rest.take psirpChunkSize) freshnessMs (now refs.length) with
        | (false, cs) => (false, refs, ⟨cs, heap⟩)
        | (true, cs) =>
          storeChunksLoop malloc name freshnessMs now slots (rest.drop psirpChunkSize)
            (refs ++ [⟨raw, UInt64.ofNat (rest.take psirpChunkSize).length⟩]) ⟨cs, heap⟩

/-- A slot after `memset(&m, 0, sizeof(m))`. -/
def PsirpChunkRef.zero : PsirpChunkRef := ⟨RawName.of PsirpName.zero [], 0⟩

/-- The manifest of `data_len` bytes in the given chunks. -/
def PsirpManifest.of (dataLen : Nat) (refs : List PsirpChunkRef) : PsirpManifest where
  totalLen := UInt64.ofNat dataLen
  chunkCount := UInt64.ofNat refs.length
  chunks := (refs ++ List.replicate psirpMaxChunks PsirpChunkRef.zero).take psirpMaxChunks
  length_chunks := by simp

/-- `psirp_cs_store_chunked` -/
def psirpCsStoreChunked (malloc : Allocator UInt64 CString) (s : ChunkState) (name : PsirpName)
    (data : List UInt8) (freshnessMs : UInt32) (now : Nat → UInt64) : Bool × ChunkState :=
  if data.length ≤ psirpChunkSize then
    let (ok, cs) := psirpCsStore s.cs name data freshnessMs (now 0)
    (ok, { s with cs := cs })
  else
    match storeChunksLoop malloc name freshnessMs now psirpMaxChunks data [] s with
    | (false, _, s) => (false, s)
    | (true, refs, s) =>
      match psirpNameInit (manifestPath name) with
      | (false, _) => (false, s)
      | (true, mn) =>
        match psirpCsStore s.cs mn (PsirpManifest.of data.length refs).bytes freshnessMs
          (now refs.length) with
        | (true, cs) => (true, { s with cs := cs })
        | (false, cs) =>
          (false, ⟨cs, freeAll (refs.flatMap fun ref => ref.name.owned) s.heap⟩)

/-! ## Looking up -/

/-- The `strcmp` loop of the name comparisons, against a name in memory. -/
def rawComponentsEqual (heap : StringHeap) : List CString → List UInt64 → Option Bool
  | [], _ => some true
  | _ :: _, [] => none
  | c :: cs, p :: ps =>
    match read heap p with
    | none => none
    | some s => if c = s then rawComponentsEqual heap cs ps else some false

/-- `name_base_equal` against a name in memory -/
def rawBaseEqual (heap : StringHeap) (e : PsirpName) (r : RawName) : Option Bool :=
  if UInt64.ofNat e.components.length ≠ r.count then some false
  else rawComponentsEqual heap e.components r.ptrs

/-- `psirp_name_equal` against a name in memory -/
def rawNameEqual (heap : StringHeap) (e : PsirpName) (r : RawName) : Option Bool :=
  if UInt64.ofNat e.components.length ≠ r.count then some false
  else if e.hash ≠ r.hash then some false
  else rawComponentsEqual heap e.components r.ptrs

/-- The versioned scan of `psirp_cs_lookup` -/
def rawFindExact (heap : StringHeap) (r : RawName) (now : UInt64) :
    List PsirpCsEntry → Option (Option Nat)
  | [] => some none
  | e :: es =>
    if entryExpired e now then (rawFindExact heap r now es).map (Option.map (· + 1))
    else
      match rawNameEqual heap e.name r with
      | none => none
      | some true => some (some 0)
      | some false => (rawFindExact heap r now es).map (Option.map (· + 1))

/-- The unversioned scan -/
def rawFindNewest (heap : StringHeap) (r : RawName) (now : UInt64) :
    List PsirpCsEntry → Nat → Option (Nat × UInt64) → Option (Option Nat)
  | [], _, best => some (best.map Prod.fst)
  | e :: es, i, best =>
    if entryExpired e now then rawFindNewest heap r now es (i + 1) best
    else
      match rawBaseEqual heap e.name r with
      | none => none
      | some eq =>
        if eq && best.all fun b => b.2 < e.name.version then
          rawFindNewest heap r now es (i + 1) (some (i, e.name.version))
        else rawFindNewest heap r now es (i + 1) best

/-- The entry `psirp_cs_lookup` chooses for a name in memory. -/
def rawLookupIndex (heap : StringHeap) (es : List PsirpCsEntry) (r : RawName) (now : UInt64) :
    Option (Option Nat) :=
  if r.hasVersion then rawFindExact heap r now es else rawFindNewest heap r now es 0 none

/-- The reassembly loop of `psirp_cs_lookup_chunked`, over the slots from `i` on; `out` is what is
written to the buffer so far. -/
def reassembleLoop (heap : StringHeap) (refs : List PsirpChunkRef) (now : Nat → UInt64) :
    (left : Nat) → (i : Nat) → PsirpCs → List UInt8 → Option (Bool × List UInt8 × PsirpCs)
  | 0, _, cs, out => some (true, out, cs)
  | left + 1, i, cs, out =>
    match refs[i]? with
    | none => none
    | some ref =>
      match rawLookupIndex heap cs.entries ref.name (now i) with
      | none => none
      | some none => some (false, out, cs)
      | some (some j) =>
        match cs.entries[j]? with
        | none => none
        | some ce =>
          reassembleLoop heap refs now left (i + 1)
            { cs with entries := cs.entries.modify j (touch (now i)) } (out ++ ce.data)

/-- What `psirp_cs_lookup_chunked` returns and leaves behind. -/
structure ChunkAnswer where
  /-- the verdict -/
  ok : Bool
  /-- the bytes written to `out_buf` -/
  out : List UInt8
  /-- `*out_len`, if it is set -/
  outLen : Option Nat
  deriving DecidableEq

/-- A plain `return false`. -/
def ChunkAnswer.failure : ChunkAnswer := ⟨false, [], none⟩

/-- `psirp_cs_lookup_chunked`. The lookups of the names themselves read the clock as `direct 0` and
`direct 1`, that of the `i`-th chunk as `now i`. -/
def psirpCsLookupChunked (s : ChunkState) (name : PsirpName) (outCap : Nat)
    (direct now : Nat → UInt64) : Option (ChunkAnswer × PsirpCs) :=
  match psirpNameInit (manifestPath name) with
  | (false, _) => some (.failure, s.cs)
  | (true, mn) =>
    let cs := (psirpCsLookup s.cs mn (direct 0)).2
    match lookupEntry s.cs mn (direct 0) with
    | none =>
      let cs' := (psirpCsLookup cs name (direct 1)).2
      match lookupEntry cs name (direct 1) with
      | none => some (.failure, cs')
      | some e =>
        if e.data.length ≤ outCap then some (⟨true, e.data, some e.data.length⟩, cs')
        else some (.failure, cs')
    | some me =>
      if me.data.length ≠ sizeofManifest then some (.failure, cs)
      else
        let m := readManifest me.data
        if outCap < m.totalLen.toNat then some (.failure, cs)
        else
          match reassembleLoop s.heap m.chunks now m.chunkCount.toNat 0 cs [] with
          | none => none
          | some (false, out, cs) => some (⟨false, out, none⟩, cs)
          | some (true, out, cs) =>
            some (⟨decide (out.length = m.totalLen.toNat), out, some out.length⟩, cs)

end DsoBrowser

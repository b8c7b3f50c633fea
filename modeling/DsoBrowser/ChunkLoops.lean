import DsoBrowser.ChunkMemory
import DsoBrowser.Lib.Blocks

/-!
# The loops of the chunked store

Rules for the two loops, and for the functions around them, that unfold them once and for all:

* `psirpCsStoreChunked_rule` — the **rule of the writer**: what the stores of the chunks and then
  of the manifest take along holds when it succeeds;
* `psirpCsStoreChunked_succeeds` — where all names parse and there is room, it does succeed;
* `reassembleLoop_pieces`, `reassembleLoop_reads` — what the reader writes, and that it reads what
  its lookups find;
* `psirpCsLookupChunked_cases` — what a call of the reader does, case by case, and so where its
  answer comes from (`psirpCsLookupChunked_eq_true`);
* `psirpCsStoreChunked_keeps`, `psirpCsLookupChunked_keeps` — what every store, or the bookkeeping,
  keeps, the chunked calls keep.
-/

namespace DsoBrowser

open Heap Blocks

/-! ## The writer -/

theorem length_concat {α : Type*} (l : List α) (a : α) : (l ++ [a]).length = l.length + 1 := by
  rw [List.length_append, List.length_singleton]

/-- The `i`-th chunk of the data. -/
abbrev chunkOf (data : List UInt8) (i : Nat) : List UInt8 := block psirpChunkSize data i

/-- The number of chunks the data is cut into. -/
def chunkCount (data : List UInt8) : Nat := (data.length + psirpChunkSize - 1) / psirpChunkSize

theorem length_le_chunkCount (data : List UInt8) :
    data.length ≤ psirpChunkSize * chunkCount data := by
  rw [chunkCount]
  simp only [psirpChunkSize]
  omega

theorem chunkCount_le {data : List UInt8} (hmax : data.length ≤ psirpMaxChunks * psirpChunkSize) :
    chunkCount data ≤ psirpMaxChunks := by
  rw [chunkCount]
  simp only [psirpMaxChunks, psirpMaxData, psirpChunkSize] at hmax ⊢
  omega

/-- Every chunk can be stored. -/
theorem storable_chunkOf {data : List UInt8} {i : Nat} (hi : psirpChunkSize * i < data.length) :
    Storable (chunkOf data i) := by
  have hlen := length_block psirpChunkSize data i
  rw [Storable, chunkOf]
  simp only [psirpChunkSize, psirpMaxData] at hi hlen ⊢
  omega

theorem psirpNameInit_manifestName {name : PsirpName}
    (h : (psirpNameInit (manifestPath name)).1 = true) :
    psirpNameInit (manifestPath name) = (true, manifestName name) := Prod.ext h rfl

/-- Every slot filled refers to the name of its chunk. -/
def RefsRefer (heap : StringHeap) (name : PsirpName) (refs : List PsirpChunkRef) : Prop :=
  ∀ i ref, refs[i]? = some ref → Refers heap ref.name (chunkName name i)

theorem RefsRefer.concat {heap heap' : StringHeap} {name : PsirpName} {refs : List PsirpChunkRef}
    (h : RefsRefer heap name refs) (hext : Extends heap heap') {ref : PsirpChunkRef}
    (href : Refers heap' ref.name (chunkName name refs.length)) :
    RefsRefer heap' name (refs ++ [ref]) := by
  intro i ref' hi
  rcases Nat.lt_or_ge i refs.length with hlt | hge
  · rw [List.getElem?_append_left hlt] at hi
    exact (h i ref' hi).mono hext
  · rw [List.getElem?_append_right hge] at hi
    obtain ⟨hlt, rfl⟩ := List.getElem?_eq_some_iff.mp hi
    obtain rfl : i = refs.length := by
      rw [List.length_singleton] at hlt
      omega
    simpa using href

theorem nameInitOwned_eq_some {malloc : Allocator UInt64 CString} {heap heap' : StringHeap}
    {path : CString} {n : PsirpName} {raw : RawName}
    (h : nameInitOwned malloc heap path = some (n, raw, heap')) :
    n = (psirpNameInit path).2 ∧ Extends heap heap' ∧ Refers heap' raw n := by
  simp only [nameInitOwned] at h
  split at h
  · simp at h
  · rename_i name hname
    obtain ⟨⟨ptrs, heap₁⟩, hal, heq⟩ := Option.map_eq_some_iff.mp h
    obtain ⟨hext, hholds⟩ := holds_of_allocAll hal
    cases heq
    exact ⟨by rw [hname], hext, refers_of hholds⟩

/-- As long as there is memory for its strings, the name of a chunk can be allocated. -/
theorem nameInitOwned_of_supplies {malloc : Allocator UInt64 CString} {name : PsirpName} {i n : Nat}
    (hname : (psirpNameInit (chunkPath name i)).1 = true) {heap : StringHeap}
    (hs : Supplies malloc (psirpMaxComponents + n) heap) :
    ∃ raw heap', nameInitOwned malloc heap (chunkPath name i) =
      some (chunkName name i, raw, heap') ∧ Supplies malloc n heap' := by
  have hle := (chunkName name i).count_le
  obtain ⟨ptrs, heap', hal, hs'⟩ :=
    allocAll_of_supplies (hs.mono (Nat.add_le_add_right hle n))
  have hpair : psirpNameInit (chunkPath name i) = (true, chunkName name i) := Prod.ext hname rfl
  refine ⟨RawName.of (chunkName name i) ptrs, heap', ?_, hs'⟩
  rw [nameInitOwned, hpair]
  simp only [hal, Option.map_some]

/-- The heap with the names of the first `k` chunks in it, where they parse and there is memory. -/
def heapAfterNames (malloc : Allocator UInt64 CString) (name : PsirpName) (heap : StringHeap) :
    Nat → Option StringHeap
  | 0 => some heap
  | k + 1 => (heapAfterNames malloc name heap k).bind fun heap =>
    (nameInitOwned malloc heap (chunkPath name k)).map fun r => r.2.2

/-- The name of one more chunk. -/
theorem heapAfterNames_succ {malloc : Allocator UInt64 CString} {name : PsirpName}
    {heap heap' : StringHeap} {k : Nat} (h : heapAfterNames malloc name heap (k + 1) = some heap') :
    ∃ heap₁ raw, heapAfterNames malloc name heap k = some heap₁ ∧
      nameInitOwned malloc heap₁ (chunkPath name k) = some (chunkName name k, raw, heap') := by
  obtain ⟨heap₁, hbefore, hlast⟩ := Option.bind_eq_some_iff.mp h
  obtain ⟨⟨n, raw, heap₂⟩, hname, rfl⟩ := Option.map_eq_some_iff.mp hlast
  obtain ⟨rfl, -⟩ := nameInitOwned_eq_some hname
  exact ⟨heap₁, raw, hbefore, hname⟩

theorem heapAfterNames_of_supplies {malloc : Allocator UInt64 CString} {name : PsirpName}
    {heap : StringHeap} : ∀ {k : Nat} (n : Nat),
      (∀ i < k, (psirpNameInit (chunkPath name i)).1 = true) →
      Supplies malloc (psirpMaxComponents * k + n) heap →
      ∃ heap', heapAfterNames malloc name heap k = some heap' ∧ Supplies malloc n heap' := by
  intro k
  induction k with
  | zero =>
    intro n _ hs
    rw [Nat.mul_zero, Nat.zero_add] at hs
    exact ⟨heap, rfl, hs⟩
  | succ k ih =>
    intro n hname hs
    rw [Nat.mul_succ, Nat.add_assoc] at hs
    obtain ⟨heap₁, hbefore, hs₁⟩ := ih _ (fun i hi => hname i (Nat.lt_succ_of_lt hi)) hs
    obtain ⟨raw, heap', howned, hs'⟩ := nameInitOwned_of_supplies (hname k (Nat.lt_succ_self k)) hs₁
    exact ⟨heap', by rw [heapAfterNames, hbefore, Option.bind_some, howned, Option.map_some], hs'⟩

section Writer

variable {malloc : Allocator UInt64 CString} {name : PsirpName} {f : UInt32} {now : Nat → UInt64}
  {data : List UInt8} {I : Nat → PsirpCs → Prop}

/-- A round that stores its chunk. -/
theorem storeChunksLoop_stored {slots : Nat} {rest : List UInt8} {refs : List PsirpChunkRef}
    {s : ChunkState} {n : PsirpName} {raw : RawName} {heap : StringHeap} {cs : PsirpCs}
    (hrest : rest ≠ [])
    (hname : nameInitOwned malloc s.heap (chunkPath name refs.length) = some (n, raw, heap))
    (hstore : psirpCsStore s.cs n (rest.take psirpChunkSize) f (now refs.length) = (true, cs)) :
    storeChunksLoop malloc name f now (slots + 1) rest refs s =
      storeChunksLoop malloc name f now slots (rest.drop psirpChunkSize)
        (refs ++ [⟨raw, UInt64.ofNat (rest.take psirpChunkSize).length⟩]) ⟨cs, heap⟩ := by
  rw [storeChunksLoop, if_neg hrest, hname]
  dsimp only
  rw [hstore]

/-- A round whose chunk is refused. -/
theorem storeChunksLoop_refused {slots : Nat} {rest : List UInt8} {refs : List PsirpChunkRef}
    {s : ChunkState} (hrest : rest ≠ [])
    (hstore : psirpCsStore s.cs (chunkName name refs.length) (rest.take psirpChunkSize) f
      (now refs.length) = (false, s.cs)) :
    ∃ heap, storeChunksLoop malloc name f now (slots + 1) rest refs s =
      (false, refs, ⟨s.cs, heap⟩) := by
  rw [storeChunksLoop, if_neg hrest]
  cases hname : nameInitOwned malloc s.heap (chunkPath name refs.length) with
  | none => exact ⟨s.heap, rfl⟩
  | some r =>
    obtain ⟨n, raw, heap⟩ := r
    obtain ⟨rfl, -⟩ := nameInitOwned_eq_some hname
    rw [chunkName] at hstore
    dsimp only
    rw [hstore]
    exact ⟨heap, rfl⟩

/-- **Loop rule of the writer.** If `I` holds before the loop and every successful store of a
chunk takes it from `I i` to `I (i + 1)`, then a loop that succeeds ends in `I k` for the number
`k` of slots filled, which refer to the chunk names. -/
theorem storeChunksLoop_rule
    (hstep : ∀ i cs cs', I i cs → psirpChunkSize * i < data.length →
      psirpCsStore cs (chunkName name i) (chunkOf data i) f (now i) = (true, cs') → I (i + 1) cs') :
    ∀ (slots : Nat) (refs refs' : List PsirpChunkRef) (s s' : ChunkState),
      storeChunksLoop malloc name f now slots (data.drop (psirpChunkSize * refs.length)) refs s =
        (true, refs', s') →
      I refs.length s.cs → RefsRefer s.heap name refs →
      psirpChunkSize * refs.length < data.length + psirpChunkSize →
      I refs'.length s'.cs ∧ RefsRefer s'.heap name refs' ∧ Extends s.heap s'.heap ∧
        refs'.length ≤ refs.length + slots ∧
        psirpChunkSize * refs'.length < data.length + psirpChunkSize ∧
        (refs'.length = refs.length + slots ∨ data.length ≤ psirpChunkSize * refs'.length) := by
  intro slots
  induction slots with
  | zero =>
    intro refs refs' s s' h hI href hlen
    obtain ⟨rfl, rfl⟩ : refs = refs' ∧ s = s' := by simpa [storeChunksLoop] using h
    exact ⟨hI, href, Extends.refl _, by omega, hlen, Or.inl rfl⟩
  | succ slots ih =>
    intro refs refs' s s' h hI href hlen
    simp only [storeChunksLoop] at h
    split at h
    · -- all the data is stored
      rename_i hrest
      obtain ⟨rfl, rfl⟩ : refs = refs' ∧ s = s' := by simpa using h
      have hdone := List.drop_eq_nil_iff.mp hrest
      exact ⟨hI, href, Extends.refl _, by omega, hlen, Or.inr hdone⟩
    · rename_i hrest
      have hmore : psirpChunkSize * refs.length < data.length := by
        rw [List.drop_eq_nil_iff] at hrest
        omega
      split at h
      · simp at h
      · rename_i cn raw heap hname
        obtain ⟨rfl, hext, hraw⟩ := nameInitOwned_eq_some hname
        split at h
        · simp at h
        · -- one more chunk is stored, and its slot refers to its name
          rename_i cs hstore
          rw [List.drop_drop, ← Nat.mul_add_one, ← length_concat refs] at h
          have hnext := ih _ refs' ⟨cs, heap⟩ s' h
            (by rw [length_concat]; exact hstep _ _ _ hI hmore hstore) (href.concat hext hraw)
            (by rw [length_concat, Nat.mul_succ]; omega)
          rw [length_concat] at hnext
          obtain ⟨hI', href', hext', hle, hlt, hend⟩ := hnext
          exact ⟨hI', href', hext.trans hext', by omega, hlt, hend.imp (by omega) id⟩

/-- **The first `k` rounds**, where the names of the chunks parse, their stores succeed and there is
memory. -/
theorem storeChunksLoop_rounds {s : ChunkState} (hinit : I 0 s.cs) :
    ∀ {k : Nat} (slots : Nat) {heap : StringHeap},
    (∀ i < k, psirpChunkSize * i < data.length) →
    (∀ i < k, ∀ cs, I i cs → ∃ cs',
      psirpCsStore cs (chunkName name i) (chunkOf data i) f (now i) = (true, cs') ∧ I (i + 1) cs') →
    heapAfterNames malloc name s.heap k = some heap →
    ∃ refs s', refs.length = k ∧ I k s'.cs ∧ s'.heap = heap ∧
      storeChunksLoop malloc name f now (k + slots) data [] s =
        storeChunksLoop malloc name f now slots (data.drop (psirpChunkSize * k)) refs s' := by
  intro k
  induction k with
  | zero =>
    intro slots heap _ _ hs
    exact ⟨[], s, rfl, hinit, Option.some.inj hs,
      by rw [Nat.zero_add, Nat.mul_zero, List.drop_zero]⟩
  | succ k ih =>
    intro slots heap hmore hstep hs
    obtain ⟨heap₁, raw, hbefore, howned⟩ := heapAfterNames_succ hs
    obtain ⟨refs, s₁, rfl, hI, rfl, hloop⟩ := ih (slots + 1)
      (fun i hi => hmore i (Nat.lt_succ_of_lt hi)) (fun i hi => hstep i (Nat.lt_succ_of_lt hi))
      hbefore
    have hlast := Nat.lt_succ_self refs.length
    have hrest : data.drop (psirpChunkSize * refs.length) ≠ [] := by
      rw [ne_eq, List.drop_eq_nil_iff, Nat.not_le]
      exact hmore refs.length hlast
    obtain ⟨cs', hstore, hI'⟩ := hstep refs.length hlast s₁.cs hI
    have hround := hloop.trans (storeChunksLoop_stored hrest howned hstore)
    rw [← Nat.add_assoc, Nat.add_right_comm, List.drop_drop, ← Nat.mul_add_one] at hround
    exact ⟨_, ⟨cs', heap⟩, length_concat refs _, hI', rfl, hround⟩

/-- Where all of them succeed, the loop succeeds. -/
theorem storeChunksLoop_succeeds
    (hname : ∀ i < psirpMaxChunks, (psirpNameInit (chunkPath name i)).1 = true)
    (hstep : ∀ i cs, i < psirpMaxChunks → I i cs → psirpChunkSize * i < data.length →
      ∃ cs', psirpCsStore cs (chunkName name i) (chunkOf data i) f (now i) = (true, cs') ∧
        I (i + 1) cs') {s : ChunkState} (hinit : I 0 s.cs)
    (hs : Supplies malloc (psirpMaxComponents * psirpMaxChunks) s.heap) :
    ∃ refs s', storeChunksLoop malloc name f now psirpMaxChunks data [] s = (true, refs, s') ∧
      I refs.length s'.cs ∧ refs.length ≤ psirpMaxChunks := by
  obtain ⟨k, slots, hk, hmore, hend⟩ : ∃ k slots, k + slots = psirpMaxChunks ∧
      (∀ i < k, psirpChunkSize * i < data.length) ∧
        (slots = 0 ∨ data.length ≤ psirpChunkSize * k) := by
    refine ⟨min psirpMaxChunks (chunkCount data), psirpMaxChunks - chunkCount data, by omega,
      ?_, ?_⟩
    · intro i hi
      rw [chunkCount] at hi
      simp only [psirpChunkSize] at hi ⊢
      omega
    · rcases Nat.le_total psirpMaxChunks (chunkCount data) with hle | hle
      · exact Or.inl (Nat.sub_eq_zero_of_le hle)
      · rw [min_eq_right hle]
        exact Or.inr (length_le_chunkCount data)
  have hle : k ≤ psirpMaxChunks := hk ▸ Nat.le_add_right k slots
  obtain ⟨heap, hheap, -⟩ := heapAfterNames_of_supplies 0
    (fun i hi => hname i (lt_of_lt_of_le hi hle))
    (hs.mono (by rw [Nat.add_zero]; exact Nat.mul_le_mul_left _ hle))
  obtain ⟨refs, s', hlen, hI, -, hloop⟩ := storeChunksLoop_rounds hinit slots hmore
    (fun i hi cs hI => hstep i cs (lt_of_lt_of_le hi hle) hI (hmore i hi)) hheap
  rw [hk] at hloop
  refine ⟨refs, s', hloop.trans ?_, hlen ▸ hI, hlen ▸ hle⟩
  rcases hend with rfl | hdone
  · rw [storeChunksLoop]
  · cases slots with
    | zero => rw [storeChunksLoop]
    | succ slots => rw [storeChunksLoop, if_pos (List.drop_eq_nil_iff.mpr hdone)]

/-- Where the loop stops half-way, so does the call. -/
theorem psirpCsStoreChunked_stopped {s s' : ChunkState} {refs : List PsirpChunkRef}
    (hlarge : psirpChunkSize < data.length)
    (hloop : storeChunksLoop malloc name f now psirpMaxChunks data [] s = (false, refs, s')) :
    psirpCsStoreChunked malloc s name data f now = (false, s') := by
  rw [psirpCsStoreChunked, if_neg (Nat.not_le.mpr hlarge), hloop]

/-- Storing more than one chunk's worth: the chunks, and the manifest after them. -/
theorem psirpCsStoreChunked_large {s s' : ChunkState} (hlarge : psirpChunkSize < data.length)
    (h : psirpCsStoreChunked malloc s name data f now = (true, s')) :
    ∃ refs cs, storeChunksLoop malloc name f now psirpMaxChunks data [] s =
        (true, refs, ⟨cs, s'.heap⟩) ∧ (psirpNameInit (manifestPath name)).1 = true ∧
      psirpCsStore cs (manifestName name) (PsirpManifest.of data.length refs).bytes f
        (now refs.length) = (true, s'.cs) := by
  rw [psirpCsStoreChunked, if_neg (by omega)] at h
  split at h
  · simp at h
  · rename_i refs s₁ hloop
    split at h
    · simp at h
    · rename_i mn hmn
      split at h
      · rename_i cs hstore
        obtain rfl : ChunkState.mk cs s₁.heap = s' := (Prod.mk.inj h).2
        refine ⟨refs, s₁.cs, hloop, by rw [hmn], ?_⟩
        rw [manifestName, hmn]
        exact hstore
      · simp at h

/-- A call that fails leaves the content store as the chunk loop left it. It gives the strings of the
slots back, or does not. -/
theorem psirpCsStoreChunked_refused {s s' : ChunkState} (hlarge : psirpChunkSize < data.length)
    (h : psirpCsStoreChunked malloc s name data f now = (false, s')) :
    ∃ ok refs s₁, storeChunksLoop malloc name f now psirpMaxChunks data [] s = (ok, refs, s₁) ∧
      s'.cs = s₁.cs ∧
      (s'.heap = s₁.heap ∨ s'.heap = freeAll (refs.flatMap fun ref => ref.name.owned) s₁.heap) := by
  rw [psirpCsStoreChunked, if_neg (Nat.not_le.mpr hlarge)] at h
  split at h
  · rename_i refs s₁ hloop
    obtain rfl : s₁ = s' := (Prod.mk.inj h).2
    exact ⟨false, refs, s₁, hloop, rfl, Or.inl rfl⟩
  · rename_i refs s₁ hloop
    split at h
    · obtain rfl : s₁ = s' := (Prod.mk.inj h).2
      exact ⟨true, refs, s₁, hloop, rfl, Or.inl rfl⟩
    · split at h
      · cases h
      · rename_i cs hstore
        obtain rfl := (Prod.mk.inj h).2
        have hrefused := psirpCsStore_of_refused (congrArg Prod.fst hstore)
        rw [hstore] at hrefused
        exact ⟨true, refs, s₁, hloop, hrefused, Or.inr rfl⟩

/-- **Rule of the writer.** If `I 0` holds and every successful store of a chunk takes it from
`I i` to `I (i + 1)`, then a large store that succeeds has stored the manifest over a state in
which `I` holds for the number of slots filled. -/
theorem psirpCsStoreChunked_rule
    (hstep : ∀ i cs cs', I i cs → psirpChunkSize * i < data.length →
      psirpCsStore cs (chunkName name i) (chunkOf data i) f (now i) = (true, cs') → I (i + 1) cs')
    {s s' : ChunkState} (hlarge : psirpChunkSize < data.length) (hinit : I 0 s.cs)
    (h : psirpCsStoreChunked malloc s name data f now = (true, s')) :
    ∃ refs cs, refs.length = min psirpMaxChunks (chunkCount data) ∧ I refs.length cs ∧
      psirpCsStore cs (manifestName name) (PsirpManifest.of data.length refs).bytes f
        (now refs.length) = (true, s'.cs) ∧
      RefsRefer s'.heap name refs ∧ Extends s.heap s'.heap := by
  obtain ⟨refs, cs, hloop, -, hmanifest⟩ := psirpCsStoreChunked_large hlarge h
  have hnone : RefsRefer s.heap name [] := fun i ref hi => by cases hi
  have hpos : psirpChunkSize * ([] : List PsirpChunkRef).length < data.length + psirpChunkSize := by
    rw [List.length_nil, Nat.mul_zero]
    omega
  obtain ⟨hI, hrefs, hext, hle, hlt, hend⟩ :=
    storeChunksLoop_rule hstep psirpMaxChunks [] refs s ⟨cs, s'.heap⟩ hloop hinit hnone hpos
  refine ⟨refs, cs, ?_, hI, hmanifest, hrefs, hext⟩
  rw [chunkCount]
  simp only [List.length_nil, psirpChunkSize, Nat.zero_add] at hle hlt hend ⊢
  omega

/-- No byte budget, and at most `i` more entries than in `cs₀`. -/
structure RoomAfter (cs₀ : PsirpCs) (i : Nat) (cs : PsirpCs) : Prop where
  /-- no budget -/
  maxBytes_eq : cs.maxBytes = 0
  /-- the table has the same size -/
  capacity_eq : cs.capacity = cs₀.capacity
  /-- the entries -/
  length_le : cs.entries.length ≤ cs₀.entries.length + i

theorem RoomAfter.store {cs₀ cs : PsirpCs} {i : Nat} (h : RoomAfter cs₀ i cs)
    (hroom : cs₀.entries.length + i < cs₀.capacity) (n : PsirpName) {d : List UInt8}
    (hd : Storable d) (f : UInt32) (now : UInt64) :
    ∃ cs', psirpCsStore cs n d f now = (true, cs') ∧ RoomAfter cs₀ (i + 1) cs' := by
  have hcap : cs.entries.length < cs.capacity := by
    rw [h.capacity_eq]
    exact lt_of_le_of_lt h.length_le hroom
  obtain ⟨cs', hstore, hlen, hcap', hb⟩ := psirpCsStore_of_room h.maxBytes_eq hcap n hd f now
  refine ⟨cs', hstore, hb, hcap'.trans h.capacity_eq, hlen.trans ?_⟩
  have := h.length_le
  omega

/-- **The writer succeeds** when all derived names parse, there is room for the chunks and the
manifest, and memory for the strings. -/
theorem psirpCsStoreChunked_succeeds
    (hname : ∀ i < psirpMaxChunks, (psirpNameInit (chunkPath name i)).1 = true)
    (hmn : (psirpNameInit (manifestPath name)).1 = true) {s : ChunkState}
    (hlarge : psirpChunkSize < data.length) (hb : s.cs.maxBytes = 0)
    (hroom : s.cs.entries.length + psirpMaxChunks < s.cs.capacity)
    (hs : Supplies malloc (psirpMaxComponents * psirpMaxChunks) s.heap) :
    ∃ s', psirpCsStoreChunked malloc s name data f now = (true, s') := by
  have hinit : RoomAfter s.cs 0 s.cs := ⟨hb, rfl, le_refl _⟩
  have hnext : ∀ i cs, i < psirpMaxChunks → RoomAfter s.cs i cs → psirpChunkSize * i < data.length →
      ∃ cs', psirpCsStore cs (chunkName name i) (chunkOf data i) f (now i) = (true, cs') ∧
        RoomAfter s.cs (i + 1) cs' :=
    fun i cs hi h hmore => h.store (by omega) (chunkName name i) (storable_chunkOf hmore) f (now i)
  obtain ⟨refs, s₁, hloop, hroom₁, hle⟩ :=
    storeChunksLoop_succeeds hname hnext hinit hs
  have hsize : Storable (PsirpManifest.of data.length refs).bytes := by
    rw [Storable, PsirpManifest.length_bytes]
    decide
  obtain ⟨cs, hstore, -⟩ := hroom₁.store (by omega) (manifestName name) hsize f (now refs.length)
  refine ⟨⟨cs, s₁.heap⟩, ?_⟩
  rw [psirpCsStoreChunked, if_neg (Nat.not_le.mpr hlarge), hloop]
  simp only [psirpNameInit_manifestName hmn, hstore]

end Writer

/-! ## The reader -/

theorem forall_mem_of_getElem? {α : Type*} {l : List α} {Q : α → Prop}
    (h : ∀ (m : Nat) a, l[m]? = some a → Q a) : ∀ a ∈ l, Q a := by
  intro a ha
  obtain ⟨m, hm⟩ := List.mem_iff_getElem?.mp ha
  exact h m a hm

section Reader

variable {heap : StringHeap} {refs : List PsirpChunkRef} {now : Nat → UInt64}
  {R : PsirpCs → Prop}

/-- **What the reader writes.** If the lookup by each of the first `k` slots finds only data that
has `Q`, a reassembly of these slots that runs to its end has written one such piece for each. -/
theorem reassembleLoop_pieces {Q : Nat → List UInt8 → Prop} {k : Nat}
    (htouch : ∀ cs j t, R cs → R { cs with entries := cs.entries.modify j (touch t) })
    (hread : ∀ cs i ref j e, R cs → i < k → refs[i]? = some ref →
      rawLookupIndex heap cs.entries ref.name (now i) = some (some j) → cs.entries[j]? = some e →
      Q i e.data) :
    ∀ (left i : Nat) (cs cs' : PsirpCs) (out out' : List UInt8), R cs → i + left = k →
      reassembleLoop heap refs now left i cs out = some (true, out', cs') →
      ∃ pieces : List (List UInt8), pieces.length = left ∧ out' = out ++ pieces.flatten ∧
        (∀ m p, pieces[m]? = some p → Q (i + m) p) ∧ (left ≠ 0 → k ≤ refs.length) := by
  intro left
  induction left with
  | zero =>
    intro i cs cs' out out' _ _ h
    obtain ⟨rfl, -⟩ : out = out' ∧ cs = cs' := by simpa [reassembleLoop] using h
    exact ⟨[], rfl, by simp, by simp, fun h => absurd rfl h⟩
  | succ left ih =>
    intro i cs cs' out out' hR hk h
    simp only [reassembleLoop] at h
    split at h
    · simp at h
    · rename_i ref href
      split at h
      · simp at h
      · simp at h
      · rename_i j hj
        split at h
        · simp at h
        · -- the slot leads to an entry, whose data is the next piece
          rename_i ce hce
          obtain ⟨pieces, hlen, rfl, hQ, hslots⟩ :=
            ih _ _ _ _ _ (htouch cs j (now i) hR) (by omega) h
          refine ⟨ce.data :: pieces, by rw [List.length_cons, hlen], by simp, ?_, ?_⟩
          · intro m p hp
            cases m with
            | zero =>
              obtain rfl := Option.some.inj hp
              exact hread cs i ref j ce hR (by omega) href hj hce
            | succ m =>
              rw [← Nat.add_assoc, Nat.add_right_comm]
              exact hQ m p hp
          · intro _
            have hi := (List.getElem?_eq_some_iff.mp href).1
            rcases Nat.eq_zero_or_pos left with rfl | hpos
            · omega
            · exact hslots (by omega)

/-- **What the reader reads.** If the lookup by slot `i` always finds `piece i`, reassembly writes
the pieces in order. -/
theorem reassembleLoop_reads (now : Nat → UInt64) {piece : Nat → List UInt8} {k : Nat}
    (htouch : ∀ cs j t, R cs → R { cs with entries := cs.entries.modify j (touch t) })
    (hread : ∀ cs i, R cs → i < k → ∃ ref, refs[i]? = some ref ∧ ∃ j e,
      rawLookupIndex heap cs.entries ref.name (now i) = some (some j) ∧ cs.entries[j]? = some e ∧
        e.data = piece i) :
    ∀ (left i : Nat) (cs : PsirpCs) (out : List UInt8), R cs → i + left = k →
      ∃ cs', reassembleLoop heap refs now left i cs out =
        some (true, out ++ ((List.range' i left).map piece).flatten, cs') := by
  intro left
  induction left with
  | zero =>
    intro i cs out _ _
    exact ⟨cs, by simp [reassembleLoop]⟩
  | succ left ih =>
    intro i cs out hR hk
    obtain ⟨ref, href, j, e, hj, he, hpiece⟩ := hread cs i hR (by omega)
    obtain ⟨cs', hrest⟩ := ih (i + 1) _ (out ++ e.data) (htouch cs j (now i) hR) (by omega)
    refine ⟨cs', ?_⟩
    rw [reassembleLoop]
    simp only [href, hj, he, hrest]
    simp [List.range'_succ, hpiece]

end Reader

/-! ## What the reader does -/

/-- The answer from the entry under the name itself. -/
def directAnswer (e : Option PsirpCsEntry) (outCap : Nat) : ChunkAnswer :=
  match e with
  | none => .failure
  | some e => if e.data.length ≤ outCap then ⟨true, e.data, some e.data.length⟩ else .failure

/-- The answer after the loop over the slots of a manifest. -/
def reassembledAnswer (m : PsirpManifest) (ok : Bool) (out : List UInt8) : ChunkAnswer :=
  if ok then ⟨decide (out.length = m.totalLen.toNat), out, some out.length⟩ else ⟨false, out, none⟩

section Answer

variable {s : ChunkState} {name : PsirpName} {outCap : Nat} {direct now : Nat → UInt64}

/-- Where the manifest has no name, the reader fails. -/
theorem psirpCsLookupChunked_unnamed (hmn : (psirpNameInit (manifestPath name)).1 = false) :
    psirpCsLookupChunked s name outCap direct now = some (.failure, s.cs) := by
  rw [psirpCsLookupChunked]
  split
  · rfl
  · rename_i hpair
    rw [hpair] at hmn
    cases hmn

/-- Without a manifest, it answers from the entry under the name itself. -/
theorem psirpCsLookupChunked_unlisted (hmn : (psirpNameInit (manifestPath name)).1 = true)
    (hnone : lookupEntry s.cs (manifestName name) (direct 0) = none) :
    psirpCsLookupChunked s name outCap direct now =
      some (directAnswer (lookupEntry s.cs name (direct 1)) outCap,
        (psirpCsLookup s.cs name (direct 1)).2) := by
  have hmiss : psirpCsLookup s.cs (manifestName name) (direct 0) = (none, s.cs) := by
    rw [psirpCsLookup, lookupEntry_eq_none.mp hnone]
  rw [psirpCsLookupChunked, psirpNameInit_manifestName hmn]
  simp only [hnone, hmiss]
  cases lookupEntry s.cs name (direct 1) with
  | none => rfl
  | some e =>
    dsimp only
    rw [directAnswer]
    split
    · rfl
    · rfl

/-- It gives up at an entry that is no manifest, or at the manifest of too much data. -/
theorem psirpCsLookupChunked_rejected (hmn : (psirpNameInit (manifestPath name)).1 = true)
    {me : PsirpCsEntry} (hme : lookupEntry s.cs (manifestName name) (direct 0) = some me)
    (hbad : ¬ (me.data.length = sizeofManifest ∧
      (readManifest me.data).totalLen.toNat ≤ outCap)) :
    psirpCsLookupChunked s name outCap direct now =
      some (.failure, (psirpCsLookup s.cs (manifestName name) (direct 0)).2) := by
  rw [psirpCsLookupChunked, psirpNameInit_manifestName hmn]
  simp only [hme]
  split
  · rfl
  · rename_i hsize
    rw [if_pos (Nat.not_le.mp fun hcap => hbad ⟨not_not.mp hsize, hcap⟩)]

/-- With a manifest of data that fits, it goes through the slots. -/
theorem psirpCsLookupChunked_listed (hmn : (psirpNameInit (manifestPath name)).1 = true)
    {me : PsirpCsEntry} (hme : lookupEntry s.cs (manifestName name) (direct 0) = some me)
    (hsize : me.data.length = sizeofManifest)
    (hcap : (readManifest me.data).totalLen.toNat ≤ outCap) :
    psirpCsLookupChunked s name outCap direct now =
      (reassembleLoop s.heap (readManifest me.data).chunks now
        (readManifest me.data).chunkCount.toNat 0
        (psirpCsLookup s.cs (manifestName name) (direct 0)).2 []).map fun r =>
          (reassembledAnswer (readManifest me.data) r.1 r.2.1, r.2.2) := by
  rw [psirpCsLookupChunked, psirpNameInit_manifestName hmn]
  simp only [hme]
  rw [if_neg (not_not.mpr hsize), if_neg (Nat.not_lt.mpr hcap)]
  split
  · rename_i hloop
    rw [hloop, Option.map_none]
  · rename_i out cs hloop
    rw [hloop, Option.map_some, reassembledAnswer, if_neg Bool.false_ne_true]
  · rename_i out cs hloop
    rw [hloop, Option.map_some, reassembledAnswer, if_pos rfl]

/-- **What a call of the reader does**, case by case. -/
theorem psirpCsLookupChunked_cases (s : ChunkState) (name : PsirpName) (outCap : Nat)
    (direct now : Nat → UInt64) :
    ((psirpNameInit (manifestPath name)).1 = false ∧
      psirpCsLookupChunked s name outCap direct now = some (.failure, s.cs)) ∨
    (psirpNameInit (manifestPath name)).1 = true ∧
      ((lookupEntry s.cs (manifestName name) (direct 0) = none ∧
        psirpCsLookupChunked s name outCap direct now =
          some (directAnswer (lookupEntry s.cs name (direct 1)) outCap,
            (psirpCsLookup s.cs name (direct 1)).2)) ∨
      ∃ me, lookupEntry s.cs (manifestName name) (direct 0) = some me ∧
        ((¬ (me.data.length = sizeofManifest ∧
            (readManifest me.data).totalLen.toNat ≤ outCap) ∧
          psirpCsLookupChunked s name outCap direct now =
            some (.failure, (psirpCsLookup s.cs (manifestName name) (direct 0)).2)) ∨
        me.data.length = sizeofManifest ∧ (readManifest me.data).totalLen.toNat ≤ outCap ∧
          psirpCsLookupChunked s name outCap direct now =
            (reassembleLoop s.heap (readManifest me.data).chunks now
              (readManifest me.data).chunkCount.toNat 0
              (psirpCsLookup s.cs (manifestName name) (direct 0)).2 []).map fun r =>
                (reassembledAnswer (readManifest me.data) r.1 r.2.1, r.2.2))) := by
  cases hmn : (psirpNameInit (manifestPath name)).1 with
  | false => exact Or.inl ⟨rfl, psirpCsLookupChunked_unnamed hmn⟩
  | true =>
    refine Or.inr ⟨rfl, ?_⟩
    cases hme : lookupEntry s.cs (manifestName name) (direct 0) with
    | none => exact Or.inl ⟨rfl, psirpCsLookupChunked_unlisted hmn hme⟩
    | some me =>
      refine Or.inr ⟨me, rfl, ?_⟩
      by_cases hok : me.data.length = sizeofManifest ∧
        (readManifest me.data).totalLen.toNat ≤ outCap
      · exact Or.inr ⟨hok.1, hok.2, psirpCsLookupChunked_listed hmn hme hok.1 hok.2⟩
      · exact Or.inl ⟨hok, psirpCsLookupChunked_rejected hmn hme hok⟩

/-- Without a manifest, it returns the data under the name itself, if there is any and it fits. -/
theorem psirpCsLookupChunked_of_none (hmn : (psirpNameInit (manifestPath name)).1 = true)
    (hnone : lookupEntry s.cs (manifestName name) (direct 0) = none) {e : PsirpCsEntry}
    (he : lookupEntry s.cs name (direct 1) = some e) (hcap : e.data.length ≤ outCap) :
    psirpCsLookupChunked s name outCap direct now =
      some (⟨true, e.data, some e.data.length⟩, (psirpCsLookup s.cs name (direct 1)).2) := by
  rw [psirpCsLookupChunked_unlisted hmn hnone, he, directAnswer, if_pos hcap]

/-- With a manifest, it reassembles the chunks it lists. -/
theorem psirpCsLookupChunked_of_manifest (hmn : (psirpNameInit (manifestPath name)).1 = true)
    {me : PsirpCsEntry} (hme : lookupEntry s.cs (manifestName name) (direct 0) = some me)
    {m : PsirpManifest} (hdata : me.data = m.bytes) (hcap : m.totalLen.toNat ≤ outCap)
    {out : List UInt8} {cs : PsirpCs}
    (hloop : reassembleLoop s.heap m.chunks now m.chunkCount.toNat 0
      (psirpCsLookup s.cs (manifestName name) (direct 0)).2 [] = some (true, out, cs))
    (hlen : out.length = m.totalLen.toNat) :
    psirpCsLookupChunked s name outCap direct now = some (⟨true, out, some out.length⟩, cs) := by
  have hread : readManifest me.data = m := by rw [hdata, readManifest_bytes]
  rw [psirpCsLookupChunked_listed hmn hme (by rw [hdata, PsirpManifest.length_bytes])
    (by rwa [hread]), hread, hloop, Option.map_some, reassembledAnswer, if_pos rfl,
    decide_eq_true hlen]

/-- **Where the answer comes from**: if the reader succeeds, the data was found under the name
itself, or it was reassembled from what was found under the manifest's name. -/
theorem psirpCsLookupChunked_eq_true {out : List UInt8} {len : Option Nat} {cs : PsirpCs}
    (h : psirpCsLookupChunked s name outCap direct now = some (⟨true, out, len⟩, cs)) :
    (lookupEntry s.cs (manifestName name) (direct 0) = none ∧
      ∃ e, lookupEntry s.cs name (direct 1) = some e ∧ e.data = out) ∨
    ∃ me, lookupEntry s.cs (manifestName name) (direct 0) = some me ∧
      me.data.length = sizeofManifest ∧
      reassembleLoop s.heap (readManifest me.data).chunks now
        (readManifest me.data).chunkCount.toNat 0
        (psirpCsLookup s.cs (manifestName name) (direct 0)).2 [] = some (true, out, cs) := by
  rcases psirpCsLookupChunked_cases s name outCap direct now with
    ⟨-, heq⟩ | ⟨-, ⟨hnone, heq⟩ | ⟨me, hme, ⟨-, heq⟩ | ⟨hsize, -, heq⟩⟩⟩
  · rw [heq] at h
    cases h
  · -- no manifest
    rw [heq] at h
    have hanswer := (Prod.mk.inj (Option.some.inj h)).1
    cases he : lookupEntry s.cs name (direct 1) with
    | none =>
      rw [he] at hanswer
      cases hanswer
    | some e =>
      rw [he, directAnswer] at hanswer
      split at hanswer
      · exact Or.inl ⟨hnone, e, rfl, (ChunkAnswer.mk.inj hanswer).2.1⟩
      · cases hanswer
  · rw [heq] at h
    cases h
  · -- a manifest
    rw [heq] at h
    obtain ⟨⟨ok, out', cs'⟩, hloop, hpair⟩ := Option.map_eq_some_iff.mp h
    obtain ⟨hanswer, rfl⟩ := Prod.mk.inj hpair
    cases ok with
    | false => cases hanswer
    | true =>
      obtain rfl := (ChunkAnswer.mk.inj hanswer).2.1
      exact Or.inr ⟨me, hme, hsize, hloop⟩

end Answer

/-! ## What any call keeps -/

section Keeps

variable {I : PsirpCs → Prop} {malloc : Allocator UInt64 CString} {name : PsirpName} {f : UInt32}

/-- What the stores of the chunks from the `k`-th on keep, the chunk loop keeps from there on, also
if it stops half-way. -/
theorem storeChunksLoop_keeps {k : Nat} (hstore : ∀ i, k ≤ i → i < psirpMaxChunks → ∀ cs d t,
      I cs → I (psirpCsStore cs (chunkName name i) d f t).2)
    (now : Nat → UInt64) : ∀ (slots : Nat) (rest : List UInt8) (refs : List PsirpChunkRef)
      (s : ChunkState), k ≤ refs.length → refs.length + slots = psirpMaxChunks → I s.cs →
      I (storeChunksLoop malloc name f now slots rest refs s).2.2.cs := by
  intro slots
  induction slots with
  | zero => exact fun _ _ _ _ _ h => h
  | succ slots ih =>
    intro rest refs s hk hslots h
    rw [storeChunksLoop]
    split
    · exact h
    · split
      · exact h
      · rename_i cn raw heap hname
        obtain ⟨rfl, -⟩ := nameInitOwned_eq_some hname
        have hkept := hstore refs.length hk (by omega) s.cs (rest.take psirpChunkSize)
          (now refs.length) h
        rw [chunkName] at hkept
        split
        · rename_i cs hs
          rwa [hs] at hkept
        · rename_i cs hs
          rw [hs] at hkept
          exact ih _ _ ⟨cs, heap⟩ (by rw [length_concat]; omega) (by rw [length_concat]; omega)
            hkept

/-- What every store keeps, the whole call keeps. -/
theorem psirpCsStoreChunked_keeps (hstore : ∀ cs n d t, I cs → I (psirpCsStore cs n d f t).2)
    {s : ChunkState} (h : I s.cs) (data : List UInt8) (now : Nat → UInt64) :
    I (psirpCsStoreChunked malloc s name data f now).2.cs := by
  rw [psirpCsStoreChunked]
  split
  · exact hstore s.cs name data (now 0) h
  · have hloop : I (storeChunksLoop malloc name f now psirpMaxChunks data [] s).2.2.cs :=
      storeChunksLoop_keeps (fun i _ _ cs d t => hstore cs (chunkName name i) d t) now
        psirpMaxChunks data [] s (Nat.zero_le _) (Nat.zero_add _) h
    split
    · rename_i refs s' hs
      rwa [hs] at hloop
    · rename_i refs s' hs
      rw [hs] at hloop
      split
      · exact hloop
      · rename_i mn _
        have hkept := hstore s'.cs mn (PsirpManifest.of data.length refs).bytes (now refs.length)
          hloop
        split
        · rename_i cs hcs
          rwa [hcs] at hkept
        · rename_i cs hcs
          rwa [hcs] at hkept

/-- What the bookkeeping keeps, reassembly keeps. -/
theorem reassembleLoop_keeps
    (htouch : ∀ cs i t, I cs → I { cs with entries := cs.entries.modify i (touch t) })
    {heap : StringHeap} {refs : List PsirpChunkRef} {now : Nat → UInt64} :
    ∀ {left i : Nat} {cs : PsirpCs} {out : List UInt8} {r : Bool × List UInt8 × PsirpCs},
      I cs → reassembleLoop heap refs now left i cs out = some r → I r.2.2 := by
  intro left
  induction left with
  | zero =>
    intro i cs out r h hr
    rw [reassembleLoop] at hr
    obtain rfl := Option.some.inj hr
    exact h
  | succ left ih =>
    intro i cs out r h hr
    simp only [reassembleLoop] at hr
    split at hr
    · simp at hr
    · split at hr
      · simp at hr
      · obtain rfl := Option.some.inj hr
        exact h
      · split at hr
        · simp at hr
        · exact ih (htouch _ _ _ h) hr

/-- What every store keeps, the whole call keeps. -/
theorem psirpCsLookupChunked_keeps
    (htouch : ∀ cs i t, I cs → I { cs with entries := cs.entries.modify i (touch t) })
    {s : ChunkState} (h : I s.cs) {outCap : Nat} {direct now : Nat → UInt64}
    {r : ChunkAnswer × PsirpCs} (hr : psirpCsLookupChunked s name outCap direct now = some r) :
    I r.2 := by
  have hlookup : ∀ cs n t, I cs → I (psirpCsLookup cs n t).2 := by
    intro cs n t hcs
    rcases psirpCsLookup_frame cs n t with hs | ⟨i, hs⟩
    · rwa [hs]
    · rw [hs]
      exact htouch cs i t hcs
  rcases psirpCsLookupChunked_cases s name outCap direct now with
    ⟨-, heq⟩ | ⟨-, ⟨-, heq⟩ | ⟨me, -, ⟨-, heq⟩ | ⟨-, -, heq⟩⟩⟩
  · obtain rfl := Option.some.inj (heq.symm.trans hr)
    exact h
  · obtain rfl := Option.some.inj (heq.symm.trans hr)
    exact hlookup s.cs name (direct 1) h
  · obtain rfl := Option.some.inj (heq.symm.trans hr)
    exact hlookup s.cs (manifestName name) (direct 0) h
  · rw [heq] at hr
    obtain ⟨r', hloop, rfl⟩ := Option.map_eq_some_iff.mp hr
    exact reassembleLoop_keeps htouch (hlookup s.cs (manifestName name) (direct 0) h) hloop

end Keeps

end DsoBrowser

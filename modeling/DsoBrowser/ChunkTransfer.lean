import DsoBrowser.ChunkRoundTrip

/-!
# Chunked content on another node

The manifest goes over the network as the bytes it has in memory, and those hold **addresses** of
the node that wrote it. Another node has copies of the chunks under their names, but it looks for
them through the addresses in the manifest, in a heap of its own.

The main result is that **content survives the transfer exactly when** these addresses lead, on the
other node, to names under which it finds the data, piece by piece (`receiverReads_iff`). They do if
the same strings stand at the same addresses there (`receiverReads_of_refersRefer`).
-/

namespace DsoBrowser

open Heap Blocks Table

/-! ## Lookups and bookkeeping -/

theorem findNewest_modify {eligible : PsirpCsEntry → Bool} {g : PsirpCsEntry → PsirpCsEntry}
    (hel : ∀ e, eligible (g e) = eligible e) (hver : ∀ e, (g e).name.version = e.name.version)
    (es : List PsirpCsEntry) : ∀ (j i : Nat) (best : Option (Nat × UInt64)),
      findNewest eligible (es.modify j g) i best = findNewest eligible es i best := by
  induction es with
  | nil =>
    intro j i best
    rw [List.modify_nil]
  | cons e es ih =>
    intro j i best
    cases j with
    | zero => rw [List.modify_zero_cons, findNewest, findNewest, hel, hver]
    | succ j => rw [List.modify_succ_cons, findNewest, findNewest, ih, ih]

theorem findIdx?_modify {p : PsirpCsEntry → Bool} {g : PsirpCsEntry → PsirpCsEntry}
    (hp : ∀ e, p (g e) = p e) (es : List PsirpCsEntry) :
    ∀ j, (es.modify j g).findIdx? p = es.findIdx? p := by
  induction es with
  | nil =>
    intro j
    rw [List.modify_nil]
  | cons e es ih =>
    intro j
    cases j with
    | zero => rw [List.modify_zero_cons, List.findIdx?_cons, List.findIdx?_cons, hp]
    | succ j => rw [List.modify_succ_cons, List.findIdx?_cons, List.findIdx?_cons, ih]

/-- The data of a lookup. -/
def lookupData (cs : PsirpCs) (k : PsirpName) (now : UInt64) : Option (List UInt8) :=
  (lookupEntry cs k now).map PsirpCsEntry.data

/-- The bookkeeping of a hit changes nothing that is found. -/
theorem lookupData_touch (cs : PsirpCs) (j : Nat) (t : UInt64) (k : PsirpName) (now : UInt64) :
    lookupData { cs with entries := cs.entries.modify j (touch t) } k now =
      lookupData cs k now := by
  have hindex : lookupIndex (cs.entries.modify j (touch t)) k now =
      lookupIndex cs.entries k now := by
    rw [lookupIndex, lookupIndex, findIdx?_modify (g := touch t) fun _ => rfl,
      findNewest_modify (g := touch t) (fun _ => rfl) fun _ => rfl]
  have hmap : (cs.entries.modify j (touch t)).map PsirpCsEntry.data =
      cs.entries.map PsirpCsEntry.data := map_modify_of_comp fun _ => rfl
  rw [lookupData, lookupData, lookupEntry_eq, lookupEntry_eq, hindex]
  cases lookupIndex cs.entries k now with
  | none => rfl
  | some i =>
    have hi := congrArg (fun l => l[i]?) hmap
    simp only [List.getElem?_map] at hi
    simp only [Option.bind_some, Option.map_map]
    exact hi

/-- Two stores in which every lookup finds the same. -/
def FindsAlike (cs cs' : PsirpCs) : Prop := ∀ k now, lookupData cs' k now = lookupData cs k now

theorem FindsAlike.touch {cs cs' : PsirpCs} (h : FindsAlike cs cs') (j : Nat) (t : UInt64) :
    FindsAlike cs { cs' with entries := cs'.entries.modify j (touch t) } :=
  fun k now => (lookupData_touch cs' j t k now).trans (h k now)

theorem findsAlike_lookup (cs : PsirpCs) (n : PsirpName) (now : UInt64) :
    FindsAlike cs (psirpCsLookup cs n now).2 := by
  rcases psirpCsLookup_frame cs n now with h | ⟨j, h⟩
  · rw [h]
    exact fun _ _ => rfl
  · rw [h]
    exact lookupData_touch cs j now

/-! ## Slots -/

section Slot

variable {heap : StringHeap} {r : RawName} {now : UInt64} {cs : PsirpCs}

theorem holds_of_rawComponentsEqual : ∀ {cs : List CString} {ptrs : List UInt64},
    rawComponentsEqual heap cs ptrs = some true → Holds heap (ptrs.take cs.length) cs := by
  intro cs
  induction cs with
  | nil => exact fun _ => rfl
  | cons c cs ih =>
    intro ptrs h
    cases ptrs with
    | nil => cases h
    | cons p ps =>
      rw [rawComponentsEqual] at h
      split at h
      · cases h
      · rename_i s hs
        split at h
        · rename_i hc
          have htail : (ps.take cs.length).map (read heap) = cs.map some := ih h
          change (read heap p :: (ps.take cs.length).map (read heap)) = some c :: cs.map some
          rw [hs, htail, hc]
        · cases h

/-- The name a slot refers to if it finds an entry with the given name. -/
theorem refers_of_rawBaseEqual {e : PsirpName} (h : rawBaseEqual heap e r = some true) :
    Refers heap r { e with hash := r.hash, version := r.version, hasVersion := r.hasVersion } := by
  have hcomps := rawComponentsEqual_of_base h
  refine ⟨holds_of_rawComponentsEqual hcomps, ?_, rfl, rfl⟩
  rw [rawBaseEqual] at h
  split at h
  · cases h
  · rename_i hcount
    exact (not_not.mp hcount).symm

theorem rawBaseEqual_of_rawNameEqual {e : PsirpName} (h : rawNameEqual heap e r = some true) :
    rawBaseEqual heap e r = some true := by
  simp only [rawNameEqual] at h
  rw [rawBaseEqual]
  split at h
  · cases h
  · rename_i hcount
    rw [if_neg hcount]
    split at h
    · cases h
    · exact h

/-- **A slot that finds an entry** refers to a name, and finds what is found under it. -/
theorem exists_refers_of_rawLookupIndex {j : Nat} {e : PsirpCsEntry}
    (h : rawLookupIndex heap cs.entries r now = some (some j)) (he : cs.entries[j]? = some e) :
    ∃ k, Refers heap r k ∧ lookupData cs k now = some e.data := by
  obtain ⟨e', he', hbase⟩ : ∃ e', cs.entries[j]? = some e' ∧
      rawBaseEqual heap e'.name r = some true := by
    have hfound := h
    rw [rawLookupIndex] at hfound
    split at hfound
    · obtain ⟨e', he', heq⟩ := rawFindExact_eq_some hfound
      exact ⟨e', he', rawBaseEqual_of_rawNameEqual heq⟩
    · rcases rawFindNewest_eq_some hfound with ⟨v, hb⟩ | ⟨i, e', rfl, hi, heq, -⟩
      · cases hb
      · rw [Nat.zero_add]
        exact ⟨e', hi, heq⟩
  have hrefers := refers_of_rawBaseEqual hbase
  refine ⟨_, hrefers, ?_⟩
  rw [rawLookupIndex_of_refers hrefers] at h
  rw [lookupData, lookupEntry_eq, Option.some.inj h, Option.bind_some, he]
  rfl

/-- And the other way round. -/
theorem rawLookupIndex_of_lookupData {k : PsirpName} {x : List UInt8} (hk : Refers heap r k)
    (h : lookupData cs k now = some x) :
    ∃ j e, rawLookupIndex heap cs.entries r now = some (some j) ∧ cs.entries[j]? = some e ∧
      e.data = x := by
  rw [lookupData, lookupEntry_eq] at h
  obtain ⟨e', he', rfl⟩ := Option.map_eq_some_iff.mp h
  obtain ⟨j, hj, htouch⟩ := Option.bind_eq_some_iff.mp he'
  obtain ⟨e, he, rfl⟩ := Option.map_eq_some_iff.mp htouch
  exact ⟨j, e, by rw [rawLookupIndex_of_refers hk, hj], he, rfl⟩

end Slot

/-! ## The transfer -/

/-- The slots a node fills in the manifest it stores. -/
def filledSlots (malloc : Allocator UInt64 CString) (s : ChunkState) (n : PsirpName)
    (d : List UInt8) (f : UInt32) (now : Nat → UInt64) : List PsirpChunkRef :=
  (storeChunksLoop malloc n f now psirpMaxChunks d [] s).2.1

/-- The manifest it stores. -/
def storedManifest (malloc : Allocator UInt64 CString) (s : ChunkState) (n : PsirpName)
    (d : List UInt8) (f : UInt32) (now : Nat → UInt64) : PsirpManifest :=
  PsirpManifest.of d.length (filledSlots malloc s n d f now)

/-- The reader returns exactly the data. -/
def ReceiverReads (s : ChunkState) (n : PsirpName) (d : List UInt8) (outCap : Nat)
    (direct now : Nat → UInt64) : Prop :=
  ∃ cs, psirpCsLookupChunked s n outCap direct now = some (⟨true, d, some d.length⟩, cs)

/-- The slots lead, in this heap, to names under which the store has the pieces of the data. -/
def LeadTo (heap : StringHeap) (cs : PsirpCs) (slots : List PsirpChunkRef) (d : List UInt8)
    (now : Nat → UInt64) : Prop :=
  ∃ pieces : List (List UInt8), pieces.length = slots.length ∧ pieces.flatten = d ∧
    ∀ i piece, pieces[i]? = some piece → ∃ slot k, slots[i]? = some slot ∧
      Refers heap slot.name k ∧ lookupData cs k (now i) = some piece

section Transfer

variable {malloc : Allocator UInt64 CString} {s s' : ChunkState} {n : PsirpName} {d : List UInt8}
  {f : UInt32} {clock : Nat → UInt64} {heap : StringHeap} {cs : PsirpCs} {outCap : Nat}
  {direct now : Nat → UInt64}

/-- What a successful store of large data leaves: as many slots as chunks, which refer to the
names of the chunks, in a manifest that was stored last. -/
theorem filledSlots_spec (hlarge : psirpChunkSize < d.length)
    (hmax : d.length ≤ psirpMaxChunks * psirpChunkSize)
    (h : psirpCsStoreChunked malloc s n d f clock = (true, s')) :
    (filledSlots malloc s n d f clock).length = chunkCount d ∧
      RefsRefer s'.heap n (filledSlots malloc s n d f clock) ∧
      (psirpNameInit (manifestPath n)).1 = true ∧
      ∃ cs t, psirpCsStore cs (manifestName n) (storedManifest malloc s n d f clock).bytes f t =
        (true, s'.cs) := by
  obtain ⟨refs, cs, hloop, hmn, hstore⟩ := psirpCsStoreChunked_large hlarge h
  have hslots : filledSlots malloc s n d f clock = refs := by rw [filledSlots, hloop]
  have hnone : RefsRefer s.heap n [] := fun i ref hi => by cases hi
  have hpos : psirpChunkSize * ([] : List PsirpChunkRef).length < d.length + psirpChunkSize := by
    rw [List.length_nil, Nat.mul_zero]
    omega
  obtain ⟨-, hrefs, -, hle, hlt, hend⟩ := storeChunksLoop_rule (I := fun _ _ => True)
    (fun _ _ _ _ _ _ => trivial) psirpMaxChunks [] refs s ⟨cs, s'.heap⟩ hloop trivial hnone hpos
  rw [storedManifest, hslots]
  refine ⟨?_, hrefs, hmn, cs, _, hstore⟩
  rw [chunkCount]
  simp only [List.length_nil, Nat.zero_add] at hle hend
  simp only [psirpMaxChunks, psirpMaxData, psirpChunkSize] at hle hlt hend hmax ⊢
  omega

/-- What a manifest of the data read back tells about its slots. -/
theorem leadTo_of_receiverReads {slots : List PsirpChunkRef}
    (hslots : slots.length ≤ psirpMaxChunks)
    (hcopy : lookupData cs (manifestName n) (direct 0) =
      some (PsirpManifest.of d.length slots).bytes)
    (h : ReceiverReads ⟨cs, heap⟩ n d outCap direct now) : LeadTo heap cs slots d now := by
  obtain ⟨cs', hread⟩ := h
  obtain ⟨me, hme, hdata⟩ := Option.map_eq_some_iff.mp hcopy
  rcases psirpCsLookupChunked_eq_true hread with ⟨hnone, -⟩ | ⟨me', hme', -, hloop⟩
  · rw [hme] at hnone
    cases hnone
  · obtain rfl := Option.some.inj (hme.symm.trans hme')
    rw [hdata, readManifest_bytes, toNat_chunkCount_of hslots] at hloop
    obtain ⟨pieces, hlen, hout, hpieces, -⟩ := reassembleLoop_pieces (R := FindsAlike cs)
      (Q := fun i piece => ∃ slot k, slots[i]? = some slot ∧ Refers heap slot.name k ∧
        lookupData cs k (now i) = some piece)
      (fun cs' j t h => FindsAlike.touch h j t)
      (fun cs' i slot j e h hi hslot hj he => by
        rw [getElem?_chunks_of hslots _ hi] at hslot
        obtain ⟨k, hk, hfound⟩ := exists_refers_of_rawLookupIndex hj he
        exact ⟨slot, k, hslot, hk, (h k _).symm.trans hfound⟩)
      slots.length 0 _ _ _ _ (findsAlike_lookup cs (manifestName n) (direct 0)) (Nat.zero_add _)
      hloop
    refine ⟨pieces, hlen, ?_, ?_⟩
    · rw [hout, List.nil_append]
    · intro i piece hpiece
      have hQ := hpieces i piece hpiece
      rwa [Nat.zero_add] at hQ

theorem map_getD_range' (pieces : List (List UInt8)) :
    (List.range' 0 pieces.length).map (fun i => pieces[i]?.getD []) = pieces := by
  refine List.ext_getElem (by simp) fun i hi hi' => ?_
  rw [List.getElem_map, List.getElem_range', Nat.zero_add, Nat.one_mul,
    List.getElem?_eq_getElem hi', Option.getD_some]

/-- And where its slots lead to the pieces, the data is read back. -/
theorem receiverReads_of_leadTo {slots : List PsirpChunkRef}
    (hslots : slots.length ≤ psirpMaxChunks)
    (hmax : d.length ≤ psirpMaxChunks * psirpChunkSize)
    (hmn : (psirpNameInit (manifestPath n)).1 = true)
    (hcopy : lookupData cs (manifestName n) (direct 0) =
      some (PsirpManifest.of d.length slots).bytes)
    (hcap : d.length ≤ outCap) (h : LeadTo heap cs slots d now) :
    ReceiverReads ⟨cs, heap⟩ n d outCap direct now := by
  obtain ⟨pieces, hlen, rfl, hpieces⟩ := h
  obtain ⟨me, hme, hdata⟩ := Option.map_eq_some_iff.mp hcopy
  have htotal : (PsirpManifest.of pieces.flatten.length slots).totalLen.toNat =
      pieces.flatten.length := UInt64.toNat_ofNat_of_lt' (lt_of_le_of_lt hmax (by decide))
  have hread : ∀ cs' i, FindsAlike cs cs' → i < slots.length →
      ∃ slot, (PsirpManifest.of pieces.flatten.length slots).chunks[i]? = some slot ∧ ∃ j e,
        rawLookupIndex heap cs'.entries slot.name (now i) = some (some j) ∧
          cs'.entries[j]? = some e ∧ e.data = pieces[i]?.getD [] := by
    intro cs' i halike hi
    have hi' : i < pieces.length := hlen ▸ hi
    obtain ⟨slot, k, hslot, hk, hfound⟩ := hpieces i pieces[i] (List.getElem?_eq_getElem hi')
    obtain ⟨j, e, hj, he, he'⟩ := rawLookupIndex_of_lookupData hk ((halike k _).trans hfound)
    refine ⟨slot, (getElem?_chunks_of hslots _ hi).trans hslot, j, e, hj, he, ?_⟩
    rw [he', List.getElem?_eq_getElem hi', Option.getD_some]
  obtain ⟨cs', hloop⟩ := reassembleLoop_reads (R := FindsAlike cs) now
    (fun cs' j t h => FindsAlike.touch h j t) hread slots.length 0 _ []
    (findsAlike_lookup cs (manifestName n) (direct 0)) (Nat.zero_add _)
  rw [List.nil_append, ← hlen, map_getD_range', hlen, ← toNat_chunkCount_of hslots
    pieces.flatten.length] at hloop
  have hanswer := psirpCsLookupChunked_of_manifest (s := ⟨cs, heap⟩) hmn hme hdata
    (htotal.trans_le hcap) hloop htotal.symm
  exact ⟨cs', hanswer⟩

/-- **Content survives the transfer exactly when** the addresses in the manifest lead, on the node
that has a copy of it, to names under which that node has the pieces of the data. -/
theorem receiverReads_iff (hlarge : psirpChunkSize < d.length) (hmax : d.length ≤ psirpMaxData)
    (hstore : psirpCsStoreChunked malloc s n d f clock = (true, s'))
    (hcopy : lookupData cs (manifestName n) (direct 0) =
      some (storedManifest malloc s n d f clock).bytes) (hcap : d.length ≤ outCap) :
    ReceiverReads ⟨cs, heap⟩ n d outCap direct now ↔
      LeadTo heap cs (filledSlots malloc s n d f clock) d now := by
  have hmax' : d.length ≤ psirpMaxChunks * psirpChunkSize := hmax.trans (by decide)
  obtain ⟨hlen, -, hmn, -⟩ := filledSlots_spec hlarge hmax' hstore
  have hslots : (filledSlots malloc s n d f clock).length ≤ psirpMaxChunks :=
    hlen ▸ chunkCount_le hmax'
  exact ⟨leadTo_of_receiverReads hslots hcopy, receiverReads_of_leadTo hslots hmax' hmn hcopy hcap⟩

/-- Where the strings of the chunk names stand at the same addresses, the data is read back. -/
theorem receiverReads_of_refersRefer {slots : List PsirpChunkRef} (hrefs : RefsRefer heap n slots)
    (hlen : slots.length = chunkCount d) (hmax : d.length ≤ psirpMaxChunks * psirpChunkSize)
    (hmn : (psirpNameInit (manifestPath n)).1 = true)
    (hcopy : lookupData cs (manifestName n) (direct 0) =
      some (PsirpManifest.of d.length slots).bytes)
    (hchunks : ∀ i < chunkCount d, lookupData cs (chunkName n i) (now i) = some (chunkOf d i))
    (hcap : d.length ≤ outCap) : ReceiverReads ⟨cs, heap⟩ n d outCap direct now := by
  have hslots : slots.length ≤ psirpMaxChunks := by
    rw [hlen]
    exact chunkCount_le hmax
  refine receiverReads_of_leadTo hslots hmax hmn hcopy hcap
    ⟨(List.range (chunkCount d)).map (chunkOf d), ?_, ?_, ?_⟩
  · rw [List.length_map, List.length_range, hlen]
  · exact flatten_blocks_of_le (length_le_chunkCount d)
  · intro i piece hpiece
    rw [List.getElem?_map] at hpiece
    obtain ⟨i', hi', rfl⟩ := Option.map_eq_some_iff.mp hpiece
    obtain ⟨hlt, rfl⟩ := List.getElem?_eq_some_iff.mp hi'
    rw [List.length_range] at hlt
    have hi : i < slots.length := by
      rw [hlen]
      exact hlt
    have hslot : slots[i]? = some slots[i] := List.getElem?_eq_getElem hi
    rw [List.getElem_range]
    exact ⟨slots[i], chunkName n i, hslot, hrefs i _ hslot, hchunks i hlt⟩

/-- Where no string stands at any address, it is not. -/
theorem not_receiverReads_nil_heap {heap : StringHeap} {slots : List PsirpChunkRef}
    (hrefs : RefsRefer heap n slots) (hne : (chunkName n 0).components ≠ [])
    (hpos : 0 < slots.length) (hslots : slots.length ≤ psirpMaxChunks)
    (hcopy : lookupData cs (manifestName n) (direct 0) =
      some (PsirpManifest.of d.length slots).bytes) :
    ¬ ReceiverReads ⟨cs, []⟩ n d outCap direct now := by
  intro h
  obtain ⟨pieces, hlen, -, hpieces⟩ := leadTo_of_receiverReads hslots hcopy h
  obtain ⟨slot, k, hslot, hk, -⟩ := hpieces 0 _ (List.getElem?_eq_getElem (hlen ▸ hpos))
  -- the slot has the number of components of the chunk's name, and none of them is there
  have hcount := ofNat_length_inj (hk.count_eq.symm.trans (hrefs 0 slot hslot).count_eq)
  have hholds : (slot.name.ptrs.take k.components.length).map (read []) = k.components.map some :=
    hk.holds
  obtain ⟨c, cs', hcomps⟩ := List.exists_cons_of_ne_nil
    (List.ne_nil_of_length_pos (hcount ▸ List.length_pos_iff.mpr hne))
  rw [hcomps] at hholds
  cases hptrs : slot.name.ptrs.take (c :: cs').length with
  | nil =>
    rw [hptrs] at hholds
    cases hholds
  | cons p ps =>
    rw [hptrs] at hholds
    cases (List.cons.inj hholds).1

end Transfer

/-! ## Storing the copies -/

/-- What the other node gets: the manifest and the chunks, under their names. -/
def copies (n : PsirpName) (d : List UInt8) (m : PsirpManifest) : List (PsirpName × List UInt8) :=
  (manifestName n, m.bytes) :: (List.range (chunkCount d)).map fun i => (chunkName n i, chunkOf d i)

/-- It stores them one after the other, each with success. -/
def StoresAll (f : UInt32) : PsirpCs → List (PsirpName × List UInt8) → PsirpCs → Prop
  | cs, [], cs' => cs' = cs
  | cs, (k, x) :: rest, cs' =>
    ∃ t cs₁, psirpCsStore cs k x f t = (true, cs₁) ∧ StoresAll f cs₁ rest cs'

/-- Storing under plain names that differ leaves all of it in the map. -/
theorem StandsFor.storesAll : ∀ {packets : List (PsirpName × List UInt8)} {cs cs' : PsirpCs}
    {m : ContentMap}, StandsFor cs m → (∀ p ∈ packets, ∃ key : PlainKey, key.name = p.1) →
      (packets.map fun p => p.1.components).Nodup → StoresAll 0 cs packets cs' →
      ∃ m', StandsFor cs' m' ∧ (∀ p ∈ packets, m'.lookup p.1.components = some p.2) ∧
        ∀ k ∉ packets.map fun p => p.1.components, m'.lookup k = m.lookup k := by
  intro packets
  induction packets with
  | nil =>
    rintro cs cs' m h - - rfl
    exact ⟨m, h, fun p hp => absurd hp List.not_mem_nil, fun _ _ => rfl⟩
  | cons p packets ih =>
    intro cs cs' m h hplain hnodup hstores
    obtain ⟨t, cs₁, hstore, hrest⟩ := hstores
    obtain ⟨key, hkey⟩ := hplain p List.mem_cons_self
    rw [← hkey] at hstore
    obtain ⟨hfresh, hnodup⟩ := List.nodup_cons.mp hnodup
    obtain ⟨m', hs, hall, hframe⟩ := ih (h.store_of_true key hstore)
      (fun q hq => hplain q (List.mem_cons_of_mem _ hq)) hnodup hrest
    have hcomps : p.1.components = key.components := by rw [← hkey, key.components_name]
    refine ⟨m', hs, fun q hq => ?_, fun k hk => ?_⟩
    · rcases List.mem_cons.mp hq with rfl | hq
      · -- later packets are stored under other components
        refine (hframe _ hfresh).trans ?_
        change Finmap.lookup q.1.components _ = _
        rw [hcomps]
        exact Finmap.lookup_insert _
      · exact hall q hq
    · obtain ⟨hne, hk⟩ := not_or.mp (mt List.mem_cons.mpr hk)
      rw [hframe k hk, Finmap.lookup_insert_of_ne _ fun he => hne (he.trans hcomps.symm)]

/-- With room for the packets, it can. -/
theorem storesAll_succeeds {f : UInt32} {cs₀ : PsirpCs} : ∀ {packets : List (PsirpName × List UInt8)}
    {i : Nat} {cs : PsirpCs}, RoomAfter cs₀ i cs →
      cs₀.entries.length + i + packets.length ≤ cs₀.capacity → (∀ p ∈ packets, Storable p.2) →
      ∃ cs', StoresAll f cs packets cs' := by
  intro packets
  induction packets with
  | nil => exact fun _ _ _ => ⟨_, rfl⟩
  | cons p packets ih =>
    intro i cs h hroom hstorable
    rw [List.length_cons] at hroom
    obtain ⟨cs₁, hstore, h₁⟩ := h.store (by omega) p.1 (hstorable p List.mem_cons_self) f 0
    obtain ⟨cs', hrest⟩ := ih h₁ (by omega) fun q hq => hstorable q (List.mem_cons_of_mem _ hq)
    exact ⟨cs', 0, cs₁, hstore, hrest⟩

section Copies

variable {n : PsirpName} {d : List UInt8}

/-- The copies go under plain names that differ. -/
theorem plain_copies (hn : Parsed n) (hv : n.hasVersion = false) (hshallow : Shallow n)
    (hmax : d.length ≤ psirpMaxChunks * psirpChunkSize) (m : PsirpManifest) :
    (∀ p ∈ copies n d m, ∃ key : PlainKey, key.name = p.1) ∧
      ((copies n d m).map fun p => p.1.components).Nodup := by
  have hpath := hn.pathComponent hv
  have hsmall : ∀ i ∈ List.range (chunkCount d), i < 10 ^ 20 := fun i hi =>
    lt_of_lt_of_le (List.mem_range.mp hi) ((chunkCount_le hmax).trans (by decide))
  have hcomps : (copies n d m).map (fun p => p.1.components) =
      manifestComponents n :: (List.range (chunkCount d)).map (chunkComponents n) := by
    rw [copies, List.map_cons, List.map_map, (components_manifestName hv hpath hshallow).1]
    exact congrArg _ (List.map_congr_left fun i hi =>
      (components_chunkName hv hpath hshallow (hsmall i hi)).1)
  refine ⟨fun p hp => ?_, ?_⟩
  · rcases List.mem_cons.mp hp with rfl | hp
    · exact ⟨manifestKey hpath hshallow, (manifestName_eq hv hpath hshallow).symm⟩
    · obtain ⟨i, hi, rfl⟩ := List.mem_map.mp hp
      exact ⟨chunkKey hpath hshallow (hsmall i hi), (chunkName_eq hv hpath hshallow _).symm⟩
  · rw [hcomps, List.nodup_cons]
    refine ⟨fun hmem => ?_, List.nodup_range.map (chunkComponents_injective n)⟩
    obtain ⟨i, -, he⟩ := List.mem_map.mp hmem
    exact chunkComponents_ne_manifestComponents n n i rfl he

/-- **Copies stored in any order are found** under their names, on a node that keeps plain content
for ever. -/
theorem lookupData_of_storesAll (hn : Parsed n) (hv : n.hasVersion = false) (hshallow : Shallow n)
    (hmax : d.length ≤ psirpMaxChunks * psirpChunkSize) {m : PsirpManifest} {cs cs' : PsirpCs}
    {content : ContentMap} (h : StandsFor cs content) {packets : List (PsirpName × List UInt8)}
    (horder : packets.Perm (copies n d m)) (hstores : StoresAll 0 cs packets cs') :
    ∀ p ∈ copies n d m, ∀ t, lookupData cs' p.1 t = some p.2 := by
  obtain ⟨hplain, hnodup⟩ := plain_copies hn hv hshallow hmax m
  obtain ⟨content', hs, hall, -⟩ := h.storesAll (fun p hp => hplain p (horder.mem_iff.mp hp))
    ((horder.map _).nodup_iff.mpr hnodup) hstores
  intro p hp t
  obtain ⟨key, hkey⟩ := hplain p hp
  have hversion : p.1.hasVersion = false := by rw [← hkey, key.hasVersion_name]
  exact (hs.lookup_data hversion t).trans (hall p (horder.mem_iff.mpr hp))

end Copies

/-! ## A transfer -/

/-- The manifest of `twoChunks` under `/a`, on a fresh node. -/
def manifestA : PsirpManifest :=
  storedManifest countUp ⟨psirpCsInit, []⟩ keyA.name twoChunks 0 fun _ => 0

theorem shallow_keyA : Shallow keyA.name := by
  rw [Shallow]
  decide

/-- One node stores `twoChunks` under `/a`, another one stores the copies, and finds them. -/
theorem exists_transfer_a :
    ∃ s cs, psirpCsStoreChunked countUp ⟨psirpCsInit, []⟩ keyA.name twoChunks 0 (fun _ => 0) =
        (true, s) ∧
      StoresAll 0 psirpCsInit (copies keyA.name twoChunks manifestA) cs ∧
      ∀ p ∈ copies keyA.name twoChunks manifestA, ∀ t, lookupData cs p.1 t = some p.2 := by
  have hlarge : psirpChunkSize < twoChunks.length := by rw [length_twoChunks]; decide
  have hmax : twoChunks.length ≤ psirpMaxChunks * psirpChunkSize := by
    rw [length_twoChunks]
    decide
  have hcount : chunkCount twoChunks = 2 := by rw [chunkCount, length_twoChunks]; decide
  obtain ⟨s, hs⟩ := storeChunked_large_init keyA.parsed keyA.hasVersion_name hlarge
  have hstorable : ∀ p ∈ copies keyA.name twoChunks manifestA, Storable p.2 := by
    intro p hp
    rcases List.mem_cons.mp hp with rfl | hp
    · rw [Storable, PsirpManifest.length_bytes]
      decide
    · obtain ⟨i, hi, rfl⟩ := List.mem_map.mp hp
      apply storable_chunkOf
      rw [List.mem_range, hcount] at hi
      rw [length_twoChunks, psirpChunkSize]
      omega
  have hroom : psirpCsInit.entries.length + 0 + (copies keyA.name twoChunks manifestA).length ≤
      psirpCsInit.capacity := by
    rw [copies, List.length_cons, List.length_map, List.length_range, hcount]
    decide
  obtain ⟨cs, hcs⟩ := storesAll_succeeds (f := 0) ⟨rfl, rfl, le_refl _⟩ hroom hstorable
  exact ⟨s, cs, hs, hcs, lookupData_of_storesAll keyA.parsed keyA.hasVersion_name shallow_keyA hmax
    standsFor_init (List.Perm.refl _) hcs⟩

theorem receiverReads_iff_a :
    ∃ (s : ChunkState) (cs : PsirpCs),
      StoresAll 0 psirpCsInit (copies keyA.name twoChunks manifestA) cs ∧
      (ReceiverReads ⟨cs, s.heap⟩ keyA.name twoChunks psirpMaxData (fun _ => 0) (fun _ => 0) ↔
        LeadTo s.heap cs (filledSlots countUp ⟨psirpCsInit, []⟩ keyA.name twoChunks 0 fun _ => 0)
          twoChunks fun _ => 0) := by
  obtain ⟨s, cs, hs, hcs, hfound⟩ := exists_transfer_a
  have hcopy := hfound (manifestName keyA.name, manifestA.bytes) List.mem_cons_self 0
  rw [manifestA] at hcopy
  refine ⟨s, cs, hcs, receiverReads_iff ?_ ?_ hs hcopy ?_⟩
  · rw [length_twoChunks]
    decide
  · rw [length_twoChunks]
    decide
  · rw [length_twoChunks]
    decide

/-- A node that stores the copies of `twoChunks` and has no strings of its own does not read the
data back. -/
theorem not_receiverReads_a :
    ∃ s cs, psirpCsStoreChunked countUp ⟨psirpCsInit, []⟩ keyA.name twoChunks 0 (fun _ => 0) =
        (true, s) ∧
      StoresAll 0 psirpCsInit (copies keyA.name twoChunks manifestA) cs ∧
      ¬ ReceiverReads ⟨cs, []⟩ keyA.name twoChunks psirpMaxData (fun _ => 0) fun _ => 0 := by
  obtain ⟨s, cs, hs, hcs, hfound⟩ := exists_transfer_a
  have hmax : twoChunks.length ≤ psirpMaxChunks * psirpChunkSize := by
    rw [length_twoChunks]
    decide
  have hcount : chunkCount twoChunks = 2 := by rw [chunkCount, length_twoChunks]; decide
  obtain ⟨hlen, hrefs, -⟩ := filledSlots_spec (by rw [length_twoChunks]; decide) hmax hs
  have hcopy := hfound (manifestName keyA.name, manifestA.bytes) List.mem_cons_self 0
  rw [manifestA] at hcopy
  refine ⟨s, cs, hs, hcs, not_receiverReads_nil_heap hrefs ?_ ?_ (hlen ▸ chunkCount_le hmax) hcopy⟩
  · rw [(components_chunkName keyA.hasVersion_name (keyA.parsed.pathComponent keyA.hasVersion_name)
      shallow_keyA (by decide)).1]
    simp [chunkComponents]
  · rw [hlen, hcount]
    decide

end DsoBrowser

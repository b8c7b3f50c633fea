import DsoBrowser.SameContent
import DsoBrowser.Accounting
import DsoBrowser.ChunkTransfer
import DsoBrowser.Versions

/-!
# Chunked stores that fail

`psirp_cs_store_chunked` stores the chunks one by one, in place, and gives up where one of them is
refused or its name cannot be built. What it has stored by then stays. Readers do not notice if it
has stored nothing that was not there before (`failedStore_unseen`): small data, or chunks that are
stored already as far as the call gets. Otherwise the first chunk that was not stored already is
shown afterwards (`shows_of_firstNew`).
-/

namespace DsoBrowser

open Blocks Heap Machine Table

/-! ## What a failed call stores -/

/-- The call gets to chunk `j`: the names of the chunks up to `j` parse and are allocated, and there
is room in the table, or the chunks up to `j` have entries. -/
def GetsTo (malloc : Allocator UInt64 CString) (s : ChunkState) (name : PsirpName) (j : Nat) :
    Prop :=
  (heapAfterNames malloc name s.heap (j + 1)).isSome ∧
    (s.cs.entries.length < s.cs.capacity ∨ ∀ i ≤ j, (actsOn s.cs (chunkName name i)).isSome)

theorem GetsTo.mono {malloc : Allocator UInt64 CString} {s : ChunkState} {name : PsirpName}
    {i j : Nat} (h : GetsTo malloc s name j) (hij : i ≤ j) : GetsTo malloc s name i := by
  obtain ⟨hnames, hroom⟩ := h
  refine ⟨?_, hroom.imp id fun hacts k hk => hacts k (hk.trans hij)⟩
  clear hroom
  induction hij with
  | refl => exact hnames
  | step _ ih =>
    obtain ⟨heap', hheap⟩ := Option.isSome_iff_exists.mp hnames
    obtain ⟨heap, -, hbefore, -⟩ := heapAfterNames_succ hheap
    exact ih (Option.isSome_of_eq_some hbefore)

/-- So the store of the chunk succeeds. -/
theorem GetsTo.room {malloc : Allocator UInt64 CString} {s : ChunkState} {name : PsirpName}
    {i : Nat} (h : GetsTo malloc s name i) :
    s.cs.entries.length < s.cs.capacity ∨ (actsOn s.cs (chunkName name i)).isSome :=
  h.2.imp id fun hacts => hacts i le_rfl

/-- Every chunk the call gets to is stored already. -/
def AlreadyStored (malloc : Allocator UInt64 CString) (s : ChunkState) (name : PsirpName)
    (data : List UInt8) : Prop :=
  ∀ j < psirpMaxChunks, psirpChunkSize * j < data.length → GetsTo malloc s name j →
    (actsOn s.cs (chunkName name j)).map PsirpCsEntry.data = some (chunkOf data j)

/-- If the chunks before it have entries, the call gets to a chunk that has a name where there is
room for it, or an entry. -/
theorem AlreadyStored.data_eq {malloc : Allocator UInt64 CString} {s : ChunkState}
    {name : PsirpName} {data : List UInt8} (h : AlreadyStored malloc s name data) {j : Nat}
    (hj : j < psirpMaxChunks) (hmore : psirpChunkSize * j < data.length)
    (hname : (heapAfterNames malloc name s.heap (j + 1)).isSome)
    (hbefore : ∀ i < j, (actsOn s.cs (chunkName name i)).isSome)
    (hroom : s.cs.entries.length < s.cs.capacity ∨ (actsOn s.cs (chunkName name j)).isSome) :
    (actsOn s.cs (chunkName name j)).map PsirpCsEntry.data = some (chunkOf data j) := by
  refine h j hj hmore ⟨hname, hroom.imp id fun hlast i hi => ?_⟩
  rcases Nat.lt_or_eq_of_le hi with hlt | rfl
  · exact hbefore i hlt
  · exact hlast

section Writer

variable {malloc : Allocator UInt64 CString} {cs₀ : PsirpCs} {heap₀ : StringHeap}
  {name : PsirpName} {data : List UInt8} {now : Nat → UInt64}

/-- The entry that a store acts on is at the same place. -/
theorem SameContent.actsOn_eq {cs : PsirpCs} (h : SameContent cs₀ cs) (n : PsirpName) :
    actsOn cs₀ n = (cs.entries.findIdx? fun e => psirpNameEqual e.name n).bind
      fun i => cs₀.entries[i]? := by
  have hscan : cs₀.entries.findIdx? (fun e => psirpNameEqual e.name n) =
      cs.entries.findIdx? fun e => psirpNameEqual e.name n :=
    findIdx?_of_forall₂ h.entries fun e e' he => by rw [he.name_eq]
  rw [actsOn, List.find?_eq_bind_findIdx?_getElem?, hscan]

/-- A store that gets there succeeds. -/
theorem SameContent.store_succeeds {cs : PsirpCs} (h : SameContent cs₀ cs) {n : PsirpName}
    {d : List UInt8} (hd : Storable d)
    (hroom : cs₀.entries.length < cs₀.capacity ∨ (actsOn cs₀ n).isSome) (t : UInt64) :
    ∃ cs', psirpCsStore cs n d 0 t = (true, cs') := by
  rcases psirpCsStore_cases_of_unlimited h.maxBytes_eq n d 0 t with
    ⟨-, hfull⟩ | ⟨-, i, b, -, hs⟩ | ⟨-, -, -, b, hs⟩
  · obtain ⟨hfull, hnone⟩ := hfull hd
    rcases hroom with hroom | hsome
    · rw [h.capacity_eq, ← h.entries.length_eq] at hfull
      exact absurd hroom (Nat.not_lt.mpr hfull)
    · rw [h.actsOn_eq, hnone] at hsome
      cases hsome
  · exact ⟨_, hs⟩
  · exact ⟨_, hs⟩

/-- A store of data that is there already, if it gets there. -/
theorem SameContent.store {cs cs' : PsirpCs} (h : SameContent cs₀ cs) {n : PsirpName}
    {d : List UInt8} {t : UInt64} {ok : Bool} (hs : psirpCsStore cs n d 0 t = (ok, cs'))
    (hthere : cs₀.entries.length < cs₀.capacity ∨ (actsOn cs₀ n).isSome →
      (actsOn cs₀ n).map PsirpCsEntry.data = some d) :
    SameContent cs₀ cs' ∧ (ok = true → (actsOn cs₀ n).isSome) := by
  have hacts := h.actsOn_eq n
  rcases psirpCsStore_cases_of_unlimited h.maxBytes_eq n d 0 t with
    ⟨hs', -⟩ | ⟨-, i, b, hi, hs'⟩ | ⟨-, hroom, hnone, b, hs'⟩
  · obtain ⟨rfl, rfl⟩ := Prod.mk.inj (hs'.symm.trans hs)
    exact ⟨h, fun hok => absurd hok Bool.false_ne_true⟩
  · -- the entry has this data already
    obtain ⟨rfl, rfl⟩ := Prod.mk.inj (hs'.symm.trans hs)
    rw [hi, Option.bind_some] at hacts
    have hsome : (actsOn cs₀ n).isSome := by
      have hlt := (List.findIdx?_eq_some_iff_getElem.mp hi).1
      rw [← h.entries.length_eq] at hlt
      rw [hacts, List.getElem?_eq_getElem hlt]
      rfl
    have hdata := hthere (Or.inr hsome)
    rw [hacts] at hdata
    refine ⟨⟨forall₂_modify_right h.entries fun e e' he hsame => ?_, h.capacity_eq,
      h.maxBytes_eq⟩, fun _ => hsome⟩
    rw [he] at hdata
    exact ⟨hsame.name_eq, (Option.some.inj hdata).symm, hsame.kept, rfl⟩
  · -- there is no entry that has it
    rw [hnone, Option.bind_none] at hacts
    rw [h.capacity_eq, ← h.entries.length_eq] at hroom
    have hdata := hthere (Or.inl hroom)
    rw [hacts] at hdata
    cases hdata

/-- What the strings of the slots filled were allocated over. -/
def FreshSlots (heap : StringHeap) (refs : List PsirpChunkRef) : Prop :=
  ∀ ref ∈ refs, ∀ p ∈ ref.name.owned, read heap p = none

theorem FreshSlots.concat {heap : StringHeap} {refs : List PsirpChunkRef} {ref : PsirpChunkRef}
    (h : FreshSlots heap refs) (href : ∀ p ∈ ref.name.owned, read heap p = none) :
    FreshSlots heap (refs ++ [ref]) := by
  intro ref' href'
  rcases List.mem_append.mp href' with hold | hnew
  · exact h ref' hold
  · rw [List.mem_singleton.mp hnew]
    exact href

theorem fresh_of_nameInitOwned {heap heap' : StringHeap} {path : CString} {n : PsirpName}
    {raw : RawName} (h : nameInitOwned malloc heap path = some (n, raw, heap')) :
    ∀ p ∈ raw.owned, read heap p = none := by
  rw [nameInitOwned] at h
  split at h
  · cases h
  · obtain ⟨⟨ptrs, heap₁⟩, hal, heq⟩ := Option.map_eq_some_iff.mp h
    cases heq
    intro p hp
    have hlen : ptrs.length = n.components.length := by
      have hmap := congrArg List.length (holds_of_allocAll hal).2
      rwa [List.length_map, List.length_map] at hmap
    refine fresh_of_allocAll hal p ?_
    have hcount : (UInt64.ofNat n.components.length).toNat = n.components.length :=
      UInt64.toNat_ofNat_of_lt' (lt_of_le_of_lt n.count_le (by decide))
    have howned : (RawName.of n ptrs).owned = ptrs := by
      change (List.take _ (ptrs ++ _)).take (UInt64.ofNat n.components.length).toNat = ptrs
      rw [hcount, List.take_take, min_eq_left n.count_le, ← hlen, List.take_left]
    rwa [howned] at hp

/-- **Loop rule of the failing writer.** -/
theorem storeChunksLoop_same (hstored : AlreadyStored malloc ⟨cs₀, heap₀⟩ name data) :
    ∀ (slots : Nat) (refs refs' : List PsirpChunkRef) (s s' : ChunkState) (ok : Bool),
      storeChunksLoop malloc name 0 now slots (data.drop (psirpChunkSize * refs.length)) refs s =
        (ok, refs', s') →
      refs.length + slots = psirpMaxChunks → SameContent cs₀ s.cs → Extends heap₀ s.heap →
      heapAfterNames malloc name heap₀ refs.length = some s.heap →
      FreshSlots heap₀ refs → (∀ i < refs.length, (actsOn cs₀ (chunkName name i)).isSome) →
      SameContent cs₀ s'.cs ∧ Extends heap₀ s'.heap ∧ FreshSlots heap₀ refs' := by
  intro slots
  induction slots with
  | zero =>
    intro refs refs' s s' ok h _ hsame hext _ hfresh _
    obtain ⟨-, rfl, rfl⟩ : true = ok ∧ refs = refs' ∧ s = s' := by simpa [storeChunksLoop] using h
    exact ⟨hsame, hext, hfresh⟩
  | succ slots ih =>
    intro refs refs' s s' ok h hslots hsame hext hheap hfresh hbefore
    rw [storeChunksLoop] at h
    split at h
    · obtain ⟨-, rfl, rfl⟩ : true = ok ∧ refs = refs' ∧ s = s' := by simpa using h
      exact ⟨hsame, hext, hfresh⟩
    · rename_i hrest
      have hmore : psirpChunkSize * refs.length < data.length := by
        rw [List.drop_eq_nil_iff] at hrest
        omega
      split at h
      · obtain ⟨-, rfl, rfl⟩ : false = ok ∧ refs = refs' ∧ s = s' := by simpa using h
        exact ⟨hsame, hext, hfresh⟩
      · rename_i cn raw heap hname
        obtain ⟨rfl, hext', -⟩ := nameInitOwned_eq_some hname
        have hfresh' : ∀ p ∈ raw.owned, read heap₀ p = none := fun p hp =>
          hext.none_of_none (fresh_of_nameInitOwned hname p hp)
        have hheap' : heapAfterNames malloc name heap₀ (refs.length + 1) = some heap := by
          rw [heapAfterNames, hheap, Option.bind_some, hname, Option.map_some]
        have hthere := hstored.data_eq (by omega) hmore (Option.isSome_of_eq_some hheap') hbefore
        split at h
        · rename_i cs hstore
          obtain ⟨-, rfl, rfl⟩ : false = ok ∧ refs = refs' ∧ ChunkState.mk cs heap = s' := by
            simpa using h
          exact ⟨(hsame.store hstore hthere).1, hext.trans hext', hfresh⟩
        · rename_i cs hstore
          obtain ⟨hsame', hsome⟩ := hsame.store hstore hthere
          rw [List.drop_drop, ← Nat.mul_add_one, ← length_concat refs] at h
          refine ih _ _ _ _ _ h (by rw [length_concat]; omega) hsame' (hext.trans hext')
            (by rw [length_concat]; exact hheap') (hfresh.concat hfresh') fun i hi => ?_
          rw [length_concat] at hi
          rcases Nat.lt_or_eq_of_le (Nat.le_of_lt_succ hi) with hlt | rfl
          · exact hbefore i hlt
          · exact hsome rfl

/-- A failed call leaves the content of the store, and every string of the heap. -/
theorem psirpCsStoreChunked_same {s s' : ChunkState} (hkept : SameContent s.cs s.cs)
    (h : psirpCsStoreChunked malloc s name data 0 now = (false, s'))
    (hstored : data.length ≤ psirpChunkSize ∨ AlreadyStored malloc s name data) :
    SameContent s.cs s'.cs ∧ Extends s.heap s'.heap := by
  rcases Nat.lt_or_ge psirpChunkSize data.length with hlarge | hsmall
  · obtain ⟨ok, refs, s₁, hloop, hcs, hheap⟩ := psirpCsStoreChunked_refused hlarge h
    obtain ⟨hsame, hext, hfresh⟩ :=
      storeChunksLoop_same (hstored.resolve_left (Nat.not_le.mpr hlarge)) psirpMaxChunks [] refs s
        s₁ ok hloop (Nat.zero_add _) hkept (Extends.refl _) rfl
        (fun _ hr => absurd hr List.not_mem_nil) fun i hi => absurd hi (Nat.not_lt_zero i)
    refine ⟨hcs ▸ hsame, ?_⟩
    rcases hheap with hheap | hheap
    · exact hheap ▸ hext
    · -- the strings of the slots are given back
      rw [hheap]
      refine extends_freeAll hext fun p hp => ?_
      obtain ⟨ref, href, hp'⟩ := List.mem_flatMap.mp hp
      exact hfresh ref href p hp'
  · rw [psirpCsStoreChunked, if_pos hsmall] at h
    have hrefused : (psirpCsStore s.cs name data 0 (now 0)).1 = false := (Prod.mk.inj h).1
    obtain rfl : ChunkState.mk (psirpCsStore s.cs name data 0 (now 0)).2 s.heap = s' :=
      (Prod.mk.inj h).2
    rw [psirpCsStore_of_refused hrefused]
    exact ⟨hkept, Extends.refl _⟩

end Writer

/-! ## What the reader of a chunk sees -/

/-- The entries of the chunks of a name are in plain view: a reader of a chunk's name finds what is
stored under it. -/
structure ChunksInView (cs : PsirpCs) (name : PsirpName) : Prop where
  /-- all names in the store are unversioned -/
  table : PlainTable cs
  /-- the name comes from `psirp_name_init` -/
  parsed : Parsed name
  /-- it is unversioned as well -/
  hasVersion_eq : name.hasVersion = false
  /-- there is room for the names of the chunks' manifests -/
  length_le : name.components.length + 4 ≤ psirpMaxComponents
  /-- the chunks have no manifests -/
  unlisted : ∀ i < psirpMaxChunks,
    contentAt cs (manifestComponents (chunkName name i)) = none

section ChunkSeen

variable {malloc : Allocator UInt64 CString} {cs : PsirpCs} {s s' : ChunkState}
  {name n : PsirpName} {data : List UInt8} {now : Nat → UInt64}

/-- Among plain entries the one that a store acts on is the one that is found. -/
theorem PlainTable.actsOn_data (h : PlainTable cs) (hself : n.SelfHashed) :
    (actsOn cs n).map PsirpCsEntry.data = contentAt cs n.components := by
  rw [actsOn, contentAt, row, List.find?_eq_bind_findIdx?_getElem?,
    findIdx?_of_selfHashed (fun e he => (h.plain e he).selfHashed) hself,
    ← List.find?_eq_bind_findIdx?_getElem?]

/-- The names of the chunks are those of plain keys. -/
theorem ChunksInView.exists_key (hview : ChunksInView cs name) {i : Nat}
    (hi : i < psirpMaxChunks) : (psirpNameInit (chunkPath name i)).1 = true ∧
      ∃ k : PlainKey, chunkName name i = k.name ∧ k.components = chunkComponents name i := by
  have hv := hview.hasVersion_eq
  have hpath := hview.parsed.pathComponent hv
  have hshallow : Shallow name := (Nat.add_le_add_left (by decide) _).trans hview.length_le
  have hsmall : i < 10 ^ 20 := hi.trans (by decide)
  obtain ⟨hash, hname⟩ := psirpNameInit_chunkPath hv hpath hsmall
  exact ⟨congrArg Prod.fst hname, chunkKey hpath hshallow hsmall,
    chunkName_eq hv hpath hshallow hsmall, rfl⟩

/-- The chunks before the first new one are stored over the same data. -/
theorem storeChunksLoop_beforeNew (hkept : SameContent s.cs s.cs) {j : Nat}
    (hmore : psirpChunkSize * j < data.length) (hgets : GetsTo malloc s name j)
    (hbefore : ∀ i < j,
      (actsOn s.cs (chunkName name i)).map PsirpCsEntry.data = some (chunkOf data i))
    (slots : Nat) : ∃ refs s₁ raw heap, refs.length = j ∧ SameContent s.cs s₁.cs ∧
      nameInitOwned malloc s₁.heap (chunkPath name j) = some (chunkName name j, raw, heap) ∧
      storeChunksLoop malloc name 0 now (j + slots) data [] s =
        storeChunksLoop malloc name 0 now slots (data.drop (psirpChunkSize * j)) refs s₁ := by
  have hmore' : ∀ i < j, psirpChunkSize * i < data.length :=
    fun i hi => lt_of_le_of_lt (Nat.mul_le_mul_left _ hi.le) hmore
  obtain ⟨heap, hheap⟩ := Option.isSome_iff_exists.mp hgets.1
  obtain ⟨heap₁, raw, hnames, hname⟩ := heapAfterNames_succ hheap
  obtain ⟨refs, s₁, hlen, hsame, rfl, hloop⟩ :=
    @storeChunksLoop_rounds malloc name 0 now data (fun _ => SameContent s.cs) s hkept j slots _
      hmore' (fun i hi cs hsame => by
        obtain ⟨cs', hstore⟩ :=
          hsame.store_succeeds (storable_chunkOf (hmore' i hi)) (hgets.mono hi.le).room (now i)
        exact ⟨cs', hstore, (hsame.store hstore fun _ => hbefore i hi).1⟩) hnames
  exact ⟨refs, s₁, raw, heap, hlen, hsame, hname, hloop⟩

/-- **The first new chunk is shown** after the call. -/
theorem shows_of_firstNew (hkept : SameContent s.cs s.cs) (hview : ChunksInView s.cs name)
    (hlarge : psirpChunkSize < data.length)
    (h : psirpCsStoreChunked malloc s name data 0 now = (false, s')) {j : Nat}
    (hj : j < psirpMaxChunks) (hmore : psirpChunkSize * j < data.length)
    (hgets : GetsTo malloc s name j) (hbefore : ∀ i < j,
      (actsOn s.cs (chunkName name i)).map PsirpCsEntry.data = some (chunkOf data i)) :
    Shows s'.cs (chunkName name j) (chunkOf data j) := by
  obtain ⟨slots, hslots⟩ := Nat.exists_eq_add_of_lt hj
  rw [Nat.add_assoc] at hslots
  obtain ⟨refs, s₁, raw, heap, rfl, hsame, howned, hloop⟩ :=
    @storeChunksLoop_beforeNew malloc s name data now hkept j hmore hgets hbefore (slots + 1)
  obtain ⟨-, k, hname, hk⟩ := hview.exists_key hj
  have hmanifest : ∀ i,
      manifestComponents (chunkName name refs.length) ≠ chunkComponents name i := by
    intro i he
    have hlen := congrArg List.length he
    rw [manifestComponents, hname, k.components_name, hk] at hlen
    simp [chunkComponents] at hlen
  -- this chunk
  obtain ⟨cs', hstore⟩ :=
    hsame.store_succeeds (storable_chunkOf hmore) hgets.room (now refs.length)
  have hrest : data.drop (psirpChunkSize * refs.length) ≠ [] := by
    rw [ne_eq, List.drop_eq_nil_iff, Nat.not_le]
    exact hmore
  rw [storeChunksLoop_stored hrest howned hstore, ← hslots] at hloop
  have hshows : Shows cs' (chunkName name refs.length) (chunkOf data refs.length) := by
    rw [hname] at hstore hmanifest ⊢
    obtain ⟨htable, hother, hnew⟩ :=
      (hsame.plainTable hview.table).store k.parsed k.hasVersion_name hstore
    refine ⟨htable, hnew.resolve_right fun hold => hold.1 k.selfHashed_name, ?_⟩
    rw [hother _ (by rw [k.components_name, hk]; exact hmanifest _), hsame.contentAt_eq, ← hname]
    exact hview.unlisted refs.length hj
  -- and the others
  obtain ⟨ok, refs', s₂, hend, hcs, -⟩ := psirpCsStoreChunked_refused hlarge h
  obtain rfl : (storeChunksLoop malloc name 0 now psirpMaxChunks data [] s).2.2 = s₂ := by rw [hend]
  rw [hcs, hloop]
  refine storeChunksLoop_keeps (k := refs.length + 1)
    (I := fun cs => Shows cs (chunkName name refs.length) (chunkOf data refs.length))
    (fun i hi hi' cs d t hcs => ?_) now _ _ _ _ (by rw [length_concat])
    (by rw [length_concat]; omega) hshows
  obtain ⟨-, k', hname', hk'⟩ := hview.exists_key hi'
  rw [hname']
  refine hcs.store k'.parsed k'.hasVersion_name ?_ ?_ d t
  · rw [hname, k.components_name, k'.components_name, hk, hk']
    exact fun he => Nat.ne_of_lt hi (chunkComponents_injective name he)
  · rw [k'.components_name, hk']
    exact hmanifest i

/-- **Only then**: whatever a call gets to that fails is stored already, if no reader sees the
difference. -/
theorem alreadyStored_of_answersAlike (hkept : SameContent s.cs s.cs)
    (hview : ChunksInView s.cs name)
    (h : psirpCsStoreChunked malloc s name data 0 now = (false, s')) (halike : AnswersAlike s s') :
    data.length ≤ psirpChunkSize ∨ AlreadyStored malloc s name data := by
  rcases Nat.lt_or_ge psirpChunkSize data.length with hlarge | hsmall
  · refine Or.inr fun j => ?_
    -- the first of them that is not would be seen
    induction j using Nat.strong_induction_on with
    | _ j ih =>
      intro hj hmore hgets
      by_contra hnew
      have hshows := shows_of_firstNew hkept hview hlarge h hj hmore hgets fun i hi =>
        ih i hi (hi.trans hj) (lt_of_le_of_lt (Nat.mul_le_mul_left _ hi.le) hmore)
          (hgets.mono hi.le)
      obtain ⟨-, k, hname, hk⟩ := hview.exists_key hj
      rw [hname, hview.table.actsOn_data k.selfHashed_name] at hnew
      rw [hname] at hshows
      refine hshows.not_answersAlike k.parsed k.hasVersion_name ?_ hview.table ?_ hnew ?_ halike
      · rw [Shallow, k.components_name, hk]
        simp [chunkComponents]
        exact hview.length_le
      · rw [← hname]
        exact hview.unlisted j hj
      · rw [← List.length_pos_iff, chunkOf, length_block]
        exact Nat.lt_min.mpr ⟨by decide, Nat.sub_pos_of_lt hmore⟩
  · exact Or.inl hsmall

end ChunkSeen

/-! ## Runs without a budget -/

/-- The call stores for ever, if it stores, and sets no byte budget. -/
def ContentOp.KeepsForever : ContentOp → Prop
  | .plain (.store _ _ freshnessMs _) => freshnessMs = 0
  | .plain (.setBudget maxBytes) => maxBytes = 0
  | .storeChunked _ _ freshnessMs _ => freshnessMs = 0
  | _ => True

/-- Nothing in the store expires, and there is no byte budget. -/
structure KeptForever (cs : PsirpCs) : Prop where
  /-- no entry expires -/
  entries : EveryEntry (fun e => e.freshnessMs = 0) cs
  /-- no budget -/
  maxBytes_eq : cs.maxBytes = 0

theorem KeptForever.same {cs : PsirpCs} (h : KeptForever cs) : SameContent cs cs :=
  ⟨List.forall₂_same.mpr fun e he => ⟨rfl, rfl, h.entries e he, h.entries e he⟩, rfl,
    h.maxBytes_eq⟩

theorem KeptForever.touch {cs : PsirpCs} (h : KeptForever cs) (i : Nat) (now : UInt64) :
    KeptForever { cs with entries := cs.entries.modify i (touch now) } :=
  ⟨EveryEntry.modify_touch h.entries (fun _ _ he => he) i now, h.maxBytes_eq⟩

theorem KeptForever.store {cs : PsirpCs} (h : KeptForever cs) (n : PsirpName) (d : List UInt8)
    (now : UInt64) : KeptForever (psirpCsStore cs n d 0 now).2 := by
  refine ⟨h.entries.store (fun _ => rfl) fun _ _ _ _ => rfl, ?_⟩
  rcases psirpCsStore_cases_of_unlimited h.maxBytes_eq n d 0 now with
    ⟨hs, -⟩ | ⟨-, i, b, -, hs⟩ | ⟨-, -, -, b, hs⟩
  all_goals
    rw [hs]
    exact h.maxBytes_eq

/-- **Step.** -/
theorem KeptForever.step {malloc : Allocator UInt64 CString} {s : ChunkState}
    (h : KeptForever s.cs) {op : ContentOp} (hop : op.KeepsForever) :
    KeptForever (contentStep malloc s op).2.cs := by
  cases op with
  | plain op =>
    cases op with
    | init => exact ⟨fun e he => absurd he List.not_mem_nil, rfl⟩
    | setBudget maxBytes => exact ⟨h.entries, hop⟩
    | store n d f now =>
      obtain rfl : f = 0 := hop
      exact h.store n d now
    | lookup n now =>
      change KeptForever (psirpCsLookup s.cs n now).2
      rcases psirpCsLookup_frame s.cs n now with hs | ⟨i, hs⟩
      · rw [hs]
        exact h
      · rw [hs]
        exact h.touch i now
    | remove n =>
      refine ⟨h.entries.remove n, ?_⟩
      change (psirpCsRemove s.cs n).2.maxBytes = 0
      rcases psirpCsRemove_cases s.cs n with ⟨-, hs⟩ | ⟨i, e, -, -, -, hs⟩
      · rw [hs]
        exact h.maxBytes_eq
      · rw [hs]
        exact (maxBytes_removeAt s.cs i).trans h.maxBytes_eq
    | gc now =>
      obtain ⟨hsub, -, hmax⟩ := psirpCsGc_frame s.cs now
      exact ⟨h.entries.subperm hsub, hmax.trans h.maxBytes_eq⟩
  | storeChunked n d f now =>
    obtain rfl : f = 0 := hop
    exact psirpCsStoreChunked_keeps (I := KeptForever) (fun _ n d t h => h.store n d t) h d now
  | lookupChunked n outCap direct now =>
    simp only [contentStep]
    cases hr : psirpCsLookupChunked s n outCap direct now with
    | none => exact h
    | some r =>
      exact psirpCsLookupChunked_keeps (I := KeptForever) (fun _ i t h => h.touch i t) h hr

theorem keptForever_of_run (malloc : Allocator UInt64 CString) {ops : List ContentOp}
    (hops : ∀ op ∈ ops, op.KeepsForever) :
    KeptForever (exec (contentStep malloc) ⟨psirpCsInit, []⟩ ops).cs :=
  exec_inv (I := fun s : ChunkState => KeptForever s.cs) (P := fun _ op => op.KeepsForever)
    (fun _ _ h hop => h.step hop) ⟨fun _ he => absurd he List.not_mem_nil, rfl⟩
    (along_input.mpr hops)

/-- The name of the `i`-th filler. -/
def fillerName (i : Nat) : PsirpName := (psirpNameInit (pathOf [decimal i])).2

/-- One byte under each of the first `count` filler names. -/
def fillers (count : Nat) : List ContentOp :=
  (List.range count).map fun i => .plain (.store (fillerName i) [0] 0 0)

/-- The store after that. -/
def filledStore (count : Nat) : ChunkState :=
  exec (contentStep countUp) ⟨psirpCsInit, []⟩ (fillers count)

/-- A filler name as a key. -/
def fillerKey {i : Nat} (hi : i < 10 ^ 20) : PlainKey where
  components := [decimal i]
  path c hc := List.mem_singleton.mp hc ▸ pathComponent_decimal hi
  ne_nil := List.cons_ne_nil _ _
  length_le := (by decide : 1 ≤ psirpMaxComponents)

/-- The fillers take one entry each, as long as there is one. -/
theorem filledStore_spec : ∀ {count : Nat}, count ≤ psirpCsMaxEntries →
    (filledStore count).heap = [] ∧ (filledStore count).cs.entries.length = count ∧
      ∃ m, StandsFor (filledStore count).cs m ∧ ∀ k ∈ m, ∃ i < count, k = [decimal i] := by
  intro count
  induction count with
  | zero =>
    intro _
    exact ⟨rfl, rfl, ∅, standsFor_init, fun k hk => absurd hk (Finmap.notMem_empty)⟩
  | succ count ih =>
    intro hle
    obtain ⟨hheap, hlen, m, hm, hkeys⟩ := ih (Nat.le_of_succ_le hle)
    have hcount : count < 10 ^ 20 := hle.trans (by decide)
    have hstep : filledStore (count + 1) =
        ⟨(psirpCsStore (filledStore count).cs (fillerKey hcount).name [0] 0 0).2, []⟩ := by
      rw [← hheap, filledStore, fillers, List.range_succ, List.map_append, exec_append]
      rfl
    have hnew : (fillerKey hcount).components ∉ m := by
      intro hmem
      obtain ⟨i, hi, heq⟩ := hkeys _ hmem
      exact Nat.ne_of_gt hi (decimal_injective (List.cons.inj heq).1)
    have hroom : (filledStore count).cs.entries.length < (filledStore count).cs.capacity := by
      rw [hlen, hm.capacity_eq]
      exact hle
    obtain ⟨b, hs⟩ := psirpCsStore_fresh hm.maxBytes_eq hroom
      (List.findIdx?_eq_none_iff.mp ((hm.notMem_iff _).mp hnew)) (d := [0]) (by decide) 0 0
    have hm' := hm.store_of_true (fillerKey hcount) hs
    rw [hstep, hs]
    refine ⟨rfl, ?_, _, hm', ?_⟩
    · change (_ ++ [_]).length = _
      rw [List.length_append, hlen, List.length_singleton]
    · intro k hk
      rcases Finmap.mem_insert.mp hk with rfl | hk
      · exact ⟨count, Nat.lt_succ_self _, rfl⟩
      · obtain ⟨i, hi, rfl⟩ := hkeys k hk
        exact ⟨i, Nat.lt_succ_of_lt hi, rfl⟩

/-- A key of the content map that no filler took. -/
theorem notMem_of_fillers {m : ContentMap} {count : Nat}
    (hkeys : ∀ k ∈ m, ∃ i < count, k = [decimal i]) {k : List CString} (hk : k.length ≠ 1) :
    k ∉ m := by
  intro hmem
  obtain ⟨i, -, rfl⟩ := hkeys k hmem
  exact hk rfl

/-- The chunks of `/a`. -/
def chunkKeyA {i : Nat} (hi : i < 10 ^ 20) : PlainKey :=
  chunkKey (keyA.parsed.pathComponent keyA.hasVersion_name) shallow_keyA hi

theorem chunkName_keyA {i : Nat} (hi : i < 10 ^ 20) : chunkName keyA.name i = (chunkKeyA hi).name :=
  chunkName_eq keyA.hasVersion_name _ shallow_keyA hi

theorem length_chunkKeyA {i : Nat} (hi : i < 10 ^ 20) : (chunkKeyA hi).components.length = 3 := by
  change (chunkComponents keyA.name i).length = 3
  rw [chunkComponents, List.length_append, PlainKey.components_name]
  rfl

/-- The chunks of `/a` are in view, and have no entries. -/
theorem chunksInView_filledStore {count : Nat} (hle : count ≤ psirpCsMaxEntries) :
    ChunksInView (filledStore count).cs keyA.name ∧
      ∀ i < psirpMaxChunks, actsOn (filledStore count).cs (chunkName keyA.name i) = none := by
  obtain ⟨-, -, m, hm, hkeys⟩ := filledStore_spec hle
  have hnone : ∀ k : List CString, k.length ≠ 1 → contentAt (filledStore count).cs k = none := by
    intro k hk
    rw [hm.contentAt_eq]
    exact Finmap.lookup_eq_none.mpr (notMem_of_fillers hkeys hk)
  refine ⟨⟨hm.table, keyA.parsed, keyA.hasVersion_name, ?_, fun i hi => hnone _ ?_⟩,
    fun i hi => ?_⟩
  · rw [PlainKey.components_name]
    decide
  · rw [manifestComponents, length_concat, chunkName_keyA (hi.trans (by decide)),
      PlainKey.components_name, length_chunkKeyA]
    decide
  · rw [chunkName_keyA (hi.trans (by decide)), ← Option.map_eq_none_iff,
      hm.table.actsOn_data (PlainKey.selfHashed_name _), PlainKey.components_name]
    exact hnone _ (by rw [length_chunkKeyA]; decide)

/-- A full table takes no new entry. -/
theorem psirpCsStore_of_full {cs : PsirpCs} (hb : cs.maxBytes = 0)
    (hfull : cs.capacity ≤ cs.entries.length) {n : PsirpName} (hnone : actsOn cs n = none)
    (d : List UInt8) (f : UInt32) (t : UInt64) : psirpCsStore cs n d f t = (false, cs) := by
  rcases psirpCsStore_cases_of_unlimited hb n d f t with
    ⟨hs, -⟩ | ⟨-, i, b, hi, -⟩ | ⟨-, hroom, -⟩
  · exact hs
  · rw [actsOn, List.find?_eq_none] at hnone
    rw [List.findIdx?_eq_none_iff.mpr fun e he => Bool.eq_false_iff.mpr (hnone e he)] at hi
    cases hi
  · exact absurd hroom (Nat.not_lt.mpr hfull)

theorem lt_length_twoChunks : psirpChunkSize < twoChunks.length := by
  rw [length_twoChunks]
  exact Nat.lt_succ_self _

theorem twoChunks_ne_nil : twoChunks ≠ [] :=
  List.length_pos_iff.mp (Nat.zero_lt_of_lt lt_length_twoChunks)

/-- In a full table, the first chunk is refused. -/
theorem storeChunked_full {s : ChunkState} (hb : s.cs.maxBytes = 0)
    (hfull : s.cs.capacity ≤ s.cs.entries.length)
    (hnone : actsOn s.cs (chunkName keyA.name 0) = none) :
    ∃ s', psirpCsStoreChunked countUp s keyA.name twoChunks 0 (fun _ => 0) = (false, s') := by
  obtain ⟨heap, hloop⟩ := @storeChunksLoop_refused countUp keyA.name 0 (fun _ => 0) 17 twoChunks []
    s twoChunks_ne_nil (psirpCsStore_of_full hb hfull hnone _ 0 0)
  exact ⟨⟨s.cs, heap⟩, psirpCsStoreChunked_stopped lt_length_twoChunks hloop⟩

theorem fillers_keepForever (count : Nat) : ∀ op ∈ fillers count, op.KeepsForever := by
  intro op hop
  obtain ⟨i, -, rfl⟩ := List.mem_map.mp hop
  exact rfl

/-- With one free entry, the second chunk is refused. -/
theorem storeChunked_oneFree {s : ChunkState} {m : ContentMap} (hm : StandsFor s.cs m)
    (hlen : s.cs.entries.length + 1 = psirpCsMaxEntries)
    (hview : ChunksInView s.cs keyA.name)
    (hmemory : Supplies countUp psirpMaxComponents s.heap)
    (hnone : ∀ i < psirpMaxChunks, actsOn s.cs (chunkName keyA.name i) = none) :
    ∃ s', psirpCsStoreChunked countUp s keyA.name twoChunks 0 (fun _ => 0) = (false, s') := by
  obtain ⟨hparse, k, hname, hk⟩ := hview.exists_key (by decide : 0 < psirpMaxChunks)
  obtain ⟨-, k', hname', hk'⟩ := hview.exists_key (by decide : 1 < psirpMaxChunks)
  -- the first chunk takes the free entry
  obtain ⟨cs, hs, hb, hfull⟩ : ∃ cs, psirpCsStore s.cs (chunkName keyA.name 0)
      (twoChunks.take psirpChunkSize) 0 0 = (true, cs) ∧ cs.maxBytes = 0 ∧
        cs.capacity ≤ cs.entries.length := by
    have hroom : s.cs.entries.length < s.cs.capacity := by
      rw [hm.capacity_eq]
      omega
    obtain ⟨b, hs⟩ := psirpCsStore_fresh hm.maxBytes_eq hroom
      (fun e he => Bool.eq_false_iff.mpr (List.find?_eq_none.mp (hnone 0 (by decide)) e he))
      (@storable_chunkOf twoChunks 0 (Nat.zero_lt_of_lt lt_length_twoChunks)) 0 0
    refine ⟨_, hs, hm.maxBytes_eq, ?_⟩
    change s.cs.capacity ≤ (_ ++ [_]).length
    rw [length_concat, hm.capacity_eq, hlen]
  obtain ⟨raw, heap, howned, -⟩ :=
    @nameInitOwned_of_supplies countUp keyA.name 0 0 hparse s.heap hmemory
  have hround := @storeChunksLoop_stored countUp keyA.name 0 (fun _ => 0) 17 twoChunks [] s _ raw
    heap cs twoChunks_ne_nil howned hs
  -- there is none left for the second
  have hacts : actsOn cs (chunkName keyA.name 1) = none := by
    rw [hname] at hs
    obtain ⟨htable, hother, -⟩ := hm.table.store k.parsed k.hasVersion_name hs
    have hne : k'.name.components ≠ k.name.components := by
      rw [k.components_name, k'.components_name, hk, hk']
      exact fun he => Nat.one_ne_zero (chunkComponents_injective keyA.name he)
    have hdata := htable.actsOn_data k'.selfHashed_name
    rw [hother _ hne, ← hm.table.actsOn_data k'.selfHashed_name, ← hname',
      hnone 1 (by decide)] at hdata
    exact Option.map_eq_none_iff.mp hdata
  have hrest : twoChunks.drop psirpChunkSize ≠ [] := by
    rw [ne_eq, List.drop_eq_nil_iff]
    exact Nat.not_le.mpr lt_length_twoChunks
  obtain ⟨heap', hround'⟩ := @storeChunksLoop_refused countUp keyA.name 0 (fun _ => 0) 16
    (twoChunks.drop psirpChunkSize) [⟨raw, UInt64.ofNat (twoChunks.take psirpChunkSize).length⟩]
    ⟨cs, heap⟩ hrest (psirpCsStore_of_full hb hfull hacts _ 0 0)
  exact ⟨⟨cs, heap'⟩, psirpCsStoreChunked_stopped lt_length_twoChunks (hround.trans hround')⟩

end DsoBrowser

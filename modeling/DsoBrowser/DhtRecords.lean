import DsoBrowser.Dht
import DsoBrowser.Lib.FirstCome
import DsoBrowser.Lib.Machine

/-!
# The record store of the DHT

What a run of `dht_announce` and `dht_put_record` leaves behind, against a model that keeps no
table: the hashes in the order in which they were mentioned and, for each, the holders in the order
in which they were announced or merged. The table has the first 512 of the hashes and under each of
them the first 8 of its holders (`dhtRecords_refine`).

Both calls find or create the record of the hash and then add holders to it; `openRecord` and
`addTo` are these two halves, and the relation to the model is kept by each of them.
-/

namespace DsoBrowser

open Table Machine FirstCome

/-! ## Calls -/

/-- A record a peer may share: used, and within the size of the holder arrays. -/
structure SharedRecord where
  /-- the record -/
  record : DhtRecord
  /-- it counts -/
  used_eq : record.used = true
  /-- `holder_count` is within the arrays -/
  length_le : record.holders.length ≤ dhtMaxHolders

/-- A call that writes to the record store. -/
inductive DhtOp where
  /-- `dht_announce` -/
  | announce : UInt64 → PsirpPeer → DhtOp
  /-- `dht_put_record` -/
  | putRecord : SharedRecord → DhtOp

/-- One call. -/
def dhtStep (dht : DhtNode) : DhtOp → Unit × DhtNode
  | .announce contentHash holder => ((), dhtAnnounce dht contentHash holder)
  | .putRecord rec => ((), dhtPutRecord dht rec.record)

/-- The hash a call mentions. -/
def DhtOp.contentHash : DhtOp → UInt64
  | .announce contentHash _ => contentHash
  | .putRecord rec => rec.record.contentHash

/-- The holders it announces or merges, in order. -/
def DhtOp.holders : DhtOp → List PsirpPeer
  | .announce _ holder => [holder]
  | .putRecord rec => rec.record.holders

/-- The holders of a hash in the order in which they were announced or merged. -/
def announcedHolders (ops : List DhtOp) (contentHash : UInt64) : List PsirpPeer :=
  ops.flatMap fun op => if op.contentHash = contentHash then op.holders else []

/-! ## Both calls in two halves -/

/-- Find or create the record of a hash. -/
def openRecord (dht : DhtNode) (contentHash : UInt64) : DhtNode :=
  match dht.records.findIdx? (recordOf contentHash) with
  | some _ => dht
  | none =>
    if dhtMaxRecords ≤ dht.records.length then dht
    else { dht with records := dht.records ++ [⟨contentHash, [], true⟩] }

/-- Add a holder to the record of a hash, if there is one. -/
def addTo (contentHash : UInt64) (dht : DhtNode) (holder : PsirpPeer) : DhtNode :=
  match dht.records.findIdx? (recordOf contentHash) with
  | some i => { dht with records := dht.records.modify i (addHolder holder) }
  | none => dht

/-- A record opened for a hash is the one found for it. -/
theorem findIdx?_new {dht : DhtNode} {contentHash : UInt64}
    (h : dht.records.findIdx? (recordOf contentHash) = none) :
    (dht.records ++ [(⟨contentHash, [], true⟩ : DhtRecord)]).findIdx? (recordOf contentHash) =
      some dht.records.length :=
  findIdx?_append_cons (List.findIdx?_eq_none_iff.mp h) (by simp [recordOf])

theorem dhtAnnounce_eq (dht : DhtNode) (contentHash : UInt64) (holder : PsirpPeer) :
    dhtAnnounce dht contentHash holder = addTo contentHash (openRecord dht contentHash) holder := by
  rw [dhtAnnounce, openRecord]
  cases hidx : dht.records.findIdx? (recordOf contentHash) with
  | some i =>
    dsimp only
    rw [addTo, hidx]
  | none =>
    dsimp only
    split
    · rw [addTo, hidx]
    · rw [addTo]
      simp only [findIdx?_new hidx, modify_append_cons]

/-- A holder added makes no difference to which records there are. -/
theorem openRecord_addTo {dht : DhtNode} {contentHash : UInt64}
    (h : openRecord dht contentHash = dht) (holder : PsirpPeer) :
    openRecord (addTo contentHash dht holder) contentHash = addTo contentHash dht holder := by
  rcases cut_at_first (recordOf contentHash) dht.records with hnone | ⟨l₁, rec, l₂, hl, h₁, hrec⟩
  · rwa [addTo, List.findIdx?_eq_none_iff.mpr hnone]
  · have hsame := (recordOf_addHolder holder rec contentHash).trans hrec
    rw [addTo, hl, findIdx?_append_cons h₁ hrec]
    simp only [modify_append_cons]
    rw [openRecord]
    simp only [findIdx?_append_cons h₁ hsame]

theorem foldl_announce_eq {dht : DhtNode} {contentHash : UInt64}
    (h : openRecord dht contentHash = dht) (holders : List PsirpPeer) :
    holders.foldl (fun dht holder => dhtAnnounce dht contentHash holder) dht =
      holders.foldl (addTo contentHash) dht := by
  induction holders generalizing dht with
  | nil => rfl
  | cons holder holders ih =>
    rw [List.foldl_cons, List.foldl_cons, dhtAnnounce_eq, h]
    exact ih (openRecord_addTo h holder)

theorem openRecord_openRecord (dht : DhtNode) (contentHash : UInt64) :
    openRecord (openRecord dht contentHash) contentHash = openRecord dht contentHash := by
  cases hidx : dht.records.findIdx? (recordOf contentHash) with
  | some i =>
    have hsame : openRecord dht contentHash = dht := by rw [openRecord, hidx]
    rw [hsame, hsame]
  | none =>
    by_cases hfull : dhtMaxRecords ≤ dht.records.length
    · have hsame : openRecord dht contentHash = dht := by
        rw [openRecord, hidx]
        exact if_pos hfull
      rw [hsame, hsame]
    · have hopen : openRecord dht contentHash =
          { dht with records := dht.records ++ [⟨contentHash, [], true⟩] } := by
        rw [openRecord, hidx]
        exact if_neg hfull
      rw [hopen, openRecord]
      simp only [findIdx?_new hidx]

/-- Without a record nothing is added. -/
theorem foldl_addTo_of_none {dht : DhtNode} {contentHash : UInt64}
    (h : dht.records.findIdx? (recordOf contentHash) = none) (holders : List PsirpPeer) :
    holders.foldl (addTo contentHash) dht = dht := by
  induction holders with
  | nil => rfl
  | cons holder holders ih =>
    have hsame : addTo contentHash dht holder = dht := by rw [addTo, h]
    rw [List.foldl_cons, hsame, ih]

theorem dhtPutRecord_eq (dht : DhtNode) {rec : DhtRecord} (hused : rec.used = true) :
    dhtPutRecord dht rec =
      rec.holders.foldl (addTo rec.contentHash) (openRecord dht rec.contentHash) := by
  rw [← foldl_announce_eq (openRecord_openRecord dht rec.contentHash)]
  rw [dhtPutRecord, hused]
  dsimp only
  rw [if_neg (by decide), openRecord]
  cases hidx : dht.records.findIdx? (recordOf rec.contentHash) with
  | some i => rfl
  | none =>
    dsimp only
    split
    · rename_i hfull
      have hopen : openRecord dht rec.contentHash = dht := by
        rw [openRecord, hidx]
        exact if_pos hfull
      rw [foldl_announce_eq hopen, foldl_addTo_of_none hidx]
    · rfl

/-! ## The relation to the model -/

/-- The table has the first hashes mentioned, once each, and under each the first holders. -/
structure TracksHolders (dht : DhtNode) (mentioned : List UInt64)
    (held : UInt64 → List PsirpPeer) : Prop where
  /-- the records, by their hashes -/
  hashes_eq : dht.records.map DhtRecord.contentHash = firstCome dhtMaxRecords mentioned
  /-- every record counts -/
  used : ∀ rec ∈ dht.records, rec.used = true
  /-- its holders -/
  holders_eq : ∀ rec ∈ dht.records, rec.holders = firstCome dhtMaxHolders (held rec.contentHash)
  /-- a hash that was not mentioned has no holders -/
  held_nil : ∀ contentHash, contentHash ∉ mentioned → held contentHash = []

theorem tracksHolders_init (selfId : UInt64) : TracksHolders (dhtInit selfId) [] fun _ => [] :=
  ⟨(firstCome_nil _).symm, fun _ h => absurd h List.not_mem_nil,
    fun _ h => absurd h List.not_mem_nil, fun _ _ => rfl⟩

section TracksHolders

variable {dht : DhtNode} {mentioned : List UInt64} {held : UInt64 → List PsirpPeer}
variable {contentHash : UInt64}

/-- Whether the scan of `find_record` accepts a record. -/
theorem TracksHolders.recordOf_iff (h : TracksHolders dht mentioned held) {rec : DhtRecord}
    (hrec : rec ∈ dht.records) : recordOf contentHash rec = true ↔ rec.contentHash = contentHash := by
  rw [recordOf, h.used rec hrec, Bool.true_and, decide_eq_true_eq]

theorem TracksHolders.keyed (h : TracksHolders dht mentioned held) :
    Keyed DhtRecord.contentHash dht.records := by
  rw [Keyed, h.hashes_eq]
  exact nodup_firstCome _ _

/-- A hash is in the table exactly if it is among the first mentioned. -/
theorem TracksHolders.mem_iff (h : TracksHolders dht mentioned held) :
    contentHash ∈ firstCome dhtMaxRecords mentioned ↔
      ∃ rec ∈ dht.records, rec.contentHash = contentHash := by
  rw [← h.hashes_eq, List.mem_map]

theorem TracksHolders.openRecord (h : TracksHolders dht mentioned held) (contentHash : UInt64) :
    TracksHolders (openRecord dht contentHash) (mentioned ++ [contentHash]) held := by
  have hlen : dht.records.length = (firstCome dhtMaxRecords mentioned).length := by
    rw [← h.hashes_eq, List.length_map]
  have hnil : ∀ other, other ∉ mentioned ++ [contentHash] → held other = [] := fun other hother =>
    h.held_nil other fun hmem => hother (List.mem_append_left _ hmem)
  rw [DsoBrowser.openRecord]
  cases hidx : dht.records.findIdx? (recordOf contentHash) with
  | some i =>
    obtain ⟨hi, heq, -⟩ := List.findIdx?_eq_some_iff_getElem.mp hidx
    have hmem : contentHash ∈ firstCome dhtMaxRecords mentioned :=
      h.mem_iff.mpr ⟨_, List.getElem_mem hi, (h.recordOf_iff (List.getElem_mem hi)).mp heq⟩
    refine ⟨?_, h.used, h.holders_eq, hnil⟩
    rw [← takeIn_firstCome, takeIn, if_pos hmem]
    exact h.hashes_eq
  | none =>
    have hnone : contentHash ∉ firstCome dhtMaxRecords mentioned := by
      rw [h.mem_iff]
      rintro ⟨rec, hrec, hhash⟩
      have htest := (h.recordOf_iff hrec).mpr hhash
      rw [List.findIdx?_eq_none_iff.mp hidx rec hrec] at htest
      exact Bool.false_ne_true htest
    dsimp only
    split
    · rename_i hfull
      refine ⟨?_, h.used, h.holders_eq, hnil⟩
      rw [← takeIn_firstCome, takeIn, if_neg hnone, if_pos (by rwa [← hlen])]
      exact h.hashes_eq
    · rename_i hroom
      have hfresh : contentHash ∉ mentioned := fun hmem =>
        hnone (mem_firstCome_of_lt (by omega) hmem)
      refine ⟨?_, ?_, ?_, hnil⟩
      · rw [← takeIn_firstCome, takeIn, if_neg hnone, if_neg (by rwa [← hlen]), List.map_append,
          h.hashes_eq]
        rfl
      · intro rec hrec
        rcases List.mem_append.mp hrec with hrec | hrec
        · exact h.used rec hrec
        · rw [List.mem_singleton.mp hrec]
      · intro rec hrec
        rcases List.mem_append.mp hrec with hrec | hrec
        · exact h.holders_eq rec hrec
        · rw [List.mem_singleton.mp hrec, h.held_nil contentHash hfresh, firstCome_nil]

/-- A holder added is a holder admitted. -/
theorem holders_addHolder (holder : PsirpPeer) (rec : DhtRecord) :
    (addHolder holder rec).holders = takeIn dhtMaxHolders rec.holders holder := by
  rw [addHolder, takeIn]
  by_cases hmem : holder ∈ rec.holders
  · rw [if_pos (List.contains_iff_mem.mpr hmem), if_pos hmem]
  · rw [if_neg (fun h => hmem (List.contains_iff_mem.mp h)), if_neg hmem]
    split <;> rfl

@[simp] theorem contentHash_addHolder (holder : PsirpPeer) (rec : DhtRecord) :
    (addHolder holder rec).contentHash = rec.contentHash := by
  rw [addHolder]
  split
  · rfl
  · split <;> rfl

@[simp] theorem used_addHolder (holder : PsirpPeer) (rec : DhtRecord) :
    (addHolder holder rec).used = rec.used := by
  rw [addHolder]
  split
  · rfl
  · split <;> rfl

theorem TracksHolders.addTo (h : TracksHolders dht mentioned held) (hmem : contentHash ∈ mentioned)
    (holder : PsirpPeer) :
    TracksHolders (addTo contentHash dht holder) mentioned
      (Function.update held contentHash (held contentHash ++ [holder])) := by
  have hnil : ∀ other, other ∉ mentioned →
      Function.update held contentHash (held contentHash ++ [holder]) other = [] := by
    intro other hother
    have hne : other ≠ contentHash := by
      rintro rfl
      exact hother hmem
    rw [Function.update_of_ne hne]
    exact h.held_nil other hother
  -- the records of other hashes keep their holders
  have hother : ∀ rec ∈ dht.records, rec.contentHash ≠ contentHash → rec.holders =
      firstCome dhtMaxHolders (Function.update held contentHash (held contentHash ++ [holder])
        rec.contentHash) := by
    intro rec hrec hne
    rw [Function.update_of_ne hne]
    exact h.holders_eq rec hrec
  rw [DsoBrowser.addTo]
  cases hidx : dht.records.findIdx? (recordOf contentHash) with
  | none =>
    refine ⟨h.hashes_eq, h.used, fun rec hrec => hother rec hrec fun hhash => ?_, hnil⟩
    have htest := (h.recordOf_iff hrec).mpr hhash
    rw [List.findIdx?_eq_none_iff.mp hidx rec hrec] at htest
    exact Bool.false_ne_true htest
  | some i =>
    obtain ⟨hi, heq, -⟩ := List.findIdx?_eq_some_iff_getElem.mp hidx
    have hget := List.getElem?_eq_getElem hi
    have hhash := (h.recordOf_iff (List.getElem_mem hi)).mp heq
    refine ⟨?_, ?_, ?_, hnil⟩
    · dsimp only
      rw [map_modify_of_comp (contentHash_addHolder holder)]
      exact h.hashes_eq
    · intro rec hrec
      rcases mem_modify hrec with hrec | ⟨a, ha, rfl⟩
      · exact h.used rec hrec
      · rw [used_addHolder]
        exact h.used a (List.mem_of_getElem? ha)
    · intro rec hrec
      obtain ⟨j, hj⟩ := List.mem_iff_getElem?.mp hrec
      dsimp only at hj
      rcases eq_or_ne i j with rfl | hne
      · rw [List.getElem?_modify_eq, hget] at hj
        obtain rfl := Option.some.inj hj
        rw [holders_addHolder, contentHash_addHolder, h.holders_eq _ (List.getElem_mem hi), hhash,
          Function.update_self, takeIn_firstCome]
      · rw [List.getElem?_modify_ne _ _ hne] at hj
        refine hother rec (List.mem_of_getElem? hj) fun hsame => hne ?_
        exact h.keyed.index_inj hget hj (hhash.trans hsame.symm)

theorem TracksHolders.foldl_addTo (h : TracksHolders dht mentioned held)
    (hmem : contentHash ∈ mentioned) (holders : List PsirpPeer) :
    TracksHolders (holders.foldl (DsoBrowser.addTo contentHash) dht) mentioned
      (Function.update held contentHash (held contentHash ++ holders)) := by
  induction holders generalizing dht held with
  | nil =>
    rw [List.append_nil, Function.update_eq_self]
    exact h
  | cons holder holders ih =>
    have hrest := ih (h.addTo hmem holder)
    rw [Function.update_self, Function.update_idem, List.append_assoc] at hrest
    exact hrest

/-- The record of a hash. -/
theorem TracksHolders.dhtGetRecord_eq (h : TracksHolders dht mentioned held) (contentHash : UInt64) :
    dhtGetRecord dht contentHash =
      if contentHash ∈ firstCome dhtMaxRecords mentioned then
        some ⟨contentHash, firstCome dhtMaxHolders (held contentHash), true⟩
      else none := by
  rw [dhtGetRecord]
  cases hfind : dht.records.find? (recordOf contentHash) with
  | none =>
    refine (if_neg ?_).symm
    rw [h.mem_iff]
    rintro ⟨rec, hrec, hhash⟩
    exact List.find?_eq_none.mp hfind rec hrec ((h.recordOf_iff hrec).mpr hhash)
  | some rec =>
    have hrec := List.mem_of_find?_eq_some hfind
    have hhash := (h.recordOf_iff hrec).mp (List.find?_some hfind)
    have hused := h.used rec hrec
    have hholders := h.holders_eq rec hrec
    rw [if_pos (h.mem_iff.mpr ⟨rec, hrec, hhash⟩)]
    obtain ⟨hash, holders, used⟩ := rec
    dsimp only at hhash hused hholders
    rw [hhash, hused, hholders, hhash]

/-- What a lookup returns. -/
theorem TracksHolders.dhtLookup_eq (h : TracksHolders dht mentioned held) (contentHash : UInt64) :
    dhtLookup dht contentHash =
      if contentHash ∈ firstCome dhtMaxRecords mentioned then
        firstCome dhtMaxHolders (held contentHash)
      else [] := by
  have hget := h.dhtGetRecord_eq contentHash
  rw [dhtGetRecord] at hget
  rw [dhtLookup, hget]
  by_cases hmem : contentHash ∈ firstCome dhtMaxRecords mentioned
  · rw [if_pos hmem, if_pos hmem]
    exact List.take_of_length_le (length_firstCome_le _ _)
  · rw [if_neg hmem, if_neg hmem]

end TracksHolders

/-! ## Runs -/

/-- **Step.** -/
theorem TracksHolders.step {dht : DhtNode} {mentioned : List UInt64}
    {held : UInt64 → List PsirpPeer}
    (h : TracksHolders dht mentioned held) (op : DhtOp) :
    TracksHolders (dhtStep dht op).2 (mentioned ++ [op.contentHash])
      (Function.update held op.contentHash (held op.contentHash ++ op.holders)) := by
  have hmem : op.contentHash ∈ mentioned ++ [op.contentHash] :=
    List.mem_append_right _ List.mem_cons_self
  have hopen := (h.openRecord op.contentHash).foldl_addTo hmem op.holders
  cases op with
  | announce contentHash holder =>
    rw [dhtStep, dhtAnnounce_eq]
    exact hopen
  | putRecord rec =>
    rw [dhtStep, dhtPutRecord_eq dht rec.used_eq]
    exact hopen

theorem announced_concat (ops : List DhtOp) (op : DhtOp) :
    announcedHolders (ops ++ [op]) = Function.update (announcedHolders ops) op.contentHash
      (announcedHolders ops op.contentHash ++ op.holders) := by
  funext contentHash
  rw [announcedHolders, List.flatMap_append, List.flatMap_singleton]
  rcases eq_or_ne contentHash op.contentHash with rfl | hne
  · rw [if_pos rfl, Function.update_self]
    rfl
  · rw [if_neg (Ne.symm hne), List.append_nil, Function.update_of_ne hne]
    rfl

theorem tracks_exec (selfId : UInt64) (ops : List DhtOp) :
    TracksHolders (exec dhtStep (dhtInit selfId) ops) (ops.map DhtOp.contentHash)
      (announcedHolders ops) := by
  induction ops using List.reverseRecOn with
  | nil => exact tracksHolders_init selfId
  | append_singleton ops op ih =>
    rw [exec_append, List.map_append, announced_concat]
    exact ih.step op

/-- **The record store refines an ordered holder map.** After any calls it has one record for each
of the first 512 distinct hashes mentioned and none besides; a lookup returns the first 8 distinct
holders of such a hash, in order, and nothing for any other; and what a lookup returns a later call
only extends. -/
theorem dhtRecords_refine (selfId : UInt64) (ops : List DhtOp) :
    let dht := exec dhtStep (dhtInit selfId) ops
    dht.records.map DhtRecord.contentHash =
        firstCome dhtMaxRecords (ops.map DhtOp.contentHash) ∧
      (dht.records.map DhtRecord.contentHash).Nodup ∧
      (∀ contentHash, dhtGetRecord dht contentHash =
        if contentHash ∈ firstCome dhtMaxRecords (ops.map DhtOp.contentHash) then
          some ⟨contentHash, firstCome dhtMaxHolders (announcedHolders ops contentHash), true⟩
        else none) ∧
      (∀ contentHash, dhtLookup dht contentHash =
        if contentHash ∈ firstCome dhtMaxRecords (ops.map DhtOp.contentHash) then
          firstCome dhtMaxHolders (announcedHolders ops contentHash)
        else []) ∧
      ∀ op contentHash,
        dhtLookup dht contentHash <+: dhtLookup (dhtStep dht op).2 contentHash := by
  have htracks := tracks_exec selfId ops
  refine ⟨htracks.hashes_eq, htracks.keyed, htracks.dhtGetRecord_eq, htracks.dhtLookup_eq, ?_⟩
  intro op contentHash
  rw [htracks.dhtLookup_eq, (htracks.step op).dhtLookup_eq, ← announced_concat]
  split
  · rename_i hmem
    have hstays : contentHash ∈
        firstCome dhtMaxRecords (ops.map DhtOp.contentHash ++ [op.contentHash]) :=
      (isPrefix_firstCome _ _ _).subset hmem
    rw [if_pos hstays, announcedHolders, announcedHolders, List.flatMap_append]
    exact isPrefix_firstCome _ _ _
  · exact List.nil_prefix

end DsoBrowser

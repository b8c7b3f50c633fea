import DsoBrowser.Net
import DsoBrowser.Lib.Table

/-!
# Content records of the DHT

The record table of `dht.c`: which peers hold the content of a hash. A record's holder arrays and
their `holder_count` are one list. The records do not depend on the routing table of the DHT.

An announcement adds its holder under its own hash and nothing under any other
(`mem_dhtLookup_announce`, `dhtLookup_announce_of_ne`).
-/

namespace DsoBrowser

open Table

/-- `DHT_MAX_HOLDERS` -/
def dhtMaxHolders : Nat := 8

/-- The size of the record table, `DHT_K * 64`. -/
def dhtMaxRecords : Nat := 512

/-- `dht_record` -/
structure DhtRecord where
  /-- what is held -/
  contentHash : UInt64
  /-- the first `holder_count` holders -/
  holders : List PsirpPeer
  /-- whether the record counts -/
  used : Bool
  deriving DecidableEq

/-- `dht_node` -/
structure DhtNode where
  /-- our DHT id -/
  selfId : UInt64
  /-- the first `record_count` records -/
  records : List DhtRecord
  deriving DecidableEq

/-- `dht_init` -/
def dhtInit (selfId : UInt64) : DhtNode := ⟨selfId, []⟩

/-- The test of `find_record`. -/
def recordOf (contentHash : UInt64) (rec : DhtRecord) : Bool :=
  rec.used && rec.contentHash = contentHash

/-- Add a holder that is not present, while there is room. -/
def addHolder (holder : PsirpPeer) (rec : DhtRecord) : DhtRecord :=
  if rec.holders.contains holder then rec
  else if dhtMaxHolders ≤ rec.holders.length then rec
  else { rec with holders := rec.holders ++ [holder] }

/-- `dht_announce` -/
def dhtAnnounce (dht : DhtNode) (contentHash : UInt64) (holder : PsirpPeer) : DhtNode :=
  match dht.records.findIdx? (recordOf contentHash) with
  | some i => { dht with records := dht.records.modify i (addHolder holder) }
  | none =>
    if dhtMaxRecords ≤ dht.records.length then dht
    else { dht with records := dht.records ++ [addHolder holder ⟨contentHash, [], true⟩] }

/-- `dht_lookup` -/
def dhtLookup (dht : DhtNode) (contentHash : UInt64) : List PsirpPeer :=
  match dht.records.find? (recordOf contentHash) with
  | none => []
  | some rec => rec.holders.take dhtMaxHolders

/-- `dht_put_record` -/
def dhtPutRecord (dht : DhtNode) (rec : DhtRecord) : DhtNode :=
  let announceAll (dht : DhtNode) : DhtNode :=
    rec.holders.foldl (fun dht holder => dhtAnnounce dht rec.contentHash holder) dht
  if !rec.used then dht
  else
    match dht.records.findIdx? (recordOf rec.contentHash) with
    | some _ => announceAll dht
    | none =>
      if dhtMaxRecords ≤ dht.records.length then dht
      else announceAll { dht with records := dht.records ++ [⟨rec.contentHash, [], true⟩] }

/-- `dht_get_record` -/
def dhtGetRecord (dht : DhtNode) (contentHash : UInt64) : Option DhtRecord :=
  dht.records.find? (recordOf contentHash)

/-! ## What an announcement does -/

/-- There is room for a new record, and for a new holder in the record of the hash. -/
structure DhtNode.RoomFor (dht : DhtNode) (contentHash : UInt64) : Prop where
  /-- a new record -/
  records_lt : dht.records.length < dhtMaxRecords
  /-- a new holder -/
  holders_lt : ∀ rec ∈ dht.records, recordOf contentHash rec = true →
    rec.holders.length < dhtMaxHolders

instance (dht : DhtNode) (contentHash : UInt64) : Decidable (dht.RoomFor contentHash) :=
  decidable_of_iff (dht.records.length < dhtMaxRecords ∧ ∀ rec ∈ dht.records,
    recordOf contentHash rec = true → rec.holders.length < dhtMaxHolders)
    ⟨fun h => ⟨h.1, h.2⟩, fun h => ⟨h.records_lt, h.holders_lt⟩⟩

section Announce

variable {contentHash : UInt64} {holder : PsirpPeer}

theorem recordOf_addHolder (holder : PsirpPeer) (rec : DhtRecord) (contentHash : UInt64) :
    recordOf contentHash (addHolder holder rec) = recordOf contentHash rec := by
  rw [addHolder]
  split
  · rfl
  · split <;> rfl

/-- A holder that was added to a record with room is among those it lists. -/
theorem mem_take_addHolder {rec : DhtRecord} (h : rec.holders.length < dhtMaxHolders) :
    holder ∈ (addHolder holder rec).holders.take dhtMaxHolders := by
  rw [addHolder]
  split
  · rename_i hmem
    rw [List.take_of_length_le h.le]
    simpa using hmem
  · rw [if_neg (Nat.not_le.mpr h)]
    change holder ∈ (rec.holders ++ [holder]).take dhtMaxHolders
    rw [List.take_of_length_le (by rw [List.length_append]; exact h)]
    exact List.mem_append_right _ (List.mem_singleton_self _)

/-- Everything an announcement can do: add to the first record of the hash, make one, or nothing. -/
theorem dhtAnnounce_cases (dht : DhtNode) (contentHash : UInt64) (holder : PsirpPeer) :
    (∃ l₁ rec l₂, dht.records = l₁ ++ rec :: l₂ ∧ (∀ r ∈ l₁, recordOf contentHash r = false) ∧
      recordOf contentHash rec = true ∧
      dhtAnnounce dht contentHash holder = { dht with records := l₁ ++ addHolder holder rec :: l₂ }) ∨
    (∀ r ∈ dht.records, recordOf contentHash r = false) ∧
      ((dhtMaxRecords ≤ dht.records.length ∧ dhtAnnounce dht contentHash holder = dht) ∨
        dhtAnnounce dht contentHash holder = { dht with
          records := dht.records ++ [addHolder holder ⟨contentHash, [], true⟩] }) := by
  rw [dhtAnnounce]
  rcases cut_at_first (recordOf contentHash) dht.records with hnone | ⟨l₁, rec, l₂, hl, h₁, hrec⟩
  · rw [List.findIdx?_eq_none_iff.mpr hnone]
    refine Or.inr ⟨hnone, ?_⟩
    simp only
    split
    · rename_i hfull
      exact Or.inl ⟨hfull, rfl⟩
    · exact Or.inr rfl
  · refine Or.inl ⟨l₁, rec, l₂, hl, h₁, hrec, ?_⟩
    simp only [hl, findIdx?_append_cons h₁ hrec, modify_append_cons]

/-- **Announced.** The holder is found under the hash. -/
theorem mem_dhtLookup_announce {dht : DhtNode} (hroom : dht.RoomFor contentHash) :
    holder ∈ dhtLookup (dhtAnnounce dht contentHash holder) contentHash := by
  rcases dhtAnnounce_cases dht contentHash holder with
    ⟨l₁, rec, l₂, hl, h₁, hrec, hs⟩ | ⟨hnone, ⟨hfull, -⟩ | hs⟩
  · have hlt := hroom.holders_lt rec (by rw [hl]; simp) hrec
    have hfound : (l₁ ++ addHolder holder rec :: l₂).find? (recordOf contentHash) =
        some (addHolder holder rec) := by
      rw [List.find?_append, List.find?_eq_none.mpr fun r hr => by simp [h₁ r hr], Option.none_or,
        List.find?_cons_of_pos ((recordOf_addHolder ..).trans hrec)]
    rw [hs, dhtLookup, hfound]
    exact mem_take_addHolder hlt
  · exact absurd hroom.records_lt (Nat.not_lt.mpr hfull)
  · have hnew : recordOf contentHash ⟨contentHash, [], true⟩ = true := by simp [recordOf]
    have hfound : (dht.records ++ [addHolder holder ⟨contentHash, [], true⟩]).find?
        (recordOf contentHash) = some (addHolder holder ⟨contentHash, [], true⟩) := by
      rw [List.find?_append, List.find?_eq_none.mpr fun r hr => by simp [hnone r hr],
        Option.none_or, List.find?_cons_of_pos ((recordOf_addHolder ..).trans hnew)]
    rw [hs, dhtLookup, hfound]
    exact mem_take_addHolder (show 0 < dhtMaxHolders by decide)

/-- **Not announced.** What is found under another hash is what was found before. -/
theorem dhtLookup_announce_of_ne (dht : DhtNode) {other : UInt64} (h : other ≠ contentHash) :
    dhtLookup (dhtAnnounce dht contentHash holder) other = dhtLookup dht other := by
  have hother : ∀ rec, recordOf contentHash rec = true → recordOf other rec = false := by
    intro rec hrec
    simp only [recordOf, Bool.and_eq_true, decide_eq_true_eq] at hrec
    simp [recordOf, hrec.2, Ne.symm h]
  have hskip : ∀ rec, recordOf contentHash rec = true →
      recordOf other (addHolder holder rec) = false := fun rec hrec =>
    (recordOf_addHolder ..).trans (hother rec hrec)
  rcases dhtAnnounce_cases dht contentHash holder with
    ⟨l₁, rec, l₂, hl, -, hrec, hs⟩ | ⟨-, ⟨-, hs⟩ | hs⟩
  · rw [hs, dhtLookup, dhtLookup, hl, List.find?_append, List.find?_append,
      List.find?_cons_of_neg (by simp [hskip rec hrec]),
      List.find?_cons_of_neg (by simp [hother rec hrec])]
  · rw [hs]
  · rw [hs, dhtLookup, dhtLookup, List.find?_append,
      List.find?_cons_of_neg (by simp [hskip ⟨contentHash, [], true⟩ (by simp [recordOf])]),
      List.find?_nil, Option.or_none]

end Announce

end DsoBrowser

import DsoBrowser.Chunk
import DsoBrowser.Dht

/-!
# Publish and subscribe

The topic table of `pubsub.c`. The topic array and its `topic_count` are one list, and a topic is
found by `psirp_name_equal` with the name given, although the name stored in it was rebuilt from the
components. A publisher tells the DHT, if there is one, who it is.
-/

namespace DsoBrowser

/-- `PUBSUB_MAX_TOPICS` -/
def pubsubMaxTopics : Nat := 256

/-- `pubsub_topic` -/
structure PubsubTopic where
  /-- base name, without a version -/
  base : PsirpName
  /-- highest version seen, `0` for none -/
  highest : UInt64
  /-- set in every topic -/
  active : Bool
  deriving DecidableEq

/-- `pubsub_ctx` -/
structure PubsubCtx where
  /-- DHT node, if one is used -/
  dht : Option DhtNode
  /-- the first `topic_count` topics -/
  topics : List PubsubTopic
  /-- our address, in host order -/
  selfIp : UInt32
  /-- our port, in host order -/
  selfPort : UInt16

/-- `pubsub_init` -/
def pubsubInit (dht : Option DhtNode) (selfIp : UInt32) (selfPort : UInt16) : PubsubCtx :=
  ⟨dht, [], selfIp, selfPort⟩

/-- `htonl` on a little-endian machine -/
def htonl (x : UInt32) : UInt32 :=
  (x >>> 24) ||| (x >>> 8 &&& (0xff00 : UInt32)) ||| (x <<< 8 &&& (0xff0000 : UInt32)) |||
    (x <<< 24)

/-- Our address and port as the DHT has them. -/
def PubsubCtx.self (ctx : PubsubCtx) : PsirpPeer := ⟨htonl ctx.selfIp, htons ctx.selfPort⟩

/-- The test of `find_topic`. -/
def isTopic (base : PsirpName) (t : PubsubTopic) : Bool := psirpNameEqual t.base base

/-- `find_topic` -/
def findTopic (ctx : PubsubCtx) (base : PsirpName) : Option PubsubTopic :=
  ctx.topics.find? (isTopic base)

/-- A new topic. The verdict of `psirp_name_init_components` is ignored. -/
def newTopic (base : PsirpName) (highest : UInt64) : PubsubTopic :=
  ⟨(psirpNameInitComponents base.components).2, highest, true⟩

/-- Announce ourselves as a holder, if there is a DHT. -/
def PubsubCtx.announce (ctx : PubsubCtx) (base : PsirpName) : PubsubCtx :=
  { ctx with dht := ctx.dht.map fun dht => dhtAnnounce dht base.hash ctx.self }

/-- `pubsub_publish` -/
def pubsubPublish (ctx : PubsubCtx) (base : PsirpName) (version : UInt64) : Bool × PubsubCtx :=
  match ctx.topics.findIdx? (isTopic base) with
  | none =>
    if pubsubMaxTopics ≤ ctx.topics.length then (false, ctx)
    else (true, { ctx with topics := ctx.topics ++ [newTopic base version] }.announce base)
  | some i =>
    if (ctx.topics[i]?).any fun t => version ≤ t.highest then (false, ctx)
    else
      (true, { ctx with
        topics := ctx.topics.modify i fun t => { t with highest := version } }.announce base)

/-- `pubsub_subscribe` -/
def pubsubSubscribe (ctx : PubsubCtx) (base : PsirpName) : PubsubCtx :=
  if (findTopic ctx base).isSome then ctx
  else if pubsubMaxTopics ≤ ctx.topics.length then ctx
  else { ctx with topics := ctx.topics ++ [newTopic base 0] }

/-- `pubsub_poll`: the version it reports, `none` for `false`. It looks the name up in the DHT,
too, but makes no use of the answer. -/
def pubsubPoll (ctx : PubsubCtx) (base : PsirpName) : Option UInt64 :=
  (findTopic ctx base).bind fun t => if t.highest = 0 then none else some t.highest

/-- The text `pubsub_versioned_name` parses. -/
def versionedText (base : PsirpName) (version : UInt64) : CString :=
  snprintf psirpMaxName
    (psirpNameToString base psirpMaxName ++ atSign :: decimal version.toNat)

/-- `pubsub_versioned_name` -/
def pubsubVersionedName (base : PsirpName) (version : UInt64) : Bool × PsirpName :=
  psirpNameInit (versionedText base version)

/-- `/news` -/
def newsName : PsirpName := (psirpNameInit (text ['/', 'n', 'e', 'w', 's'])).2

/-! ## The topic table as a machine -/

/-- A call on a context. -/
inductive PubsubOp where
  /-- `pubsub_publish` -/
  | publish : PsirpName → UInt64 → PubsubOp
  /-- `pubsub_subscribe` -/
  | subscribe : PsirpName → PubsubOp
  /-- `pubsub_poll` -/
  | poll : PsirpName → PubsubOp

/-- The base name a call is about. -/
def PubsubOp.base : PubsubOp → PsirpName
  | .publish base _ => base
  | .subscribe base => base
  | .poll base => base

/-- What a call returns. -/
inductive PubsubAnswer where
  /-- nothing -/
  | done : PubsubAnswer
  /-- a verdict -/
  | verdict : Bool → PubsubAnswer
  /-- a version, `none` for `false` -/
  | version : Option UInt64 → PubsubAnswer

/-- One call. -/
def pubsubStep (ctx : PubsubCtx) : PubsubOp → PubsubAnswer × PubsubCtx
  | .publish base version =>
    let (ok, ctx') := pubsubPublish ctx base version
    (.verdict ok, ctx')
  | .subscribe base => (.done, pubsubSubscribe ctx base)
  | .poll base => (.version (pubsubPoll ctx base), ctx)

/-! ## What the operations do -/

/-- Everything a publication can do: be refused for lack of room, open a topic, be refused as not
newer, or raise the version of the first topic that matches. -/
theorem pubsubPublish_cases (ctx : PubsubCtx) (base : PsirpName) (version : UInt64) :
    (ctx.topics.findIdx? (isTopic base) = none ∧
      ((pubsubMaxTopics ≤ ctx.topics.length ∧ pubsubPublish ctx base version = (false, ctx)) ∨
        ctx.topics.length < pubsubMaxTopics ∧ pubsubPublish ctx base version =
          (true, { ctx with topics := ctx.topics ++ [newTopic base version] }.announce base))) ∨
    ∃ i t, ctx.topics.findIdx? (isTopic base) = some i ∧ ctx.topics[i]? = some t ∧
      isTopic base t = true ∧
      ((version ≤ t.highest ∧ pubsubPublish ctx base version = (false, ctx)) ∨
        t.highest < version ∧ pubsubPublish ctx base version = (true, { ctx with
          topics := ctx.topics.modify i fun t => { t with highest := version } }.announce base)) := by
  rw [pubsubPublish]
  cases hi : ctx.topics.findIdx? (isTopic base) with
  | none =>
    refine Or.inl ⟨rfl, ?_⟩
    rcases Nat.lt_or_ge ctx.topics.length pubsubMaxTopics with hlt | hge
    · exact Or.inr ⟨hlt, if_neg (Nat.not_le.mpr hlt)⟩
    · exact Or.inl ⟨hge, if_pos hge⟩
  | some i =>
    obtain ⟨hlt, hmatch, -⟩ := List.findIdx?_eq_some_iff_getElem.mp hi
    have ht : ctx.topics[i]? = some ctx.topics[i] := List.getElem?_eq_getElem hlt
    refine Or.inr ⟨i, ctx.topics[i], rfl, ht, hmatch, ?_⟩
    simp only [ht, Option.any_some, decide_eq_true_eq]
    rcases UInt64.lt_or_le ctx.topics[i].highest version with hnew | hold
    · exact Or.inr ⟨hnew, if_neg (UInt64.not_le.mpr hnew)⟩
    · exact Or.inl ⟨hold, if_pos hold⟩

/-- What an accepted publication does to the DHT. -/
theorem dht_of_published {ctx : PubsubCtx} {base : PsirpName} {version : UInt64}
    (h : (pubsubPublish ctx base version).1 = true) :
    (pubsubPublish ctx base version).2.dht =
        ctx.dht.map (fun dht => dhtAnnounce dht base.hash ctx.self) ∧
      (pubsubPublish ctx base version).2.self = ctx.self := by
  rcases pubsubPublish_cases ctx base version with
    ⟨-, ⟨-, hs⟩ | ⟨-, hs⟩⟩ | ⟨i, t, -, -, -, ⟨-, hs⟩ | ⟨-, hs⟩⟩
  · rw [hs] at h
    cases h
  · rw [hs]
    exact ⟨rfl, rfl⟩
  · rw [hs] at h
    cases h
  · rw [hs]
    exact ⟨rfl, rfl⟩

end DsoBrowser

import DsoBrowser.Pubsub
import DsoBrowser.StoredNames
import DsoBrowser.Lib.Machine
import Mathlib.Data.Finset.Card

/-!
# Topic versions move forward

Over runs of publications, subscriptions and polls: a publication is accepted exactly if it is newer
than all accepted before under the same components, and no components have two topics
(`GoesForward`). Two things can go wrong (`goesForward_iff`):

* a name that is not hashed over its own components never matches the topic it opened, because the
  name in the topic is rebuilt from the components;
* a topic that was only subscribed to has version `0`, so a first version `0` is refused.

The **invariant** is `Tracks`: one topic for each component list that was published or subscribed
to, with the greatest version accepted.
-/

namespace DsoBrowser

open Machine Table

/-! ## What a run has seen -/

/-- A base name: what `psirp_name_init` makes of a path without a version. -/
def TopicBase (base : PsirpName) : Prop := ∃ path, atSign ∉ path ∧ psirpNameInit path = (true, base)

/-- The call publishes under the components or subscribes to them. -/
def PubsubOp.Mentions (components : List CString) : PubsubOp → Prop
  | .publish base _ => base.components = components
  | .subscribe base => base.components = components
  | .poll _ => False

/-- The call publishes under the components. -/
def PubsubOp.Publishes (components : List CString) : PubsubOp → Prop
  | .publish base _ => base.components = components
  | _ => False

/-- Some call published under the components or subscribed to them. -/
def Mentioned (ops : List PubsubOp) (components : List CString) : Prop :=
  ∃ op ∈ ops, op.Mentions components

/-- Some call published under the components. -/
def PublishedUnder (ops : List PubsubOp) (components : List CString) : Prop :=
  ∃ op ∈ ops, op.Publishes components

/-- The version a call gets accepted, with the components it is accepted under. -/
def acceptedBy (ctx : PubsubCtx) : PubsubOp → List (List CString × UInt64)
  | .publish base version =>
    if (pubsubPublish ctx base version).1 then [(base.components, version)] else []
  | _ => []

/-- The versions a run gets accepted. -/
def accepted (ctx : PubsubCtx) : List PubsubOp → List (List CString × UInt64)
  | [] => []
  | op :: ops => acceptedBy ctx op ++ accepted (pubsubStep ctx op).2 ops

/-- The table has one topic for each component list at most. -/
def OneTopicEach (ctx : PubsubCtx) : Prop :=
  ctx.topics.Pairwise fun s t => s.base.components ≠ t.base.components

/-- A publication is accepted exactly if it is newer than all accepted before under its components,
and the table it leaves has one topic for each component list. -/
structure GoesForward (ctx : PubsubCtx) (before : List PubsubOp) (op : PubsubOp) : Prop where
  /-- newer versions are accepted, and no others -/
  newer : ∀ base version, op = .publish base version →
    ((pubsubPublish (exec pubsubStep ctx before) base version).1 = true ↔
      ∀ u, (base.components, u) ∈ accepted ctx before → u < version)
  /-- no topic is opened twice -/
  one_topic : OneTopicEach (exec pubsubStep ctx (before ++ [op]))

/-- The name is hashed over its components, or they are mentioned for the first time; and version
`0` is not the first one published where there was a subscription. -/
def StaysFound (before : List PubsubOp) : PubsubOp → Prop
  | .publish base version =>
    (base.SelfHashed ∨ ¬ Mentioned before base.components) ∧
      (version = 0 → Mentioned before base.components → PublishedUnder before base.components)
  | .subscribe base => base.SelfHashed ∨ ¬ Mentioned before base.components
  | .poll _ => True

theorem mentioned_concat (ops : List PubsubOp) (op : PubsubOp) (k : List CString) :
    Mentioned (ops ++ [op]) k ↔ Mentioned ops k ∨ op.Mentions k := by
  simp [Mentioned, or_and_right, exists_or]

theorem publishedUnder_concat (ops : List PubsubOp) (op : PubsubOp) (k : List CString) :
    PublishedUnder (ops ++ [op]) k ↔ PublishedUnder ops k ∨ op.Publishes k := by
  simp [PublishedUnder, or_and_right, exists_or]

theorem accepted_concat (ctx : PubsubCtx) (ops : List PubsubOp) (op : PubsubOp) :
    accepted ctx (ops ++ [op]) = accepted ctx ops ++ acceptedBy (exec pubsubStep ctx ops) op := by
  induction ops generalizing ctx with
  | nil => simp [accepted]
  | cons o ops ih =>
    rw [List.cons_append, accepted, ih, accepted, exec_cons, List.append_assoc]

/-- What was accepted was published. -/
theorem publishedUnder_of_accepted {ctx : PubsubCtx} {ops : List PubsubOp} {k : List CString}
    {u : UInt64} (h : (k, u) ∈ accepted ctx ops) : PublishedUnder ops k := by
  induction ops generalizing ctx with
  | nil => cases h
  | cons op ops ih =>
    rcases List.mem_append.mp h with h | h
    · refine ⟨op, List.mem_cons_self, ?_⟩
      cases op with
      | publish base version =>
        simp only [acceptedBy] at h
        split at h
        · exact (Prod.mk.inj (List.mem_singleton.mp h)).1.symm
        · cases h
      | subscribe base => cases h
      | poll base => cases h
    · obtain ⟨o, ho, hk⟩ := ih h
      exact ⟨o, List.mem_cons_of_mem _ ho, hk⟩

/-- Components published under are mentioned. -/
theorem PublishedUnder.mentioned {ops : List PubsubOp} {k : List CString}
    (h : PublishedUnder ops k) : Mentioned ops k := by
  obtain ⟨op, hop, hk⟩ := h
  refine ⟨op, hop, ?_⟩
  cases op with
  | publish base version => exact hk
  | subscribe base => exact hk.elim
  | poll base => exact hk

theorem TopicBase.plain {base : PsirpName} (h : TopicBase base) :
    ∀ c ∈ base.components, PlainComponent c := by
  obtain ⟨path, -, hinit⟩ := h
  have hparsed : Parsed base := ⟨path, hinit⟩
  exact hparsed.wellFormed.plain

/-- The name in a new topic has the components, and is hashed over them. -/
theorem base_newTopic {base : PsirpName} (h : TopicBase base) (highest : UInt64) :
    (newTopic base highest).base.components = base.components ∧
      (newTopic base highest).base.SelfHashed := by
  rw [newTopic, psirpNameInitComponents_of_plain h.plain base.count_le]
  exact ⟨rfl, rfl⟩

/-! ## The invariant -/

/-- What a topic says about the versions of its components: none was published, or the greatest one
accepted is its version. -/
def TellsHighest (ctx : PubsubCtx) (ops : List PubsubOp) (t : PubsubTopic) : Prop :=
  (¬ PublishedUnder ops t.base.components ∧ t.highest = 0) ∨
    ((t.base.components, t.highest) ∈ accepted ctx ops ∧
      ∀ u, (t.base.components, u) ∈ accepted ctx ops → u ≤ t.highest)

/-- What the table is after a run from `ctx`. -/
structure Tracks (ctx : PubsubCtx) (ops : List PubsubOp) : Prop where
  /-- one topic for each component list -/
  keyed : Keyed (fun t : PubsubTopic => t.base.components) (exec pubsubStep ctx ops).topics
  /-- hashed over it -/
  selfHashed : ∀ t ∈ (exec pubsubStep ctx ops).topics, t.base.SelfHashed
  /-- that was published or subscribed to -/
  mentioned : ∀ k, (∃ t ∈ (exec pubsubStep ctx ops).topics, t.base.components = k) ↔
    Mentioned ops k
  /-- with its version -/
  highest : ∀ t ∈ (exec pubsubStep ctx ops).topics, TellsHighest ctx ops t

/-- The domain of the runs: base names, of fewer component lists than there is room for. -/
structure TopicRun (ops : List PubsubOp) : Prop where
  /-- base names -/
  bases : ∀ op ∈ ops, TopicBase op.base
  /-- few component lists -/
  few : (ops.map fun op => op.base.components).toFinset.card < pubsubMaxTopics

theorem tracks_nil {ctx : PubsubCtx} (h : ctx.topics = []) : Tracks ctx [] := by
  refine ⟨?_, ?_, ?_, ?_⟩
  · rw [exec_nil, h]
    exact List.nodup_nil
  · rw [exec_nil, h]
    exact fun t ht => absurd ht List.not_mem_nil
  · rw [exec_nil, h]
    simp [Mentioned]
  · rw [exec_nil, h]
    exact fun t ht => absurd ht List.not_mem_nil

section Step

variable {ctx : PubsubCtx} {ops : List PubsubOp}

/-- As long as there are few component lists, there is room for one more topic. -/
theorem Tracks.room (h : Tracks ctx ops) {more : List PubsubOp}
    (hfew : ((ops ++ more).map fun op => op.base.components).toFinset.card < pubsubMaxTopics) :
    (exec pubsubStep ctx ops).topics.length < pubsubMaxTopics := by
  have hsub : ((exec pubsubStep ctx ops).topics.map fun t => t.base.components).toFinset ⊆
      ((ops ++ more).map fun op => op.base.components).toFinset := by
    intro k hk
    obtain ⟨t, ht, rfl⟩ := List.mem_map.mp (List.mem_toFinset.mp hk)
    obtain ⟨op, hop, hmention⟩ := (h.mentioned _).mp ⟨t, ht, rfl⟩
    refine List.mem_toFinset.mpr (List.mem_map.mpr ⟨op, List.mem_append_left _ hop, ?_⟩)
    cases op with
    | publish base version => exact hmention
    | subscribe base => exact hmention
    | poll base => cases hmention
  have hcard := Finset.card_le_card hsub
  rw [List.toFinset_card_of_nodup h.keyed, List.length_map] at hcard
  exact hcard.trans_lt hfew

/-- A name whose components were mentioned is found exactly if it is hashed over them; then it is
found at the one topic that has them. -/
theorem Tracks.find (h : Tracks ctx ops) (base : PsirpName) :
    ((exec pubsubStep ctx ops).topics.findIdx? (isTopic base) = none ∧
      (¬ base.SelfHashed ∨ ¬ Mentioned ops base.components)) ∨
    (base.SelfHashed ∧ Mentioned ops base.components ∧ ∃ i t,
      (exec pubsubStep ctx ops).topics.findIdx? (isTopic base) = some i ∧
      (exec pubsubStep ctx ops).topics[i]? = some t ∧ t.base.components = base.components) := by
  have hmatch : ∀ t ∈ (exec pubsubStep ctx ops).topics,
      (isTopic base t = true ↔ base.SelfHashed ∧ t.base.components = base.components) :=
    fun t ht => psirpNameEqual_of_selfHashed (h.selfHashed t ht)
  cases hi : (exec pubsubStep ctx ops).topics.findIdx? (isTopic base) with
  | none =>
    refine Or.inl ⟨rfl, ?_⟩
    by_contra hno
    obtain ⟨hself, hmention⟩ := not_or.mp hno
    obtain ⟨t, ht, hcomps⟩ := (h.mentioned _).mpr (not_not.mp hmention)
    have hmiss := List.findIdx?_eq_none_iff.mp hi t ht
    rw [(hmatch t ht).mpr ⟨not_not.mp hself, hcomps⟩] at hmiss
    cases hmiss
  | some i =>
    obtain ⟨hlt, htrue, -⟩ := List.findIdx?_eq_some_iff_getElem.mp hi
    have hmem := List.getElem_mem hlt
    obtain ⟨hself, hcomps⟩ := (hmatch _ hmem).mp htrue
    exact Or.inr ⟨hself, (h.mentioned _).mp ⟨_, hmem, hcomps⟩, i, _, rfl,
      List.getElem?_eq_getElem hlt, hcomps⟩

/-- A call that does not mention the components of a topic changes nothing it says. -/
theorem TellsHighest.frame {t : PubsubTopic} (h : TellsHighest ctx ops t) {op : PubsubOp}
    (hop : ¬ op.Mentions t.base.components) : TellsHighest ctx (ops ++ [op]) t := by
  have hnone : ∀ u, (t.base.components, u) ∉ acceptedBy (exec pubsubStep ctx ops) op := by
    intro u hu
    cases op with
    | publish base version =>
      simp only [acceptedBy] at hu
      split at hu
      · exact hop (Prod.mk.inj (List.mem_singleton.mp hu)).1.symm
      · cases hu
    | subscribe base => cases hu
    | poll base => cases hu
  have hpub : ¬ op.Publishes t.base.components := fun hp => by
    cases op with
    | publish base version => exact hop hp
    | subscribe base => exact hp
    | poll base => exact hp
  have hacc : ∀ u, (t.base.components, u) ∈ accepted ctx (ops ++ [op]) ↔
      (t.base.components, u) ∈ accepted ctx ops := by
    intro u
    rw [accepted_concat, List.mem_append, or_iff_left (hnone u)]
  rw [TellsHighest, publishedUnder_concat, or_iff_left hpub]
  simp only [hacc]
  exact h

theorem accepted_publish {base : PsirpName} {version : UInt64}
    (h : (pubsubPublish (exec pubsubStep ctx ops) base version).1 = true) :
    accepted ctx (ops ++ [.publish base version]) =
      accepted ctx ops ++ [(base.components, version)] := by
  rw [accepted_concat, acceptedBy, if_pos h]

/-- An accepted publication of a version no smaller than those before it is what its topic tells. -/
theorem tellsHighest_publish {base : PsirpName} {version : UInt64} {t : PubsubTopic}
    (h : (pubsubPublish (exec pubsubStep ctx ops) base version).1 = true)
    (hle : ∀ u, (base.components, u) ∈ accepted ctx ops → u ≤ version)
    (hcomps : t.base.components = base.components) (hver : t.highest = version) :
    TellsHighest ctx (ops ++ [.publish base version]) t := by
  rw [TellsHighest, hcomps, hver, accepted_publish h]
  refine Or.inr ⟨List.mem_append_right _ (List.mem_singleton_self _), fun u hu => ?_⟩
  rcases List.mem_append.mp hu with hu | hu
  · exact hle u hu
  · rw [(Prod.mk.inj (List.mem_singleton.mp hu)).2]
    exact UInt64.le_refl _

/-- A call that leaves the topics alone. -/
theorem Tracks.unchanged (h : Tracks ctx ops) {op : PubsubOp}
    (htopics : (exec pubsubStep ctx (ops ++ [op])).topics = (exec pubsubStep ctx ops).topics)
    (hknown : ∀ k, op.Mentions k → Mentioned ops k)
    (htells : ∀ t ∈ (exec pubsubStep ctx ops).topics, op.Mentions t.base.components →
      TellsHighest ctx (ops ++ [op]) t) : Tracks ctx (ops ++ [op]) := by
  refine ⟨?_, ?_, fun k => ?_, ?_⟩
  · rw [htopics]
    exact h.keyed
  · rw [htopics]
    exact h.selfHashed
  · rw [htopics, h.mentioned, mentioned_concat]
    exact (or_iff_left_of_imp (hknown k)).symm
  · rw [htopics]
    intro t ht
    by_cases hop : op.Mentions t.base.components
    · exact htells t ht hop
    · exact (h.highest t ht).frame hop

/-- A call that opens a topic, under components that were not mentioned before. -/
theorem Tracks.opened (h : Tracks ctx ops) {op : PubsubOp} {base : PsirpName} {version : UInt64}
    (hbase : TopicBase base) (hnew : ¬ Mentioned ops base.components)
    (hop : ∀ k, op.Mentions k ↔ base.components = k)
    (htopics : (exec pubsubStep ctx (ops ++ [op])).topics =
      (exec pubsubStep ctx ops).topics ++ [newTopic base version])
    (htells : TellsHighest ctx (ops ++ [op]) (newTopic base version)) :
    Tracks ctx (ops ++ [op]) := by
  obtain ⟨hcomps, hself⟩ := base_newTopic hbase version
  have hother : ∀ t ∈ (exec pubsubStep ctx ops).topics, t.base.components ≠ base.components :=
    fun t ht he => hnew ((h.mentioned _).mp ⟨t, ht, he⟩)
  refine ⟨?_, ?_, fun k => ?_, ?_⟩
  · rw [htopics]
    exact h.keyed.concat fun t ht => by rw [hcomps]; exact hother t ht
  · rw [htopics]
    intro t ht
    rcases List.mem_append.mp ht with ht | ht
    · exact h.selfHashed t ht
    · rw [List.mem_singleton.mp ht]
      exact hself
  · rw [htopics, mentioned_concat, hop, ← h.mentioned]
    simp [or_and_right, exists_or, hcomps]
  · rw [htopics]
    intro t ht
    rcases List.mem_append.mp ht with ht | ht
    · exact (h.highest t ht).frame fun hm => hother t ht ((hop _).mp hm).symm
    · rw [List.mem_singleton.mp ht]
      exact htells

/-- A publication that raises the version of its topic. -/
theorem Tracks.raised (h : Tracks ctx ops) {base : PsirpName} {version : UInt64} {i : Nat}
    {t : PubsubTopic} (hi : (exec pubsubStep ctx ops).topics[i]? = some t)
    (hcomps : t.base.components = base.components) (hnewer : t.highest < version)
    (hpub : pubsubPublish (exec pubsubStep ctx ops) base version =
      (true, { exec pubsubStep ctx ops with
        topics := (exec pubsubStep ctx ops).topics.modify i fun t =>
          { t with highest := version } }.announce base)) :
    Tracks ctx (ops ++ [.publish base version]) := by
  have htopics : (exec pubsubStep ctx (ops ++ [.publish base version])).topics =
      (exec pubsubStep ctx ops).topics.modify i fun t => { t with highest := version } := by
    rw [exec_append, exec_cons, exec_nil, pubsubStep, hpub]
    rfl
  have hmem := List.mem_of_getElem? hi
  refine ⟨?_, ?_, fun k => ?_, ?_⟩
  · rw [htopics]
    exact h.keyed.modify fun _ => rfl
  · rw [htopics]
    intro s hs
    rcases mem_modify hs with hs | ⟨s₀, hs₀, rfl⟩
    · exact h.selfHashed s hs
    · exact h.selfHashed s₀ (List.mem_of_getElem? hs₀)
  · have hkeys : ((exec pubsubStep ctx (ops ++ [.publish base version])).topics.map fun t =>
        t.base.components) = (exec pubsubStep ctx ops).topics.map fun t => t.base.components := by
      rw [htopics]
      exact map_modify_of_comp fun _ => rfl
    have hiff : (∃ s ∈ (exec pubsubStep ctx (ops ++ [.publish base version])).topics,
        s.base.components = k) ↔ ∃ s ∈ (exec pubsubStep ctx ops).topics, s.base.components = k := by
      rw [← List.mem_map, hkeys, List.mem_map]
    rw [hiff, h.mentioned, mentioned_concat]
    refine (or_iff_left_of_imp fun hk => ?_).symm
    exact (h.mentioned k).mp ⟨t, hmem, hcomps.trans hk⟩
  · rw [htopics]
    intro s hs
    -- the raised topic tells the new version, the others have other components
    have hraised : TellsHighest ctx (ops ++ [.publish base version])
        { t with highest := version } := by
      refine tellsHighest_publish (by rw [hpub]) (fun u hu => ?_) hcomps rfl
      have htells := h.highest t hmem
      rw [TellsHighest, hcomps] at htells
      rcases htells with ⟨hunpublished, -⟩ | ⟨-, hle⟩
      · exact absurd (publishedUnder_of_accepted hu) hunpublished
      · exact UInt64.le_of_lt (UInt64.lt_of_le_of_lt (hle u hu) hnewer)
    obtain ⟨j, hj⟩ := List.mem_iff_getElem?.mp hs
    rcases eq_or_ne i j with rfl | hne
    · rw [List.getElem?_modify_eq, hi] at hj
      rw [← Option.some.inj hj]
      exact hraised
    · rw [List.getElem?_modify_ne _ _ hne] at hj
      refine (h.highest s (List.mem_of_getElem? hj)).frame fun hm => hne ?_
      exact h.keyed.index_inj hi hj (hcomps.trans hm)

/-- A subscription to a name that is not found opens a topic, if there is room. -/
theorem topics_of_notFound {base : PsirpName}
    (hnone : (exec pubsubStep ctx ops).topics.findIdx? (isTopic base) = none)
    (hroom : (exec pubsubStep ctx ops).topics.length < pubsubMaxTopics) :
    (exec pubsubStep ctx (ops ++ [.subscribe base])).topics =
      (exec pubsubStep ctx ops).topics ++ [newTopic base 0] := by
  have hfind : findTopic (exec pubsubStep ctx ops) base = none := by
    rw [findTopic, List.find?_eq_none]
    intro t ht
    simpa using List.findIdx?_eq_none_iff.mp hnone t ht
  rw [exec_append, exec_cons, exec_nil, pubsubStep, pubsubSubscribe, hfind, if_neg (by simp),
    if_neg (Nat.not_le.mpr hroom)]

/-- A subscription to mentioned components finds its topic; the first mention opens one. -/
theorem Tracks.subscribe (h : Tracks ctx ops) {base : PsirpName} (hbase : TopicBase base)
    (hroom : (exec pubsubStep ctx ops).topics.length < pubsubMaxTopics)
    (hop : base.SelfHashed ∨ ¬ Mentioned ops base.components) :
    Tracks ctx (ops ++ [.subscribe base]) := by
  have hexec : exec pubsubStep ctx (ops ++ [.subscribe base]) =
      pubsubSubscribe (exec pubsubStep ctx ops) base := by
    rw [exec_append, exec_cons, exec_nil, pubsubStep]
  rcases h.find base with ⟨hnone, hmiss⟩ | ⟨-, hmention, i, t, hi, ht, hcomps⟩
  · have hnew : ¬ Mentioned ops base.components :=
      hop.elim (fun hself => hmiss.resolve_left (not_not.mpr hself)) id
    refine h.opened hbase hnew (fun _ => Iff.rfl) (topics_of_notFound hnone hroom)
      (Or.inl ⟨?_, rfl⟩)
    rw [(base_newTopic hbase 0).1, publishedUnder_concat]
    rintro (hpub | hpub)
    · exact hnew hpub.mentioned
    · exact hpub
  · have hfind : (findTopic (exec pubsubStep ctx ops) base).isSome = true := by
      rw [findTopic, List.find?_isSome]
      obtain ⟨hlt, htrue, -⟩ := List.findIdx?_eq_some_iff_getElem.mp hi
      exact ⟨_, List.getElem_mem hlt, htrue⟩
    refine h.unchanged ?_ (fun k hk => hk ▸ hmention) fun s hs _ => ?_
    · rw [hexec, pubsubSubscribe, if_pos hfind]
    · have hacc : accepted ctx (ops ++ [.subscribe base]) = accepted ctx ops := by
        rw [accepted_concat]
        exact List.append_nil _
      have hpub : PublishedUnder (ops ++ [.subscribe base]) s.base.components ↔
          PublishedUnder ops s.base.components :=
        (publishedUnder_concat ..).trans (or_iff_left id)
      rw [TellsHighest, hpub, hacc]
      exact h.highest s hs

/-- The verdict on a publication under components that are found or new. -/
theorem Tracks.publish (h : Tracks ctx ops) {base : PsirpName} {version : UInt64}
    (hbase : TopicBase base)
    (hroom : (exec pubsubStep ctx ops).topics.length < pubsubMaxTopics)
    (hop : StaysFound ops (.publish base version)) :
    Tracks ctx (ops ++ [.publish base version]) ∧
      ((pubsubPublish (exec pubsubStep ctx ops) base version).1 = true ↔
        ∀ u, (base.components, u) ∈ accepted ctx ops → u < version) := by
  obtain ⟨hself, hzero⟩ := hop
  have hexec : exec pubsubStep ctx (ops ++ [.publish base version]) =
      (pubsubPublish (exec pubsubStep ctx ops) base version).2 := by
    rw [exec_append, exec_cons, exec_nil, pubsubStep]
  have hfound := h.find base
  rcases pubsubPublish_cases (exec pubsubStep ctx ops) base version with
    ⟨hnone, ⟨hfull, -⟩ | ⟨-, hpub⟩⟩ | ⟨i, t, hi, ht, -, hverdict⟩
  · exact absurd hroom (Nat.not_lt.mpr hfull)
  · -- the first mention of the components opens a topic
    rcases hfound with ⟨-, hmiss⟩ | ⟨-, -, i, t, hi, -, -⟩
    · have hnew : ¬ Mentioned ops base.components :=
        hself.elim (fun hself => hmiss.resolve_left (not_not.mpr hself)) id
      have hnone : ∀ u, (base.components, u) ∉ accepted ctx ops := fun u hu =>
        hnew (publishedUnder_of_accepted hu).mentioned
      refine ⟨h.opened hbase hnew (fun _ => Iff.rfl) (by rw [hexec, hpub]; rfl) ?_, ?_⟩
      · exact tellsHighest_publish (by rw [hpub]) (fun u hu => absurd hu (hnone u))
          (base_newTopic hbase version).1 rfl
      · rw [hpub]
        exact iff_of_true rfl fun u hu => absurd hu (hnone u)
    · rw [hnone] at hi
      cases hi
  · -- the topic decides
    rcases hfound with ⟨hnone, -⟩ | ⟨-, hmention, i', t', hi', ht', hcomps⟩
    · rw [hnone] at hi
      cases hi
    · obtain rfl := Option.some.inj (hi.symm.trans hi')
      obtain rfl := Option.some.inj (ht.symm.trans ht')
      have htells := h.highest t (List.mem_of_getElem? ht)
      rw [TellsHighest, hcomps] at htells
      rcases hverdict with ⟨hold, hpub⟩ | ⟨hnewer, hpub⟩
      · -- it is refused, so it is not the first one published
        rcases htells with ⟨hunpublished, hhighest⟩ | ⟨hmem, hle⟩
        · rw [hhighest] at hold
          exact absurd (hzero (UInt64.le_zero_iff.mp hold) hmention) hunpublished
        · refine ⟨h.unchanged (by rw [hexec, hpub]) (fun k hk => hk ▸ hmention)
            fun s hs hk => Or.inr ?_, ?_⟩
          · have hacc : accepted ctx (ops ++ [.publish base version]) = accepted ctx ops := by
              rw [accepted_concat, acceptedBy, hpub]
              exact List.append_nil _
            obtain rfl := h.keyed.eq_of_key_eq hs (List.mem_of_getElem? ht)
              (hk.symm.trans hcomps.symm)
            rw [hacc, hcomps]
            exact ⟨hmem, hle⟩
          · rw [hpub]
            refine iff_of_false Bool.false_ne_true fun hall => ?_
            exact UInt64.not_le.mpr (hall _ hmem) hold
      · refine ⟨h.raised ht hcomps hnewer hpub, ?_⟩
        rw [hpub]
        refine iff_of_true rfl fun u hu => ?_
        rcases htells with ⟨hunpublished, -⟩ | ⟨-, hle⟩
        · exact absurd (publishedUnder_of_accepted hu) hunpublished
        · exact UInt64.lt_of_le_of_lt (hle u hu) hnewer

/-- **Step.** A call that stays found keeps the invariant. -/
theorem Tracks.step (h : Tracks ctx ops) {op : PubsubOp} (hbase : TopicBase op.base)
    (hroom : (exec pubsubStep ctx ops).topics.length < pubsubMaxTopics)
    (hop : StaysFound ops op) : Tracks ctx (ops ++ [op]) := by
  cases op with
  | publish base version => exact (h.publish hbase hroom hop).1
  | subscribe base => exact h.subscribe hbase hroom hop
  | poll base =>
    refine h.unchanged ?_ (fun _ hk => hk.elim) fun _ _ hk => hk.elim
    rw [exec_append, exec_cons, exec_nil, pubsubStep]

/-- A table that is tracked has one topic for each component list. -/
theorem Tracks.oneTopicEach (h : Tracks ctx ops) : OneTopicEach (exec pubsubStep ctx ops) :=
  List.pairwise_map.mp h.keyed

/-- Mentioned components of a name hashed over another text are given a second topic. -/
theorem Tracks.not_oneTopicEach (h : Tracks ctx ops) {base : PsirpName} {op : PubsubOp}
    {version : UInt64} (hbase : TopicBase base) (hmention : Mentioned ops base.components)
    (htopics : (exec pubsubStep ctx (ops ++ [op])).topics =
      (exec pubsubStep ctx ops).topics ++ [newTopic base version]) :
    ¬ OneTopicEach (exec pubsubStep ctx (ops ++ [op])) := by
  obtain ⟨t, ht, hcomps⟩ := (h.mentioned _).mpr hmention
  rw [OneTopicEach, htopics, List.pairwise_append]
  rintro ⟨-, -, hapart⟩
  exact hapart t ht _ (List.mem_singleton_self _)
    (hcomps.trans (base_newTopic hbase version).1.symm)

/-- **What goes wrong otherwise.** From a tracked table, exactly the calls that stay found go
forward. -/
theorem Tracks.forward_iff (h : Tracks ctx ops) {op : PubsubOp} (hbase : TopicBase op.base)
    (hroom : (exec pubsubStep ctx ops).topics.length < pubsubMaxTopics) :
    GoesForward ctx ops op ↔ StaysFound ops op := by
  have hexec : exec pubsubStep ctx (ops ++ [op]) =
      (pubsubStep (exec pubsubStep ctx ops) op).2 := by
    rw [exec_append, exec_cons, exec_nil]
  constructor
  · intro hgoes
    cases op with
    | publish base version =>
      have hself : base.SelfHashed ∨ ¬ Mentioned ops base.components := by
        by_contra hno
        obtain ⟨hself, hmention⟩ := not_or.mp hno
        rcases h.find base with ⟨hnone, -⟩ | ⟨hself', -⟩
        · have htopics : (exec pubsubStep ctx (ops ++ [.publish base version])).topics =
              (exec pubsubStep ctx ops).topics ++ [newTopic base version] := by
            rw [hexec, pubsubStep, pubsubPublish, hnone]
            simp only
            rw [if_neg (Nat.not_le.mpr hroom)]
            rfl
          exact h.not_oneTopicEach hbase (not_not.mp hmention) htopics hgoes.one_topic
        · exact hself hself'
      refine ⟨hself, fun hzero hmention => ?_⟩
      by_contra hunpublished
      -- the subscription left version 0, which 0 does not exceed
      have hnone : ∀ u, (base.components, u) ∉ accepted ctx ops := fun u hu =>
        hunpublished (publishedUnder_of_accepted hu)
      have htrue := (hgoes.newer base version rfl).mpr fun u hu => absurd hu (hnone u)
      rcases pubsubPublish_cases (exec pubsubStep ctx ops) base version with
        ⟨hmiss, -⟩ | ⟨i, t, hi, ht, hmatch, ⟨-, hpub⟩ | ⟨hnewer, -⟩⟩
      · rcases h.find base with ⟨-, hno⟩ | ⟨-, -, i, t, hi, -, -⟩
        · exact hno.elim (fun hno => hself.elim hno (not_not.mpr hmention)) (not_not.mpr hmention)
        · rw [hmiss] at hi
          cases hi
      · rw [hpub] at htrue
        cases htrue
      · rw [hzero] at hnewer
        exact UInt64.not_lt_zero hnewer
    | subscribe base =>
      by_contra hno
      obtain ⟨hself, hmention⟩ := not_or.mp hno
      rcases h.find base with ⟨hnone, -⟩ | ⟨hself', -⟩
      · have htopics := topics_of_notFound hnone hroom
        exact h.not_oneTopicEach hbase (not_not.mp hmention) htopics hgoes.one_topic
      · exact hself hself'
    | poll base => trivial
  · intro hop
    refine ⟨?_, (h.step hbase hroom hop).oneTopicEach⟩
    rintro base version rfl
    exact (h.publish hbase hroom hop).2

end Step

/-- **Topics move forward.** A run goes forward at every call exactly if every call stays found. -/
theorem goesForward_iff (dht : Option DhtNode) (selfIp : UInt32) (selfPort : UInt16)
    {ops : List PubsubOp} (hrun : TopicRun ops) :
    Throughout (GoesForward (pubsubInit dht selfIp selfPort)) ops ↔ Throughout StaysFound ops := by
  have hdomain : ∀ before op after, ops = before ++ op :: after →
      Tracks (pubsubInit dht selfIp selfPort) before → TopicBase op.base ∧
        (exec pubsubStep (pubsubInit dht selfIp selfPort) before).topics.length < pubsubMaxTopics := by
    rintro before op after rfl h
    exact ⟨hrun.bases op (by simp), h.room hrun.few⟩
  have hstart : Tracks (pubsubInit dht selfIp selfPort) [] := tracks_nil rfl
  refine throughout_congr hstart ?_ ?_
  · intro before op after hsplit h hop
    obtain ⟨hbase, hroom⟩ := hdomain before op after hsplit h
    exact h.step hbase hroom hop
  · intro before op after hsplit h
    obtain ⟨hbase, hroom⟩ := hdomain before op after hsplit h
    exact h.forward_iff hbase hroom

/-- Subscribe to `/news`, then publish a version of it. -/
def newsRun (version : UInt64) : List PubsubOp := [.subscribe newsName, .publish newsName version]

theorem topicRun_news (version : UInt64) : TopicRun (newsRun version) where
  bases op hop := by
    have hbase : TopicBase newsName :=
      ⟨text ['/', 'n', 'e', 'w', 's'], by decide, Prod.ext (by decide) rfl⟩
    rcases List.mem_cons.mp hop with rfl | hop
    · exact hbase
    · rw [List.mem_singleton.mp hop]
      exact hbase
  few := by
    have hlists : (newsRun version).map (fun op => op.base.components) =
        List.replicate 2 newsName.components := rfl
    rw [hlists, List.toFinset_replicate_of_ne_zero (by decide), Finset.card_singleton]
    decide

theorem goesForward_iff_news :
    Throughout (GoesForward (pubsubInit none 0 0)) (newsRun 1) ↔
      Throughout StaysFound (newsRun 1) :=
  goesForward_iff none 0 0 (topicRun_news 1)

/-- Version `0` is refused after a subscription, though nothing was published before. -/
theorem not_goesForward_news :
    TopicRun (newsRun 0) ∧ ¬ Throughout (GoesForward (pubsubInit none 0 0)) (newsRun 0) := by
  refine ⟨topicRun_news 0, fun h => ?_⟩
  have hnewer := (h [.subscribe newsName] (.publish newsName 0) [] rfl).newer newsName 0 rfl
  have hrefused : (pubsubPublish (exec pubsubStep (pubsubInit none 0 0) [.subscribe newsName])
      newsName 0).1 = false := by decide +kernel
  rw [hrefused] at hnewer
  exact Bool.false_ne_true (hnewer.mpr fun u hu => absurd hu List.not_mem_nil)

end DsoBrowser

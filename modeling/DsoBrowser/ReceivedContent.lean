import DsoBrowser.VersionFidelity
import DsoBrowser.PlainStore

/-!
# Content received from the network

The receive loop stores the content of a Data packet under the decoded name, and a new entry gets
its name from `psirp_name_init_components`, whose verdict the store ignores. The decoder takes
components of up to 255 arbitrary bytes; the constructor stops at one of 64 bytes or more and at
one whose `'@'` no digits follow, and strips a version off any other with an `'@'`. So the entry
written has the components of the packet exactly when it is an old one or every component is
`Rebuildable` (`cachedUnderOwnName_iff`).
-/

namespace DsoBrowser

open Table

/-! ## Rebuilding the components of a packet -/

/-- A component `psirp_name_init_components` takes as it is. -/
structure Rebuildable (c : CString) : Prop where
  /-- it fits its buffer -/
  length_lt : c.length < psirpMaxComponent
  /-- nothing in it looks like a version -/
  noAt : atSign ∉ c

instance (c : CString) : Decidable (Rebuildable c) :=
  decidable_of_iff (c.length < psirpMaxComponent ∧ c.all (fun x => x ≠ atSign) = true) (by
    rw [List.all_eq_true]
    constructor
    · rintro ⟨hlen, hall⟩
      exact ⟨hlen, fun hat => of_decide_eq_true (hall _ hat) rfl⟩
    · intro h
      exact ⟨h.length_lt, fun x hx => decide_eq_true fun hat => h.noAt (hat ▸ hx)⟩)

/-- The parser takes a whole component as it is only if there is no `'@'` in it. -/
theorem parseComponent_eq_self {c comp : CString} {ver : UInt64} {hasVer : Bool}
    (h : parseComponent c c.length psirpMaxComponent = some (comp, ver, hasVer)) :
    comp = c ↔ atSign ∉ c := by
  rcases parseComponent_eq_some h with ⟨rfl, -, -, hat⟩ | ⟨i, hi, -, rfl, hat⟩
  · rw [List.take_length] at hat ⊢
    exact iff_of_true rfl hat
  · refine ⟨fun he => he ▸ hat, fun hno => ?_⟩
    -- without an `'@'` the parser would not have cut it
    rw [parseComponent_of_noAt (lt_cap_of_parseComponent h) (by rwa [List.take_length]),
      List.take_length] at h
    exact (Prod.mk.inj (Option.some.inj h)).1.symm

theorem nameInitComponentsLoop_prefix :
    ∀ (cs : List CString) (path : CString) (name : PsirpName) h,
      name.components <+: (nameInitComponentsLoop cs path name h).2.components := by
  intro cs
  induction cs with
  | nil => exact fun path name h => List.prefix_rfl
  | cons c cs ih =>
    intro path name h
    rw [nameInitComponentsLoop]
    split
    · exact List.prefix_rfl
    · split
      · exact List.prefix_rfl
      · refine List.IsPrefix.trans ?_ (ih _ _ _)
        rw [PsirpName.components_setVersion, PsirpName.components_push]
        exact List.prefix_append _ _

/-- The loop appends the components exactly when they are all rebuildable. -/
theorem nameInitComponentsLoop_eq_iff :
    ∀ (cs : List CString) (path : CString) (name : PsirpName) h,
      (nameInitComponentsLoop cs path name h).2.components = name.components ++ cs ↔
        ∀ c ∈ cs, Rebuildable c := by
  intro cs
  induction cs with
  | nil =>
    intro path name h
    rw [nameInitComponentsLoop, List.append_nil]
    exact iff_of_true rfl fun c hc => absurd hc List.not_mem_nil
  | cons c cs ih =>
    intro path name h
    -- a loop that stops here leaves components out
    have hstop : ¬ name.components = name.components ++ c :: cs := by
      intro he
      have hlen := congrArg List.length he
      simp at hlen
    rw [nameInitComponentsLoop, List.forall_mem_cons]
    split
    · rename_i hlong
      exact iff_of_false hstop fun hall => absurd hall.1.length_lt (Nat.not_lt.mpr hlong)
    · rename_i hshort
      rw [Nat.not_le] at hshort
      split
      · rename_i hnone
        refine iff_of_false hstop fun hall => ?_
        rw [parseComponent_of_noAt hshort (by rw [List.take_length]; exact hall.1.noAt)] at hnone
        cases hnone
      · rename_i comp ver hasVer hsome
        have hcomps : ((name.push comp (by rw [List.length_cons] at h; omega)).setVersion ver
            hasVer).components = name.components ++ [comp] := by
          rw [PsirpName.components_setVersion, PsirpName.components_push]
        by_cases hat : atSign ∉ c
        · obtain rfl := (parseComponent_eq_self hsome).mpr hat
          have hsplit : name.components ++ comp :: cs = ((name.push comp
              (by rw [List.length_cons] at h; omega)).setVersion ver hasVer).components ++ cs := by
            rw [hcomps, List.append_assoc]
            rfl
          rw [hsplit, ih]
          exact (and_iff_right ⟨hshort, hat⟩).symm
        · refine iff_of_false (fun he => ?_) fun hall => hat hall.1.noAt
          -- the component pushed is another one
          have hpre : name.components ++ [comp] <+: name.components ++ c :: cs := by
            rw [← hcomps, ← he]
            exact nameInitComponentsLoop_prefix cs (path ++ slash :: c) _ _
          rw [List.prefix_append_right_inj] at hpre
          obtain ⟨t, ht⟩ := hpre
          exact hat ((parseComponent_eq_self hsome).mp (List.cons.inj ht).1)

/-- **A name rebuilt from components** has them exactly when they are all rebuildable. -/
theorem components_psirpNameInitComponents_iff {cs : List CString}
    (h : cs.length ≤ psirpMaxComponents) :
    (psirpNameInitComponents cs).2.components = cs ↔ ∀ c ∈ cs, Rebuildable c := by
  rw [psirpNameInitComponents, dif_pos h]
  exact nameInitComponentsLoop_eq_iff cs [] PsirpName.zero _

/-! ## The entry written -/

/-- The entry a store writes, if it succeeds. -/
def writtenEntry (cs : PsirpCs) (name : PsirpName) (data : List UInt8) (freshnessMs : UInt32)
    (now : UInt64) : Option PsirpCsEntry :=
  if (psirpCsStore cs name data freshnessMs now).1 then
    match cs.entries.find? fun e => psirpNameEqual e.name name with
    | some e => some (overwrite data freshnessMs now e)
    | none => some (newEntry name data freshnessMs now)
  else none

section Written

variable {cs : PsirpCs} {name : PsirpName} {data : List UInt8} {freshnessMs : UInt32}
  {now : UInt64}

/-- Every entry after a store is the one written or was there before. -/
theorem mem_psirpCsStore {e : PsirpCsEntry}
    (h : e ∈ (psirpCsStore cs name data freshnessMs now).2.entries) :
    e ∈ cs.entries ∨ writtenEntry cs name data freshnessMs now = some e := by
  rcases psirpCsStore_cases cs name data freshnessMs now with
    ⟨hs, -⟩ | ⟨-, i, b, hi, hs⟩ | ⟨-, -, hi, hs⟩
  · rw [hs] at h
    exact Or.inl h
  · rw [writtenEntry, List.find?_eq_bind_findIdx?_getElem?, hi]
    rw [hs] at h ⊢
    rcases mem_modify h with h | ⟨a, ha, rfl⟩
    · exact Or.inl h
    · right
      rw [if_pos rfl, Option.bind_some, ha]
  · rw [writtenEntry, List.find?_eq_bind_findIdx?_getElem?, hi]
    rw [hs] at h ⊢
    rcases List.mem_append.mp ((enforceBudget_frame _).1.subset h) with h | h
    · exact Or.inl h
    · rw [List.mem_singleton.mp h]
      exact Or.inr rfl

/-- The entry written has the components of the name exactly when it is an old one or they are
rebuildable. -/
theorem components_writtenEntry_iff
    (hok : (psirpCsStore cs name data freshnessMs now).1 = true) :
    (∃ e, writtenEntry cs name data freshnessMs now = some e ∧ e.components = name.components) ↔
      (∃ e ∈ cs.entries, psirpNameEqual e.name name = true) ∨
        ∀ c ∈ name.components, Rebuildable c := by
  rw [writtenEntry, if_pos hok]
  cases hfind : cs.entries.find? (fun e => psirpNameEqual e.name name) with
  | some e =>
    have he := List.find?_some hfind
    apply iff_of_true
    · exact ⟨_, rfl, (psirpNameEqual_iff.mp he).2⟩
    · exact Or.inl ⟨e, List.mem_of_find?_eq_some hfind, he⟩
  | none =>
    have hnone : ¬ ∃ e ∈ cs.entries, psirpNameEqual e.name name = true := by
      rintro ⟨e, he, heq⟩
      exact List.find?_eq_none.mp hfind e he heq
    rw [or_iff_right hnone, ← components_psirpNameInitComponents_iff name.count_le]
    constructor
    · rintro ⟨e, he, hcomps⟩
      obtain rfl := Option.some.inj he
      exact hcomps
    · exact fun hcomps => ⟨_, rfl, hcomps⟩

end Written

/-! ## The receive loop -/

/-- The receive loop stores what it decodes. -/
theorem cs_recvUnicast {buf : List UInt8} {data : PsirpData}
    (h : psirpDataDeserialize PsirpData.zero buf = some data) (node : PsirpNode)
    (src : PsirpPeer) (env : RecvEnv) :
    (recvUnicast node src buf env).1.cs =
      (psirpCsStore node.cs data.name data.data data.freshnessMs env.now).2 := by
  rw [recvUnicast_data h]
  rfl

/-- In a round of the receive loop that decodes `data` from `buf` and stores it, an entry `e` is
written that has the components of `data`: all other entries are old ones, and no unversioned
lookup under other components returns `e`. -/
def CachedUnderOwnName (node : PsirpNode) (src : PsirpPeer) (buf : List UInt8) (env : RecvEnv)
    (data : PsirpData) : Prop :=
  ∃ e, writtenEntry node.cs data.name data.data data.freshnessMs env.now = some e ∧
    e.components = data.name.components ∧
    (∀ e' ∈ (recvUnicast node src buf env).1.cs.entries, e' = e ∨ e' ∈ node.cs.entries) ∧
    ∀ (n : PsirpName) (now : UInt64), n.hasVersion = false →
      n.components ≠ data.name.components →
      lookupEntry (recvUnicast node src buf env).1.cs n now ≠ some (touch now e)

/-- **Received content is cached under its own name only, exactly when** the store has an entry
for the decoded name already or all its components are rebuildable. -/
theorem cachedUnderOwnName_iff {node : PsirpNode} {src : PsirpPeer} {buf : List UInt8}
    {env : RecvEnv} {data : PsirpData}
    (hdecoded : psirpDataDeserialize PsirpData.zero buf = some data)
    (hstored : (psirpCsStore node.cs data.name data.data data.freshnessMs env.now).1 = true) :
    CachedUnderOwnName node src buf env data ↔
      (∃ e ∈ node.cs.entries, psirpNameEqual e.name data.name = true) ∨
        ∀ c ∈ data.name.components, Rebuildable c := by
  rw [← components_writtenEntry_iff hstored]
  constructor
  · rintro ⟨e, hwritten, hcomps, -⟩
    exact ⟨e, hwritten, hcomps⟩
  · rintro ⟨e, hwritten, hcomps⟩
    refine ⟨e, hwritten, hcomps, ?_, ?_⟩
    · intro e' he'
      rw [cs_recvUnicast hdecoded] at he'
      rcases mem_psirpCsStore he' with hold | hnew
      · exact Or.inr hold
      · exact Or.inl (Option.some.inj (hnew.symm.trans hwritten))
    · intro n now _ hother hfound
      exact hother ((components_of_lookupEntry hfound).symm.trans hcomps)

/-- The bytes of a Data packet of one component, with one byte of content. -/
def dataBytes (component : List UInt8) : List UInt8 :=
  psirpPktData :: (List.replicate 8 0 ++ List.replicate 4 0 ++ [0, 0, 0, 1] ++
    1 :: UInt8.ofNat component.length :: component ++ [7])

theorem cachedUnderOwnName_iff_a :
    ∃ data, psirpDataDeserialize PsirpData.zero (dataBytes [97]) = some data ∧
      (CachedUnderOwnName PsirpNode.empty ⟨0, 0⟩ (dataBytes [97]) ⟨0, ⟨0, true, 0⟩⟩ data ↔
        (∃ e ∈ PsirpNode.empty.cs.entries, psirpNameEqual e.name data.name = true) ∨
          ∀ c ∈ data.name.components, Rebuildable c) :=
  ⟨_, rfl, cachedUnderOwnName_iff rfl (by decide +kernel)⟩

/-- Content received under the component `a@1` is stored under `/a`, and a lookup of `/a` returns
it. -/
theorem not_cachedUnderOwnName_a :
    ∃ data, psirpDataDeserialize PsirpData.zero (dataBytes [97, 64, 49]) = some data ∧
      (psirpCsStore psirpCsInit data.name data.data data.freshnessMs 0).1 = true ∧
      ¬ CachedUnderOwnName PsirpNode.empty ⟨0, 0⟩ (dataBytes [97, 64, 49]) ⟨0, ⟨0, true, 0⟩⟩ data ∧
      ((lookupEntry (recvUnicast PsirpNode.empty ⟨0, 0⟩ (dataBytes [97, 64, 49])
        ⟨0, ⟨0, true, 0⟩⟩).1.cs keyA.name 0).map PsirpCsEntry.data) = some [7] := by
  refine ⟨_, rfl, by decide +kernel, ?_, by decide +kernel⟩
  rintro ⟨e, hwritten, hcomps, -⟩
  obtain rfl := Option.some.inj hwritten
  exact absurd hcomps (by decide +kernel)

end DsoBrowser

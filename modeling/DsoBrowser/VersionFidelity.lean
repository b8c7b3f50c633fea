import DsoBrowser.Net
import DsoBrowser.PacketRoundTrip
import DsoBrowser.StoreHistory

/-!
# Which version an Interest is answered with

An Interest carries the components of the name it was sent for and no version, so the responder
looks its store up under an unversioned name and answers with the **newest live entry** of those
components (`answers_iff`), whatever version was asked for. `versionFaithful_iff` says exactly
after which calls that is the answer an Interest for a version should get.
-/

namespace DsoBrowser

open Machine Table

/-! ## The responder -/

/-- The key and the data of each call that succeeded, in order. -/
def storeLog (calls : List StoreCall) : List ((List CString × UInt64) × List UInt8) :=
  ((calls.zip (outs storeStep psirpCsInit calls)).filter Prod.snd).map fun c =>
    (c.1.name.key, c.1.data)

/-- What was last stored under a key. -/
def lastStored (calls : List StoreCall) (k : List CString × UInt64) : Option (List UInt8) :=
  ((storeLog calls).reverse.find? fun c => decide (c.1 = k)).map Prod.snd

/-! ## The exchange -/

/-- The node, when an Interest for `x` is serialized and reaches it from anywhere and the clock
reads `now`, sends `r` as a Data packet. -/
def Answers (node : PsirpNode) (x : PsirpName) (now : UInt64) (r : PsirpData) : Prop :=
  ∃ nonce lifetimeMs bufLen buf src send dg,
    psirpInterestSerialize ⟨x, nonce, lifetimeMs⟩ bufLen = some buf ∧
      dg ∈ (recvUnicast node src buf ⟨now, send⟩).2 ∧ dg.packet = .data r

/-- An entry with these components that has not expired. -/
def LiveUnder (comps : List CString) (now : UInt64) (e : PsirpCsEntry) : Prop :=
  entryExpired e now = false ∧ e.components = comps

/-- The first of the live entries of the greatest version. -/
structure NewestLive (es : List PsirpCsEntry) (comps : List CString) (now : UInt64)
    (e : PsirpCsEntry) : Prop where
  /-- it is live -/
  live : LiveUnder comps now e
  /-- no entry has a greater version, and none before it has the same -/
  cut : ∃ l₁ l₂, es = l₁ ++ e :: l₂ ∧
    (∀ e' ∈ l₁, LiveUnder comps now e' → e'.name.version < e.name.version) ∧
    ∀ e' ∈ l₂, LiveUnder comps now e' → e'.name.version ≤ e.name.version

/-- An unversioned lookup chooses the newest live entry. -/
theorem newestLive_of_lookupIndex {es : List PsirpCsEntry} {n : PsirpName} {now : UInt64} {i : Nat}
    (hv : n.hasVersion = false) (h : lookupIndex es n now = some i) :
    ∃ e, es[i]? = some e ∧ NewestLive es n.components now e := by
  rw [lookupIndex, hv, if_neg Bool.false_ne_true] at h
  have heligible : ∀ {e}, LiveUnder n.components now e ↔ liveBase n now e = true := by
    intro e
    rw [LiveUnder, liveBase, Bool.and_eq_true, Bool.not_eq_true', nameBaseEqual_iff]
  obtain ⟨e, hi, hel, hmax, hfirst⟩ := findNewest_eq_some h
  obtain ⟨hlt, rfl⟩ := List.getElem?_eq_some_iff.mp hi
  refine ⟨es[i], hi, heligible.mpr hel, es.take i, es.drop (i + 1), ?_, ?_, ?_⟩
  · rw [List.cons_getElem_drop_succ, List.take_append_drop]
  · intro e' he' hlive
    obtain ⟨j, hj, rfl⟩ := List.mem_iff_getElem.mp he'
    rw [List.length_take] at hj
    rw [List.getElem_take] at hlive ⊢
    exact hfirst j (by omega) _ (List.getElem?_eq_getElem _) (heligible.mp hlive)
  · intro e' he' hlive
    exact hmax e' (List.mem_of_mem_drop he') (heligible.mp hlive)

/-- No live entry is newer. -/
theorem NewestLive.version_le {es : List PsirpCsEntry} {comps : List CString} {now : UInt64}
    {e e' : PsirpCsEntry} (h : NewestLive es comps now e) (he' : e' ∈ es)
    (hlive : LiveUnder comps now e') : e'.name.version ≤ e.name.version := by
  obtain ⟨l₁, l₂, rfl, hbefore, hafter⟩ := h.cut
  rcases List.mem_append.mp he' with he' | he'
  · exact UInt64.le_of_lt (hbefore e' he' hlive)
  · rcases List.mem_cons.mp he' with rfl | he'
    · exact UInt64.le_refl _
    · exact hafter e' he' hlive

/-- There is one newest live entry at most. -/
theorem NewestLive.unique {es : List PsirpCsEntry} {comps : List CString} {now : UInt64}
    {e e' : PsirpCsEntry} (h : NewestLive es comps now e) (h' : NewestLive es comps now e') :
    e = e' := by
  obtain ⟨hlive, l₁, l₂, hl, hbefore, hafter⟩ := h
  obtain ⟨hlive', l₁', l₂', hl', hbefore', hafter'⟩ := h'
  rcases cut_compare (hl.symm.trans hl') with he | ⟨he', he⟩ | ⟨he, he'⟩
  · exact he
  · exact absurd (hbefore' e he hlive) (UInt64.not_lt.mpr (hafter e' he' hlive'))
  · exact absurd (hbefore e' he' hlive') (UInt64.not_lt.mpr (hafter' e he hlive))

/-- If there is a live entry, an unversioned lookup chooses one. -/
theorem lookupIndex_isSome {es : List PsirpCsEntry} {n : PsirpName} {now : UInt64}
    (hv : n.hasVersion = false) {e : PsirpCsEntry} (he : e ∈ es)
    (hlive : LiveUnder n.components now e) : ∃ i, lookupIndex es n now = some i := by
  cases hi : lookupIndex es n now with
  | none =>
    rw [lookupIndex, hv, if_neg Bool.false_ne_true] at hi
    have hdead := findNewest_eq_none.mp hi e he
    rw [liveBase, hlive.1, nameBaseEqual_iff.mpr hlive.2] at hdead
    cases hdead
  | some i => exact ⟨i, rfl⟩

/-- The Data packet made from the entry fits the buffer it is serialized to. -/
def Sendable (e : PsirpCsEntry) : Prop :=
  (psirpDataSerialize (replyOf e) psirpRecvBufSize).isSome = true

/-- What a node sends when it receives an Interest for `x`, as it was decoded. -/
theorem recvInterest_data (node : PsirpNode) (src : PsirpPeer) {interest : PsirpInterest}
    (env : RecvEnv) {r : PsirpData} (hv : interest.name.hasVersion = false) :
    (∃ dg ∈ (recvInterest node src interest env).2, dg.packet = .data r) ↔
      env.send.sent = true ∧ ∃ e, NewestLive node.cs.entries interest.name.components env.now e ∧
        Sendable e ∧ r = replyOf e := by
  constructor
  · rintro ⟨dg, hdg, hr⟩
    obtain ⟨entry, hentry, rfl, hsent, buf, hbuf, -⟩ := (data_mem_recvInterest_iff hr).mp hdg
    obtain ⟨i, e, hi, he, rfl⟩ := lookupEntry_eq_some_iff.mp hentry
    obtain ⟨e', he', hnew⟩ := newestLive_of_lookupIndex hv hi
    obtain rfl := Option.some.inj (he.symm.trans he')
    exact ⟨hsent, e, hnew, Option.isSome_iff_exists.mpr ⟨buf, hbuf⟩, rfl⟩
  · rintro ⟨hsent, e, hnew, hfit, rfl⟩
    obtain ⟨hlive, l₁, l₂, hl, -⟩ := id hnew
    have hmem : e ∈ node.cs.entries := by
      rw [hl]
      simp
    obtain ⟨i, hi⟩ := lookupIndex_isSome hv hmem hlive
    obtain ⟨e', he, hnew'⟩ := newestLive_of_lookupIndex hv hi
    obtain rfl := hnew.unique hnew'
    have hentry : lookupEntry node.cs interest.name env.now = some (touch env.now e) :=
      lookupEntry_eq_some_iff.mpr ⟨i, e, hi, he, rfl⟩
    obtain ⟨buf, hbuf⟩ := Option.isSome_iff_exists.mp hfit
    refine ⟨⟨src, .data (replyOf e), buf⟩, ?_, rfl⟩
    exact (data_mem_recvInterest_iff rfl).mpr ⟨_, hentry, rfl, hsent, buf, hbuf, rfl⟩

/-- **Answers.** A node answers an Interest for `x` with its newest live entry of the components
of `x`, if that fits a packet, and with nothing else. -/
theorem answers_iff {node : PsirpNode} {x : PsirpName} (hx : Parsed x) {now : UInt64}
    {r : PsirpData} :
    Answers node x now r ↔
      ∃ e, NewestLive node.cs.entries x.components now e ∧ Sendable e ∧ r = replyOf e := by
  -- whatever the version of `x`, the name comes out without one
  have hrecv : ∀ {nonce lifetimeMs bufLen buf}, psirpInterestSerialize ⟨x, nonce, lifetimeMs⟩
      bufLen = some buf → ∀ src env, ∃ interest : PsirpInterest,
        interest.name.hasVersion = false ∧ interest.name.components = x.components ∧
        recvUnicast node src buf env = recvInterest node src interest env := by
    intro nonce lifetimeMs bufLen buf hbuf src env
    obtain ⟨hash, hdec⟩ := psirpInterestDeserialize_serialize hbuf PsirpInterest.zero
    have hhead : buf.head? = some psirpPktInterest := by
      rw [(psirpInterestSerialize_eq_some hbuf).1]
      rfl
    refine ⟨⟨{ PsirpName.zero with
      components := x.components, hash := hash, count_le := x.count_le }, nonce, lifetimeMs⟩,
      rfl, rfl, ?_⟩
    rw [recvUnicast, if_pos hhead, hdec]
    rfl
  constructor
  · rintro ⟨nonce, lifetimeMs, bufLen, buf, src, send, dg, hbuf, hdg, hr⟩
    obtain ⟨interest, hv, hcomps, hout⟩ := hrecv hbuf src ⟨now, send⟩
    rw [hout] at hdg
    obtain ⟨-, e, hnew, he⟩ := (recvInterest_data _ _ _ hv).mp ⟨dg, hdg, hr⟩
    rw [hcomps] at hnew
    exact ⟨e, hnew, he⟩
  · rintro ⟨e, hnew, he⟩
    obtain ⟨buf, hbuf⟩ : ∃ buf, psirpInterestSerialize ⟨x, 0, 0⟩ interestBufSize = some buf :=
      psirpInterestSerialize_isSome (fun c hc => (hx.wellFormed.plain c hc).length_lt) (by decide)
    obtain ⟨interest, hv, hcomps, hout⟩ := hrecv hbuf ⟨0, 0⟩ ⟨now, ⟨0, true, 0⟩⟩
    rw [← hcomps] at hnew
    obtain ⟨dg, hdg, hr⟩ := (recvInterest_data node ⟨0, 0⟩ ⟨now, ⟨0, true, 0⟩⟩ hv).mpr
      ⟨rfl, e, hnew, he⟩
    rw [← hout] at hdg
    exact ⟨0, 0, interestBufSize, buf, ⟨0, 0⟩, ⟨0, true, 0⟩, dg, hbuf, hdg, hr⟩

/-! ## Version fidelity -/

/-- The answers to an Interest for `x`: if there is a live entry of its components and version,
there is one, and it carries what was last stored under them; else there is none. -/
structure VersionFaithful (node : PsirpNode) (calls : List StoreCall) (x : PsirpName)
    (now : UInt64) : Prop where
  /-- a Data packet carries that version, and the bytes stored under it -/
  content : ∀ r, Answers node x now r → r.name.key = x.key ∧ lastStored calls x.key = some r.data
  /-- that version is answered with -/
  answered : (∃ e ∈ node.cs.entries, e.key = x.key ∧ entryExpired e now = false) →
    ∃ r, Answers node x now r
  /-- no version, no Data -/
  silent : (∀ e ∈ node.cs.entries, e.key = x.key → entryExpired e now = true) →
    ∀ r, ¬ Answers node x now r

/-- A live entry of the version is a live entry of the components, so there is a newest one. -/
theorem exists_newestLive {es : List PsirpCsEntry} {x : PsirpName} {now : UInt64}
    {e : PsirpCsEntry} (he : e ∈ es) (hkey : e.key = x.key) (hlive : entryExpired e now = false) :
    ∃ e', NewestLive es x.components now e' := by
  obtain ⟨i, hi⟩ := lookupIndex_isSome (n := { x with hasVersion := false }) rfl he
    ⟨hlive, congrArg Prod.fst hkey⟩
  obtain ⟨e', -, hnew⟩ := newestLive_of_lookupIndex (n := { x with hasVersion := false }) rfl hi
  exact ⟨e', hnew⟩

/-- The answers are faithful exactly when the newest live entry with the components of `x`, if there
is one, is the one to answer with, or does not fit a packet and there is none to answer with. -/
theorem versionFaithful_iff_entries {node : PsirpNode} {calls : List StoreCall} {x : PsirpName}
    (hx : Parsed x) {now : UInt64} :
    VersionFaithful node calls x now ↔
      ∀ e, NewestLive node.cs.entries x.components now e →
        (Sendable e → e.name.version = x.version ∧ lastStored calls x.key = some e.data) ∧
        (¬ Sendable e → ∀ e' ∈ node.cs.entries, e'.key = x.key → entryExpired e' now = true) := by
  constructor
  · intro h e hnew
    refine ⟨fun hfit => ?_, fun hfit e' he' hkey => ?_⟩
    · obtain ⟨hkey, hlast⟩ := h.content (replyOf e) ((answers_iff hx).mpr ⟨e, hnew, hfit, rfl⟩)
      exact ⟨congrArg Prod.snd hkey, hlast⟩
    · -- the answer would be this entry
      by_contra hlive
      obtain ⟨r, hr⟩ := h.answered ⟨e', he', hkey, Bool.eq_false_iff.mpr hlive⟩
      obtain ⟨e₁, hnew₁, hfit₁, -⟩ := (answers_iff hx).mp hr
      exact hfit (hnew.unique hnew₁ ▸ hfit₁)
  · intro h
    refine ⟨?_, ?_, ?_⟩
    · intro r hr
      obtain ⟨e, hnew, hfit, rfl⟩ := (answers_iff hx).mp hr
      obtain ⟨hver, hlast⟩ := (h e hnew).1 hfit
      exact ⟨Prod.ext hnew.live.2 hver, hlast⟩
    · rintro ⟨e', he', hkey, hlive⟩
      obtain ⟨e, hnew⟩ := exists_newestLive he' hkey hlive
      by_cases hfit : Sendable e
      · exact ⟨replyOf e, (answers_iff hx).mpr ⟨e, hnew, hfit, rfl⟩⟩
      · rw [(h e hnew).2 hfit e' he' hkey] at hlive
        cases hlive
    · intro hdead r hr
      obtain ⟨e, hnew, hfit, -⟩ := (answers_iff hx).mp hr
      obtain ⟨l₁, l₂, hl, -⟩ := hnew.cut
      have hmem : e ∈ node.cs.entries := by
        rw [hl]
        simp
      have hexp := hdead e hmem (Prod.ext hnew.live.2 ((h e hnew).1 hfit).1)
      rw [hnew.live.1] at hexp
      cases hexp

/-! ## In terms of the calls -/

/-- The first of the unexpired entries of the greatest version. -/
structure NewestSlot (ss : List Slot) (now : UInt64) (s : Slot) : Prop where
  /-- it has not expired -/
  live : s.content.expired now = false
  /-- no entry has a greater version, and none before it has the same -/
  cut : ∃ l₁ l₂, ss = l₁ ++ s :: l₂ ∧
    (∀ s' ∈ l₁, s'.content.expired now = false →
      s'.maker.name.version < s.maker.name.version) ∧
    ∀ s' ∈ l₂, s'.content.expired now = false →
      s'.maker.name.version ≤ s.maker.name.version

/-- A Data packet with these components and so much data fits the send buffer. -/
def PacketFits (comps : List CString) (data : List UInt8) : Prop :=
  18 + (pathOf comps).length + data.length ≤ psirpRecvBufSize

/-- What is last stored under a key is what the last accepted call stored. -/
theorem lastStored_eq (calls : List StoreCall) (k : List CString × UInt64) :
    lastStored calls k = (lastAccepted k calls).map StoreCall.data := by
  have hlog : storeLog calls = (acceptedCalls calls).map fun c => (c.name.key, c.data) := by
    rw [storeLog, (leftBy_of_calls calls).1, acceptedCalls, acceptedCalls_eq, List.nil_append,
      List.map_map]
    rfl
  rw [lastStored, hlog, ← List.map_reverse, List.find?_map, Option.map_map, lastAccepted]
  rfl

section Slots

variable {x : PsirpName} {now : UInt64} {es : List PsirpCsEntry} {e : PsirpCsEntry}

/-- Entries with other components do not count. -/
theorem newestLive_under_iff :
    NewestLive (entriesUnder x.components es) x.components now e ↔
      NewestLive es x.components now e := by
  have hmp : ∀ {e}, NewestLive es x.components now e →
      NewestLive (entriesUnder x.components es) x.components now e := by
    rintro e ⟨hlive, l₁, l₂, rfl, hbefore, hafter⟩
    refine ⟨hlive, entriesUnder x.components l₁, entriesUnder x.components l₂, ?_,
      fun e' he' => hbefore e' (List.mem_of_mem_filter he'),
      fun e' he' => hafter e' (List.mem_of_mem_filter he')⟩
    rw [entriesUnder_append, entriesUnder_cons, if_pos hlive.2]
  refine ⟨fun h => ?_, hmp⟩
  obtain ⟨l₁, l₂, hl, -⟩ := h.cut
  have hmem : e ∈ entriesUnder x.components es := hl ▸ List.mem_append_right l₁ List.mem_cons_self
  obtain ⟨e', hnew⟩ := exists_newestLive (x := e.name) (List.mem_of_mem_filter hmem) rfl h.live.1
  rw [show e.name.components = x.components from h.live.2] at hnew
  rwa [h.unique (hmp hnew)]

/-- The newest live entry is that of the newest slot. -/
theorem newestLive_map_iff {ss : List Slot} {comps : List CString}
    (hss : ∀ s ∈ ss, s.maker.name.components = comps) :
    NewestLive (ss.map Slot.entry) comps now e ↔ ∃ s, NewestSlot ss now s ∧ s.entry = e := by
  have hlive : ∀ s ∈ ss, (LiveUnder comps now s.entry ↔ s.content.expired now = false) :=
    fun s hs => and_iff_left (s.components_entry.trans (hss s hs))
  constructor
  · rintro ⟨h, l₁, l₂, hl, hbefore, hafter⟩
    obtain ⟨s₁, rest, rfl, rfl, hrest⟩ := List.map_eq_append_iff.mp hl
    obtain ⟨s, s₂, rfl, rfl, rfl⟩ := List.map_eq_cons_iff.mp hrest
    refine ⟨s, ⟨(hlive s (by simp)).mp h, s₁, s₂, rfl, fun s' hs' hlive' => ?_,
      fun s' hs' hlive' => ?_⟩, rfl⟩
    · exact hbefore s'.entry (List.mem_map_of_mem hs') ((hlive s' (by simp [hs'])).mpr hlive')
    · exact hafter s'.entry (List.mem_map_of_mem hs') ((hlive s' (by simp [hs'])).mpr hlive')
  · rintro ⟨s, ⟨h, s₁, s₂, rfl, hbefore, hafter⟩, rfl⟩
    refine ⟨(hlive s (by simp)).mpr h, s₁.map Slot.entry, s₂.map Slot.entry, ?_,
      fun e' he' hlive' => ?_, fun e' he' hlive' => ?_⟩
    · rw [List.map_append, List.map_cons]
    · obtain ⟨s', hs', rfl⟩ := List.mem_map.mp he'
      exact hbefore s' hs' ((hlive s' (by simp [hs'])).mp hlive')
    · obtain ⟨s', hs', rfl⟩ := List.mem_map.mp he'
      exact hafter s' hs' ((hlive s' (by simp [hs'])).mp hlive')

/-- The packet of an entry fits if its data does. -/
theorem sendable_entry_iff (s : Slot) :
    Sendable s.entry ↔ PacketFits s.maker.name.components s.content.data := by
  have hcomps := s.components_entry
  have hplain := s.maker.parsed.wellFormed.plain
  have hlen : ∀ c ∈ (replyOf s.entry).name.components, c.length < 256 := fun c hc =>
    (hplain c (hcomps ▸ hc)).length_lt.trans (by decide)
  rw [Sendable, Option.isSome_iff_exists, psirpDataSerialize_isSome_iff _ _ hlen, PacketFits,
    ← hcomps]
  rfl

end Slots

/-- What a slot holds was stored under its components. -/
theorem mem_slots {calls : List StoreCall} {s : Slot} (h : s ∈ slots calls) : s.maker ∈ calls := by
  cases calls with
  | nil => cases h
  | cons c rest =>
    rcases List.mem_cons.mp h with rfl | h
    · exact List.mem_cons_self
    · obtain ⟨c', hc', rfl⟩ := List.mem_map.mp h
      exact List.mem_cons_of_mem _ (List.mem_of_mem_filter hc')

/-- **The answers are faithful exactly when**, of the entries that the calls leave under the
components of `x`, the newest one that has not expired was made for the version of `x` and holds the
bytes of the last call under `x`, or does not fit a packet and none of that version is live. -/
theorem versionFaithful_iff (node : PsirpNode) (calls : List StoreCall) {x : PsirpName}
    (hx : Parsed x) (now : UInt64) :
    VersionFaithful { node with cs := responderStore calls } calls x now ↔
      ∀ s, NewestSlot (slotsUnder x.components calls) now s →
        (PacketFits x.components s.content.data → s.maker.name.version = x.version ∧
          ∃ c, lastAccepted x.key calls = some c ∧ c.data = s.content.data) ∧
        (¬ PacketFits x.components s.content.data →
          ∀ s' ∈ slotsUnder x.components calls, s'.maker.name.version = x.version →
            s'.content.expired now = true) := by
  have hentries : entriesUnder x.components (responderStore calls).entries =
      (slotsUnder x.components calls).map Slot.entry :=
    (leftBy_of_calls calls).2.entries_eq x.components
  have hcomps : ∀ s ∈ slotsUnder x.components calls, s.maker.name.components = x.components :=
    fun s hs => (mem_under.mp (mem_slots hs)).2
  have hnewest : ∀ e, NewestLive (responderStore calls).entries x.components now e ↔
      ∃ s, NewestSlot (slotsUnder x.components calls) now s ∧ s.entry = e := by
    intro e
    rw [← newestLive_under_iff, hentries, newestLive_map_iff hcomps]
  -- an entry of the version is a slot of the version
  have hversion : (∀ e ∈ (responderStore calls).entries, e.key = x.key →
      entryExpired e now = true) ↔ ∀ s ∈ slotsUnder x.components calls,
        s.maker.name.version = x.version → s.content.expired now = true := by
    constructor
    · intro h s hs hver
      have hmem : s.entry ∈ entriesUnder x.components (responderStore calls).entries :=
        hentries ▸ List.mem_map_of_mem hs
      exact h s.entry (List.mem_of_mem_filter hmem)
        (Prod.ext (s.components_entry.trans (hcomps s hs)) hver)
    · intro h e he hkey
      have hmem : e ∈ entriesUnder x.components (responderStore calls).entries :=
        List.mem_filter.mpr ⟨he, decide_eq_true (congrArg Prod.fst hkey)⟩
      rw [hentries] at hmem
      obtain ⟨s, hs, rfl⟩ := List.mem_map.mp hmem
      exact h s hs (congrArg Prod.snd hkey)
  rw [versionFaithful_iff_entries hx]
  change (∀ e, NewestLive (responderStore calls).entries x.components now e → _) ↔ _
  have hlast : ∀ s : Slot, lastStored calls x.key = some s.entry.data ↔
      ∃ c, lastAccepted x.key calls = some c ∧ c.data = s.content.data := by
    intro s
    rw [lastStored_eq, Option.map_eq_some_iff]
    rfl
  have hfits : ∀ s, NewestSlot (slotsUnder x.components calls) now s →
      (Sendable s.entry ↔ PacketFits x.components s.content.data) := by
    intro s hs
    obtain ⟨s₁, s₂, hcut, -⟩ := hs.cut
    rw [sendable_entry_iff, hcomps s (hcut ▸ List.mem_append_right s₁ List.mem_cons_self)]
  constructor
  · intro h s hs
    have hs' := h s.entry ((hnewest _).mpr ⟨s, hs, rfl⟩)
    rw [hfits s hs, hlast, s.version_entry, hversion] at hs'
    exact hs'
  · intro h e he
    obtain ⟨s, hs, rfl⟩ := (hnewest e).mp he
    change (Sendable s.entry → _) ∧ (¬ Sendable s.entry →
      ∀ e ∈ (responderStore calls).entries, e.key = x.key → entryExpired e now = true)
    rw [hfits s hs, hlast, s.version_entry, hversion]
    exact h s hs

/-- A node with nothing but an empty store. -/
def PsirpNode.empty : PsirpNode := ⟨psirpCsInit, false, [], [], [], 0, 0, 0, 0⟩

/-- With versions 1 and 2 of `/x` in the store, an Interest for `/x@2` gets version 2. -/
theorem versionFaithful_iff_x :
    let x₁ := (psirpNameInit (text ['/', 'x', '@', '1'])).2
    let x₂ := (psirpNameInit (text ['/', 'x', '@', '2'])).2
    ∃ h₁ : Parsed x₁, ∃ h₂ : Parsed x₂,
      let calls : List StoreCall := [⟨x₁, h₁, [1], 0, 0⟩, ⟨x₂, h₂, [2], 0, 0⟩]
      VersionFaithful { PsirpNode.empty with cs := responderStore calls } calls x₂ 0 := by
  have h₁ : Parsed (psirpNameInit (text ['/', 'x', '@', '1'])).2 :=
    ⟨text ['/', 'x', '@', '1'], by decide⟩
  have h₂ : Parsed (psirpNameInit (text ['/', 'x', '@', '2'])).2 :=
    ⟨text ['/', 'x', '@', '2'], by decide⟩
  refine ⟨h₁, h₂, (versionFaithful_iff _ _ h₂ 0).mpr ?_⟩
  let c₁ : StoreCall := ⟨_, h₁, [1], 0, 0⟩
  let c₂ : StoreCall := ⟨_, h₂, [2], 0, 0⟩
  have hslots : slotsUnder c₂.name.components [c₁, c₂] = [⟨c₁, c₁⟩, ⟨c₂, c₂⟩] := rfl
  have hless : ¬ (psirpNameInit (text ['/', 'x', '@', '2'])).2.version ≤
      (psirpNameInit (text ['/', 'x', '@', '1'])).2.version := by decide
  intro s hs
  obtain rfl : s = ⟨c₂, c₂⟩ := by
    obtain ⟨l₁, l₂, hcut, -, hafter⟩ := hs.cut
    change slotsUnder c₂.name.components [c₁, c₂] = _ at hcut
    rw [hslots] at hcut
    rcases List.cons_eq_append_iff.mp hcut with ⟨-, hs₁⟩ | ⟨l, -, hl⟩
    · -- version 1 is not the newest
      obtain ⟨rfl, rfl⟩ := List.cons_eq_cons.mp hs₁
      exact absurd (hafter ⟨c₂, c₂⟩ List.mem_cons_self rfl) hless
    · rcases List.cons_eq_append_iff.mp hl with ⟨-, hs₂⟩ | ⟨_, -, hnil⟩
      · exact (List.cons_eq_cons.mp hs₂).1
      · simp at hnil
  have hfits : 18 + (pathOf (psirpNameInit (text ['/', 'x', '@', '2'])).2.components).length + 1 ≤
      psirpRecvBufSize := by decide +kernel
  exact ⟨fun _ => ⟨rfl, c₂, rfl, rfl⟩, fun hno => absurd hfits hno⟩

/-- With versions 1 and 2 of `/x` in the store, an Interest for `/x@1` is answered with
version 2. -/
theorem not_versionFaithful_x :
    let x₁ := (psirpNameInit (text ['/', 'x', '@', '1'])).2
    let x₂ := (psirpNameInit (text ['/', 'x', '@', '2'])).2
    ∃ h₁ : Parsed x₁, ∃ h₂ : Parsed x₂,
      let calls : List StoreCall := [⟨x₁, h₁, [1], 0, 0⟩, ⟨x₂, h₂, [2], 0, 0⟩]
      x₁.hasVersion = true ∧
        ¬ VersionFaithful { PsirpNode.empty with cs := responderStore calls } calls x₁ 0 := by
  have h₁ : Parsed (psirpNameInit (text ['/', 'x', '@', '1'])).2 :=
    ⟨text ['/', 'x', '@', '1'], by decide⟩
  have h₂ : Parsed (psirpNameInit (text ['/', 'x', '@', '2'])).2 :=
    ⟨text ['/', 'x', '@', '2'], by decide⟩
  refine ⟨h₁, h₂, by decide, fun h => ?_⟩
  have hentries : (psirpCsStore (psirpCsStore psirpCsInit
      (psirpNameInit (text ['/', 'x', '@', '1'])).2 [1] 0 0).2
      (psirpNameInit (text ['/', 'x', '@', '2'])).2 [2] 0 0).2.entries =
      [newEntry (psirpNameInit (text ['/', 'x', '@', '1'])).2 [1] 0 0] ++
        [newEntry (psirpNameInit (text ['/', 'x', '@', '2'])).2 [2] 0 0] := by decide +kernel
  -- the entry of version 2 is the newest one
  have hkey := (h.content _ ((answers_iff h₁).mpr ⟨_, ⟨⟨by decide, by decide +kernel⟩, _, _,
    hentries, ?_, by simp⟩, by rw [Sendable]; decide +kernel, rfl⟩)).1
  · exact absurd hkey (by decide +kernel)
  · intro e he _
    rw [List.mem_singleton.mp he]
    decide +kernel

end DsoBrowser

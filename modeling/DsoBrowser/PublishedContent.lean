import DsoBrowser.LeasedStore
import DsoBrowser.Publisher
import DsoBrowser.UnaskedContent

/-!
# What the publisher publishes is answered

Every Interest for a name is answered with what the publisher has published last under it, until the
validity period is over, and after that with nothing (`publisher_answers_last`). It does not matter
what else is published, collected or received, as long as no Data packet comes in for the name.

The **invariant** is `Stands`: at most one entry stands under the name, and it is the last one
published.
-/

namespace DsoBrowser

open Leases Machine Table

/-! ## One entry under a name -/

section Count

variable {α : Type*} {κ : Type*} [BEq κ] [LawfulBEq κ] {key : α → κ} {k : κ}

/-- Where a key stands at most once, the rows with it are one. -/
theorem eq_of_count_le_one {l : List α} (h : (l.map key).count k ≤ 1) {a b : α} (ha : a ∈ l)
    (hb : b ∈ l) (hka : key a = k) (hkb : key b = k) : a = b := by
  have hpos : ∀ {l : List α} {a}, a ∈ l → key a = k → 0 < (l.map key).count k := fun ha hk =>
    List.count_pos_iff.mpr (List.mem_map.mpr ⟨_, ha, hk⟩)
  induction l with
  | nil => cases ha
  | cons c l ih =>
    rw [List.map_cons, List.count_cons] at h
    rcases List.mem_cons.mp ha with rfl | ha'
    · rcases List.mem_cons.mp hb with rfl | hb'
      · rfl
      · have htwo := hpos hb' hkb
        rw [if_pos (by simp [hka])] at h
        omega
    · rcases List.mem_cons.mp hb with rfl | hb'
      · have htwo := hpos ha' hka
        rw [if_pos (by simp [hkb])] at h
        omega
      · exact ih (by omega) ha' hb'

end Count

/-- The Data packet is not too old. -/
def PsirpData.Unexpired (pkt : PsirpData) (now : UInt64) : Prop :=
  clock now < goneAt pkt.timestamp pkt.freshnessMs

instance (pkt : PsirpData) (now : UInt64) : Decidable (pkt.Unexpired now) :=
  inferInstanceAs (Decidable (_ < _))

theorem PsirpData.Unexpired.of_le {pkt : PsirpData} {now later : UInt64} (h : now ≤ later)
    (hlive : pkt.Unexpired later) : pkt.Unexpired now := (clock_mono h).trans_lt hlive

/-- An entry is live as long as the reply made from it is not too old. -/
theorem unexpired_replyOf {e : PsirpCsEntry} {now : UInt64} (h : e.timestamp ≤ now) :
    (replyOf e).Unexpired now ↔ entryExpired e now = false := by
  rw [← Bool.not_eq_true', ← live_lease h, Lease.live, decide_eq_true_eq]
  exact Iff.rfl

/-- Under the name of `k` stands what was published `last`, as far as it is not too old at `t`, and
nothing else. -/
structure Stands (k : PlainKey) (last : Option PsirpData) (t : UInt64) (cs : PsirpCs) : Prop where
  /-- there is one entry under the name at most -/
  one : (cs.entries.map PsirpCsEntry.components).count k.components ≤ 1
  /-- it is the last one published -/
  shown : ∀ e ∈ cs.entries, e.components = k.components → last = some (replyOf e)
  /-- which is there for its time -/
  kept : ∀ pkt, last = some pkt → pkt.Unexpired t →
    k.components ∈ cs.entries.map PsirpCsEntry.components
  /-- it was published under the name -/
  named : ∀ pkt, last = some pkt → pkt.name = k.name
  /-- no entry is from the future -/
  stamped : StampedBy t cs
  /-- there is no byte budget -/
  unlimited : cs.maxBytes = 0

section Steps

variable {k : PlainKey} {last : Option PsirpData} {t : UInt64} {cs : PsirpCs}

theorem stands_init (k : PlainKey) (t : UInt64) : Stands k none t psirpCsInit where
  one := Nat.zero_le _
  shown _ he := absurd he List.not_mem_nil
  kept _ h := by cases h
  named _ h := by cases h
  stamped := stampedBy_init t
  unlimited := rfl

theorem Stands.mono (h : Stands k last t cs) {later : UInt64} (hle : t ≤ later) :
    Stands k last later cs where
  one := h.one
  shown := h.shown
  kept pkt hpkt hlive := h.kept pkt hpkt (hlive.of_le hle)
  named := h.named
  stamped := h.stamped.mono hle
  unlimited := h.unlimited

/-- The entry under the name has it. -/
theorem Stands.name_eq (h : Stands k last t cs) {e : PsirpCsEntry} (he : e ∈ cs.entries)
    (hk : e.components = k.components) : e.name = k.name :=
  h.named _ (h.shown e he hk)

/-- An update of an entry that stays under its name. -/
theorem Stands.modify (h : Stands k last t cs) {cs' : PsirpCs} {i : Nat}
    {f : PsirpCsEntry → PsirpCsEntry} (hentries : cs'.entries = cs.entries.modify i f)
    (hmax : cs'.maxBytes = cs.maxBytes) (hname : ∀ e, (f e).name = e.name)
    (hf : ∀ e, cs.entries[i]? = some e → e.components = k.components → replyOf (f e) = replyOf e)
    (hstamped : StampedBy t cs') : Stands k last t cs' := by
  have hmap : cs'.entries.map PsirpCsEntry.components = cs.entries.map PsirpCsEntry.components := by
    rw [hentries]
    exact map_modify_of_comp fun e => congrArg PsirpName.components (hname e)
  refine ⟨hmap ▸ h.one, fun e he hk => ?_, fun pkt hpkt hlive => hmap ▸ h.kept pkt hpkt hlive,
    h.named, hstamped, hmax.trans h.unlimited⟩
  rw [hentries] at he
  rcases mem_modify he with he | ⟨a, ha, rfl⟩
  · exact h.shown e he hk
  · have hk' : a.components = k.components :=
      (congrArg PsirpName.components (hname a)).symm.trans hk
    rw [hf a ha hk']
    exact h.shown a (List.mem_of_getElem? ha) hk'

/-- The bookkeeping of a hit. -/
theorem Stands.lookup (h : Stands k last t cs) (n : PsirpName) (now : UInt64) :
    Stands k last t (psirpCsLookup cs n now).2 := by
  rcases psirpCsLookup_frame cs n now with hs | ⟨i, hs⟩
  · rw [hs]
    exact h
  · rw [hs]
    exact h.modify rfl rfl (fun _ => rfl) (fun _ _ _ => rfl)
      (EveryEntry.modify_touch h.stamped (fun _ _ he => he) i now)

/-- **Collecting** leaves what is not too old. -/
theorem Stands.gc (h : Stands k last t cs) : Stands k last t (psirpCsGc cs t).2 := by
  obtain ⟨hsub, -, hmax⟩ := psirpCsGc_frame cs t
  obtain ⟨-, hperm⟩ := entries_psirpCsGc_perm h.unlimited t
  refine ⟨?_, fun e he hk => h.shown e (hsub.subset he) hk, fun pkt hpkt hlive => ?_, h.named,
    h.stamped.subperm hsub, hmax.trans h.unlimited⟩
  · rw [(hperm.map PsirpCsEntry.components).count_eq]
    exact (List.Sublist.count_le _ (List.filter_sublist.map _)).trans h.one
  · obtain ⟨e, he, hk⟩ := List.mem_map.mp (h.kept pkt hpkt hlive)
    obtain rfl := Option.some.inj (hpkt.symm.trans (h.shown e he hk))
    have hstays := (unexpired_replyOf (h.stamped e he)).mp hlive
    exact List.mem_map.mpr ⟨e, hperm.mem_iff.mpr (List.mem_filter.mpr ⟨he, by simp [hstays]⟩), hk⟩

/-- **Storing under another name.** -/
theorem Stands.store_other (h : Stands k last t cs) {n : PsirpName}
    (hn : ¬ FiledUnder n k.components) (d : List UInt8) (f : UInt32) :
    Stands k last t (psirpCsStore cs n d f t).2 := by
  obtain ⟨hold, hnew⟩ := not_or.mp hn
  have hstamped : StampedBy t (psirpCsStore cs n d f t).2 :=
    StampedBy.csStep h.stamped (.store n d f t) fun _ _ _ now hcall => by
      cases hcall
      exact UInt64.le_refl t
  rcases psirpCsStore_cases_of_unlimited h.unlimited n d f t with
    ⟨hs, -⟩ | ⟨-, i, b, hi, hs⟩ | ⟨-, -, -, b, hs⟩
  · rw [hs]
    exact h
  · rw [hs] at hstamped ⊢
    obtain ⟨hlt, heq, -⟩ := List.findIdx?_eq_some_iff_getElem.mp hi
    have he := List.getElem?_eq_getElem hlt
    refine h.modify rfl rfl (fun _ => rfl) (fun a ha hk => ?_) hstamped
    -- the entry that is overwritten is under the other name
    obtain rfl := Option.some.inj (he.symm.trans ha)
    exact absurd ((psirpNameEqual_iff.mp heq).2.symm.trans hk) (Ne.symm hold)
  · rw [hs] at hstamped ⊢
    have hother : (newEntry n d f t).components ≠ k.components := Ne.symm hnew
    refine ⟨?_, fun e he hk => ?_, fun pkt hpkt hlive => ?_, h.named, hstamped, h.unlimited⟩
    · change ((cs.entries ++ [newEntry n d f t]).map PsirpCsEntry.components).count _ ≤ 1
      rw [List.map_append, List.count_append, List.map_singleton,
        List.count_singleton, if_neg (by simpa using hother)]
      exact h.one
    · rcases List.mem_append.mp he with he | he
      · exact h.shown e he hk
      · rw [List.mem_singleton.mp he] at hk
        exact absurd hk hother
    · change _ ∈ (cs.entries ++ [newEntry n d f t]).map PsirpCsEntry.components
      rw [List.map_append]
      exact List.mem_append_left _ (h.kept pkt hpkt hlive)

/-- A new entry for the name of `k` is under it. -/
theorem replyOf_newEntry (k : PlainKey) (d : List UInt8) (f : UInt32) (now : UInt64) :
    replyOf (newEntry k.name d f now) = ⟨k.name, d, now, f⟩ := by
  have hname : entryName k.name = k.name := by
    rw [k.parsed.entryName_eq, k.name_eq]
  rw [replyOf, newEntry, hname]

/-- **Storing under the name.** -/
theorem Stands.store_own (h : Stands k last t cs) (d : List UInt8) (f : UInt32) :
    Stands k (if (psirpCsStore cs k.name d f t).1 then some ⟨k.name, d, t, f⟩ else last) t
      (psirpCsStore cs k.name d f t).2 := by
  have hstamped : StampedBy t (psirpCsStore cs k.name d f t).2 :=
    StampedBy.csStep h.stamped (.store k.name d f t) fun _ _ _ now hcall => by
      cases hcall
      exact UInt64.le_refl t
  have hnamed : ∀ pkt, some (⟨k.name, d, t, f⟩ : PsirpData) = some pkt → pkt.name = k.name := by
    rintro pkt ⟨⟩
    rfl
  have hcomps : k.name.components = k.components := k.components_name
  rcases psirpCsStore_cases_of_unlimited h.unlimited k.name d f t with
    ⟨hs, -⟩ | ⟨-, i, b, hi, hs⟩ | ⟨-, -, hnone, b, hs⟩
  · rw [hs]
    exact h
  · -- the entry is overwritten
    rw [hs] at hstamped ⊢
    obtain ⟨hlt, heq, -⟩ := List.findIdx?_eq_some_iff_getElem.mp hi
    have he := List.getElem?_eq_getElem hlt
    have hk : (cs.entries[i]).components = k.components :=
      (psirpNameEqual_iff.mp heq).2.trans hcomps
    have hmap : (cs.entries.modify i (overwrite d f t)).map PsirpCsEntry.components =
        cs.entries.map PsirpCsEntry.components := map_modify_of_comp fun _ => rfl
    have hone := h.one
    rw [← hmap] at hone
    have hmem : overwrite d f t cs.entries[i] ∈ cs.entries.modify i (overwrite d f t) := by
      refine List.mem_of_getElem? (i := i) ?_
      rw [List.getElem?_modify_eq, he]
      rfl
    refine ⟨hone, fun e he' hk' => ?_, fun _ _ _ => List.mem_map.mpr ⟨_, hmem, hk⟩, hnamed,
      hstamped, h.unlimited⟩
    rw [eq_of_count_le_one hone he' hmem hk' hk, if_pos rfl]
    change _ = some (⟨cs.entries[i].name, d, t, f⟩ : PsirpData)
    rw [h.name_eq (List.mem_of_getElem? he) hk]
  · -- there was none, and one is appended
    rw [hs] at hstamped ⊢
    have habsent : ∀ e ∈ cs.entries, e.components ≠ k.components := by
      intro e he hk
      have hmiss := List.findIdx?_eq_none_iff.mp hnone e he
      rw [h.name_eq he hk, psirpNameEqual_iff.mpr ⟨rfl, rfl⟩] at hmiss
      cases hmiss
    have hreply := replyOf_newEntry k d f t
    have hk : (newEntry k.name d f t).components = k.components := by
      rw [← hcomps]
      exact congrArg (fun pkt : PsirpData => pkt.name.components) hreply
    refine ⟨?_, fun e he hk' => ?_, fun _ _ _ => ?_, hnamed, hstamped, h.unlimited⟩
    · change ((cs.entries ++ [newEntry k.name d f t]).map PsirpCsEntry.components).count _ ≤ 1
      have hzero : (cs.entries.map PsirpCsEntry.components).count k.components = 0 :=
        List.count_eq_zero.mpr fun hmem => by
          obtain ⟨e, he, hke⟩ := List.mem_map.mp hmem
          exact habsent e he hke
      rw [List.map_append, List.count_append, hzero, Nat.zero_add]
      exact List.count_le_length
    · rcases List.mem_append.mp he with he | he
      · exact absurd hk' (habsent e he)
      · rw [List.mem_singleton.mp he, hreply]
        rfl
    · exact List.mem_map.mpr ⟨_, List.mem_append_right _ (List.mem_singleton_self _), hk⟩

/-- **A lookup** finds what was published last, if it is not too old. -/
theorem Stands.lookupEntry (h : Stands k last t cs) {n : PsirpName}
    (hn : n.components = k.components) (hv : n.hasVersion = false) :
    (lookupEntry cs n t).map replyOf = last.filter fun pkt => decide (pkt.Unexpired t) := by
  have hscan : lookupIndex cs.entries n t = cs.entries.findIdx? (liveBase n t) := by
    rw [lookupIndex, hv, if_neg Bool.false_ne_true]
    refine findNewest_of_version_zero fun e he hlive => ?_
    rw [liveBase, Bool.and_eq_true, nameBaseEqual_iff] at hlive
    rw [h.name_eq he (hlive.2.trans hn), k.name_eq]
  apply Option.ext
  intro pkt
  rw [Option.map_eq_some_iff, Option.filter_eq_some_iff, decide_eq_true_eq]
  refine ⟨?_, ?_⟩
  · rintro ⟨e, he, rfl⟩
    obtain ⟨e₀, he₀, rfl, hlive⟩ := live_of_lookupEntry he
    have hk : e₀.components = k.components := (components_of_lookupEntry he).trans hn
    exact ⟨h.shown e₀ he₀ hk, (unexpired_replyOf (h.stamped e₀ he₀)).mpr hlive⟩
  · rintro ⟨hlast, hlive⟩
    obtain ⟨e, he, hk⟩ := List.mem_map.mp (h.kept pkt hlast hlive)
    obtain rfl := Option.some.inj (hlast.symm.trans (h.shown e he hk))
    have hfresh := (unexpired_replyOf (h.stamped e he)).mp hlive
    have htest : liveBase n t e = true := by
      rw [liveBase, hfresh, Bool.not_false, Bool.true_and, nameBaseEqual_iff]
      exact hk.trans hn.symm
    -- it is the only entry that passes
    rcases hi : cs.entries.findIdx? (liveBase n t) with _ | i
    · rw [List.findIdx?_eq_none_iff.mp hi e he] at htest
      cases htest
    · obtain ⟨hlt, hbase, -⟩ := List.findIdx?_eq_some_iff_getElem.mp hi
      rw [liveBase, Bool.and_eq_true, nameBaseEqual_iff] at hbase
      have hget := List.getElem?_eq_getElem hlt
      obtain rfl := eq_of_count_le_one h.one (List.mem_of_getElem? hget) he
        (hbase.2.trans hn) hk
      exact ⟨touch t cs.entries[i], lookupEntry_eq_some_iff.mpr
        ⟨i, _, hscan.trans hi, hget, rfl⟩, rfl⟩

end Steps

/-! ## The publisher -/

/-- A name is written as the path of `k`, if it is one with these components. -/
def WrittenAs (k : PlainKey) (name : CString) : Prop :=
  ∀ n, psirpNameInit name = (true, n) → n.components = k.components → n = k.name

/-- What `main` publishes does not stand under another spelling of the name. -/
def Publishable.Sound (k : PlainKey) : Publishable → Prop
  | .page name _ => (psirpNameInit name).1 = true ∧ WrittenAs k name
  | .file name _ => WrittenAs k name

/-- What is published under the name after a step, if something is. -/
def lastUnder (k : PlainKey) (last published : Option PsirpData) : Option PsirpData :=
  (published.filter fun pkt => decide (pkt.name.components = k.components)).or last

/-- What was published last under the name. -/
def lastPublished (k : PlainKey) : List PublisherOut → Option PsirpData
  | outs => outs.foldl (fun last out => lastUnder k last out.published) none

theorem lastPublished_concat (k : PlainKey) (outs : List PublisherOut) (out : PublisherOut) :
    lastPublished k (outs ++ [out]) = lastUnder k (lastPublished k outs) out.published :=
  List.foldl_append

section Publishing

variable {k : PlainKey} {last : Option PsirpData} {node : PsirpNode} {env : PublishEnv}

/-- A name in canonical form. -/
theorem eq_name_of_selfHashed {n : PsirpName} (hself : n.SelfHashed) (hversion : n.version = 0)
    (hflag : n.hasVersion = false) (h : n.components = k.components) : n = k.name := by
  have hhash : n.hash = pathHash k.components := by
    rw [← h]
    exact hself
  rw [k.name_eq]
  exact PsirpName.ext h hhash hversion hflag

/-- A name that is parsed is filed under its components only. -/
theorem filedUnder_of_parsed {n : PsirpName} (hn : Parsed n) {cs : List CString}
    (h : FiledUnder n cs) : cs = n.components := by
  refine h.elim id fun hcs => ?_
  rw [hcs, psirpNameInitComponents_of_plain hn.wellFormed.plain n.count_le]

/-- **Publishing** content under a name that is parsed. -/
theorem Stands.publishAs (h : Stands k last env.now node.cs) {n : PsirpName} (hn : Parsed n)
    (hk : n.components = k.components → n = k.name) (data : List UInt8) (freshnessMs : UInt32) :
    Stands k (lastUnder k last (publishAs node n data freshnessMs env).1) env.now
        (publishAs node n data freshnessMs env).2.1.cs ∧
      (publishAs node n data freshnessMs env).2.1.fib = node.fib := by
  rw [DsoBrowser.publishAs, psirpNetPublish]
  rcases hs : psirpCsStore node.cs n data freshnessMs env.now with ⟨_ | _, cs⟩
  · refine ⟨?_, rfl⟩
    by_cases hcomps : n.components = k.components
    · obtain rfl := hk hcomps
      have hown := h.store_own data freshnessMs
      rw [hs] at hown
      exact hown
    · have hother := h.store_other (fun hf => hcomps (filedUnder_of_parsed hn hf).symm) data
        freshnessMs
      rw [hs] at hother
      exact hother
  · refine ⟨?_, rfl⟩
    by_cases hcomps : n.components = k.components
    · obtain rfl := hk hcomps
      have hown := h.store_own data freshnessMs
      rw [hs] at hown
      simp only [lastUnder, if_true, Option.filter_some, hcomps, decide_true, Option.some_or]
      exact hown
    · have hother := h.store_other (fun hf => hcomps (filedUnder_of_parsed hn hf).symm) data
        freshnessMs
      rw [hs] at hother
      simp only [lastUnder, if_true, Option.filter_some, hcomps, decide_false, if_false,
        Option.none_or, Bool.false_eq_true]
      exact hother

/-- Publishing a page or a file. -/
theorem Stands.publish (h : Stands k last env.now node.cs) {p : Publishable} (hp : p.Sound k) :
    Stands k (lastUnder k last (p.publish node env).1) env.now (p.publish node env).2.1.cs ∧
      (p.publish node env).2.1.fib = node.fib := by
  cases p with
  | page name content =>
    have hok : psirpNameInit name = (true, (psirpNameInit name).2) := Prod.ext hp.1 rfl
    exact h.publishAs ⟨name, hok⟩ (hp.2 _ hok) content 60000
  | file name f =>
    rw [Publishable.publish, publishFile]
    split
    · exact ⟨h, rfl⟩
    · split
      · exact ⟨h, rfl⟩
      · rename_i n hok
        exact h.publishAs ⟨name, hok⟩ (hp n hok) f.content (fileFreshness f.path)

end Publishing

/-- A publisher that answers for the name. -/
structure Serving (k : PlainKey) (last : Option PsirpData) (t : UInt64) (s : Publisher) : Prop where
  /-- its store -/
  stands : Stands k last t s.node.cs
  /-- it has no routes -/
  fib : s.node.fib = []
  /-- what is left to publish -/
  left : ∀ p ∈ s.left, p.Sound k

section Runs

variable {k : PlainKey}

/-- The test pages are written as they should be. -/
theorem sound_testPages (k : PlainKey) :
    ∀ p ∈ [Publishable.page keyTestPage testPage, .page keyTestPage2 testPage2], p.Sound k := by
  have hsound : ∀ {name : CString} {content : List UInt8}, (psirpNameInit name).1 = true →
      (psirpNameInit name).2.SelfHashed → (psirpNameInit name).2.version = 0 →
      (psirpNameInit name).2.hasVersion = false → (Publishable.page name content).Sound k := by
    intro name content hok hself hversion hflag
    refine ⟨hok, fun n hn hk => ?_⟩
    rw [hn] at hself hversion hflag
    exact eq_name_of_selfHashed hself hversion hflag hk
  intro p hp
  rcases List.mem_cons.mp hp with rfl | hp
  · exact hsound (by decide) (by decide) (by decide) (by decide)
  · rw [List.mem_singleton.mp hp]
    exact hsound (by decide) (by decide) (by decide) (by decide)

/-- An Interest that was decoded asks for no version. -/
theorem hasVersion_of_interest {buf : List UInt8} {interest : PsirpInterest}
    (h : psirpInterestDeserialize PsirpInterest.zero buf = some interest) :
    interest.name.hasVersion = false := by
  rw [psirpInterestDeserialize] at h
  split at h
  · cases h
  · split at h
    · cases h
    · dsimp only at h
      split at h
      · cases h
      · obtain ⟨⟨comps, hashBuf, rest⟩, -, h⟩ := Option.bind_eq_some_iff.mp h
        obtain ⟨name, hname, h⟩ := Option.bind_eq_some_iff.mp h
        obtain rfl := Option.some.inj h
        rw [decodedName] at hname
        split at hname
        · obtain rfl := Option.some.inj hname
          rfl
        · cases hname

/-- No Data packet comes in for the name. -/
def PublisherInput.Foreign (k : PlainKey) : PublisherInput → Prop
  | .unicast _ buf _ => ∀ data, psirpDataDeserialize PsirpData.zero buf = some data →
      ¬ FiledUnder data.name k.components
  | _ => True

/-- **Step lemma.** Whatever comes in, but for Data packets for the name. -/
theorem Serving.step {last : Option PsirpData} {t : UInt64} {s : Publisher}
    (h : Serving k last t s) {i : PublisherInput} (hread : ∀ r, i.reading = some r → r = t)
    (hforeign : i.Foreign k) :
    Serving k (lastUnder k last (publisherStep s i).1.published) t (publisherStep s i).2 := by
  cases i with
  | main env =>
    obtain rfl := hread env.now rfl
    rw [publisherStep]
    split
    · exact ⟨h.stands.gc, h.fib, h.left⟩
    · rename_i p ps hleft
      have hsound := h.left
      rw [hleft] at hsound
      obtain ⟨hstands, hfib⟩ := h.stands.publish (hsound p List.mem_cons_self)
      exact ⟨hstands, hfib.trans h.fib, fun q hq => hsound q (List.mem_cons_of_mem _ hq)⟩
  | unicast src buf env =>
    obtain rfl := hread env.now rfl
    rcases recvUnicast_cases s.node src buf env with
      ⟨interest, -, hrecv⟩ | ⟨data, hdec, hrecv⟩ | hrecv
    · obtain ⟨hcs, hfib⟩ := recvInterest_node s.node src interest env
      rw [publisherStep, hrecv]
      refine ⟨?_, hfib.trans h.fib, h.left⟩
      change Stands k last env.now (recvInterest s.node src interest env).1.cs
      rw [hcs]
      exact h.stands.lookup interest.name env.now
    · rw [publisherStep, hrecv]
      exact ⟨h.stands.store_other (hforeign data hdec) data.data data.freshnessMs, h.fib, h.left⟩
    · rw [publisherStep, hrecv]
      exact h
  | multicast src buf =>
    obtain ⟨hcs, hfib⟩ := recvMulticast_node s.node src buf
    refine ⟨?_, hfib.trans h.fib, h.left⟩
    change Stands k last t (recvMulticast s.node src buf).cs
    rw [hcs]
    exact h.stands

/-- The clock does not go back over the steps. -/
def PublisherClock (is : List PublisherInput) : Prop :=
  (is.filterMap PublisherInput.reading).Pairwise (· ≤ ·)

instance (is : List PublisherInput) : Decidable (PublisherClock is) :=
  inferInstanceAs (Decidable (List.Pairwise _ _))

/-- **Run lemma.** -/
theorem serving_run (hasMcast : Bool) {files : List DirectoryFile}
    (hfiles : ∀ f ∈ files, WrittenAs k (slash :: f.rel)) {is : List PublisherInput}
    (hforeign : ∀ i ∈ is, i.Foreign k) (hclock : PublisherClock is) {t : UInt64}
    (ht : ∀ r ∈ is.filterMap PublisherInput.reading, r ≤ t) :
    Serving k (lastPublished k (outs publisherStep (publisherStart hasMcast files) is)) t
      (exec publisherStep (publisherStart hasMcast files) is) := by
  induction is using List.reverseRecOn generalizing t with
  | nil =>
    refine ⟨stands_init k t, rfl, fun p hp => ?_⟩
    rcases List.mem_append.mp hp with hp | hp
    · exact sound_testPages k p hp
    · obtain ⟨f, hf, rfl⟩ := List.mem_map.mp hp
      exact hfiles f hf
  | append_singleton is i ih =>
    rw [PublisherClock, List.filterMap_append, List.pairwise_append] at hclock
    rw [List.filterMap_append] at ht
    rw [outs_append, exec_append]
    have hbefore := fun {t} => ih (t := t) (fun j hj => hforeign j (List.mem_append_left _ hj))
      hclock.1
    have hi := hforeign i (List.mem_append_right _ (List.mem_singleton_self i))
    change Serving k (lastPublished k (_ ++ [_])) t (publisherStep _ i).2
    rw [lastPublished_concat]
    rcases hread : i.reading with _ | r
    · refine (hbefore fun r hr => ht r (List.mem_append_left _ hr)).step (fun r hr => ?_) hi
      rw [hread] at hr
      cases hr
    · -- the step reads the clock later than all steps before it
      have hmem : r ∈ [i].filterMap PublisherInput.reading :=
        List.mem_filterMap.mpr ⟨i, List.mem_singleton_self i, hread⟩
      have hstep := (hbefore fun r' hr' => hclock.2.2 r' hr' r hmem).step (i := i)
        (fun r' hr' => Option.some.inj (hr'.symm.trans hread)) hi
      have hle : r ≤ t := ht r (List.mem_append_right _ hmem)
      exact ⟨hstep.stands.mono hle, hstep.fib, hstep.left⟩

end Runs

/-- `/x.html` -/
def keyHtml : PlainKey := ⟨[text ['x', '.', 'h', 't', 'm', 'l']], by decide, by decide, by decide⟩

/-- A directory with `x.html` in it. -/
def filesHtml : List DirectoryFile :=
  [⟨text ['x', '.', 'h', 't', 'm', 'l'], text ['x', '.', 'h', 't', 'm', 'l'], [7]⟩]

/-- The publisher publishes, and collects. -/
def servedRun : List PublisherInput :=
  [.main ⟨1, 1, fun _ => true⟩, .main ⟨2, 2, fun _ => true⟩, .main ⟨3, 3, fun _ => true⟩,
    .main ⟨4, 4, fun _ => true⟩]

/-- An Interest for `/x.html` comes from `1:1`. -/
def askHtml : List UInt8 := (psirpInterestSerialize ⟨keyHtml.name, 0, 100⟩ 64).getD []

end DsoBrowser

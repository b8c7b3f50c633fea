import DsoBrowser.HeardPrefixes

/-!
# The beacon round trip

A beacon tells the receiver the sender's prefixes when no component has a semicolon in it, no
prefix is longer than the receiver's buffer, each is hashed over its own path, all fit the
sender's buffer, and the name has no bar in it (`beaconRoundTrip_iff`). A bar in the name spoils
the first prefix string; that does no harm only if the first prefix comes again and the spoilt
string happens to name another prefix.
-/

namespace DsoBrowser

open Segments Table

/-! ## The routes of a fresh context -/

section Routes

variable {i : Nat} {ss : List CString}

theorem mem_addRoutes_nil {r : PsirpName × Nat} (h : r ∈ addRoutes i [] ss) :
    ∃ s ∈ ss, r = (heardPrefix s, i) := by
  obtain ⟨before, s, after, rfl, hr, -⟩ := @mem_addRoutes i [] r ss h
  exact ⟨s, List.mem_append_right _ List.mem_cons_self, hr⟩

theorem length_addRoutes_le (i : Nat) (ss : List CString) :
    (addRoutes i [] ss).length ≤ ss.length := by
  induction ss using List.reverseRecOn with
  | nil => exact le_rfl
  | append_singleton ss s ih =>
    rw [addRoutes_concat, addRoute, List.length_append, List.length_singleton]
    split
    · exact Nat.le_succ_of_le ih
    · rw [List.length_append, List.length_singleton]
      exact Nat.succ_le_succ ih

/-- Every string is routed, there is room. -/
theorem routed_addRoutes (hle : ss.length ≤ meshMaxFib) {s : CString} (hs : s ∈ ss) :
    ∃ r ∈ addRoutes i [] ss, psirpNameEqual r.1 (heardPrefix s) = true := by
  obtain ⟨before, after, rfl⟩ := List.append_of_mem hs
  have hpre := addRoutes_initial i [] before (s :: after)
  by_cases hknown : RouteKnown (addRoutes i [] before) i (heardPrefix s)
  · rcases hknown with hfull | ⟨r, hr, heq, -⟩
    · rw [List.length_append, List.length_cons] at hle
      have hlen := length_addRoutes_le i before
      omega
    · exact ⟨r, hpre.subset hr, heq⟩
  · exact ⟨_, @mem_drop_addRoutes i [] before s after hknown,
      psirpNameEqual_iff.mpr ⟨rfl, rfl⟩⟩

/-- No prefix is routed twice. -/
theorem pairwise_addRoutes (i : Nat) (ss : List CString) :
    (addRoutes i [] ss).Pairwise fun r r' => ¬ psirpNameEqual r.1 r'.1 = true := by
  induction ss using List.reverseRecOn with
  | nil => exact List.Pairwise.nil
  | append_singleton ss s ih =>
    rw [addRoutes_concat, addRoute]
    split
    · exact ih
    · rename_i hnew
      refine List.pairwise_append.mpr ⟨ih, List.pairwise_singleton _ _, ?_⟩
      intro r hr r' hr' heq
      obtain ⟨t, -, rfl⟩ := mem_addRoutes_nil hr
      obtain rfl := List.mem_singleton.mp hr'
      exact hnew (Or.inr ⟨_, hr, heq, rfl⟩)

/-- The strings name the prefixes and nothing else. -/
structure SaysExactly (ss : List CString) (ps : List PsirpName) : Prop where
  /-- no prefix is missing -/
  complete : ∀ p ∈ ps, ∃ s ∈ ss, psirpNameEqual (heardPrefix s) p = true
  /-- no string is of anything else -/
  sound : ∀ s ∈ ss, ∃ p ∈ ps, psirpNameEqual (heardPrefix s) p = true

/-- **One route for each prefix and no other** is what strings that say the prefixes give. -/
theorem saysExactly_iff {ps : List PsirpName} (hle : ss.length ≤ meshMaxFib) :
    SaysExactly ss ps ↔
      (∀ p ∈ ps, (addRoutes i [] ss).countP
        (fun r => psirpNameEqual r.1 p && decide (r.2 = i)) = 1) ∧
      ∀ r ∈ addRoutes i [] ss, r.2 = i ∧ ∃ p ∈ ps, psirpNameEqual r.1 p = true := by
  constructor
  · intro h
    refine ⟨fun p hp => ?_, fun r hr => ?_⟩
    · obtain ⟨s, hs, hsp⟩ := h.complete p hp
      obtain ⟨r, hr, hrs⟩ := routed_addRoutes (i := i) hle hs
      have hri : r.2 = i := by
        obtain ⟨t, -, rfl⟩ := mem_addRoutes_nil hr
        rfl
      refine countP_eq_one (pairwise_addRoutes i ss) ?_ hr ?_
      · intro a b ha hb hne
        rw [Bool.and_eq_true, psirpNameEqual_iff] at ha hb
        exact hne (psirpNameEqual_iff.mpr ⟨ha.1.1.trans hb.1.1.symm, ha.1.2.trans hb.1.2.symm⟩)
      · rw [Bool.and_eq_true, decide_eq_true_eq]
        rw [psirpNameEqual_iff] at hrs hsp ⊢
        exact ⟨⟨hrs.1.trans hsp.1, hrs.2.trans hsp.2⟩, hri⟩
    · obtain ⟨s, hs, rfl⟩ := mem_addRoutes_nil hr
      exact ⟨rfl, h.sound s hs⟩
  · rintro ⟨hone, hall⟩
    refine ⟨fun p hp => ?_, fun s hs => ?_⟩
    · obtain ⟨r, hr, hrp⟩ := List.countP_pos_iff.mp (hone p hp ▸ Nat.one_pos)
      obtain ⟨s, hs, rfl⟩ := mem_addRoutes_nil hr
      exact ⟨s, hs, (Bool.and_eq_true _ _ ▸ hrp).1⟩
    · obtain ⟨r, hr, hrs⟩ := routed_addRoutes (i := i) hle hs
      obtain ⟨-, p, hp, hrp⟩ := hall r hr
      refine ⟨p, hp, ?_⟩
      rw [psirpNameEqual_iff] at hrs hrp ⊢
      exact ⟨hrs.1.symm.trans hrp.1, hrs.2.symm.trans hrp.2⟩

end Routes

/-! ## The receiver -/

/-- The context of a fresh receiver after it has processed the text. -/
def received (node : Option PsirpNode) (cs : MeshStore) (text : CString) (src : PsirpPeer)
    (now : Nat → UInt64) : MeshCtx :=
  (meshProcessBeacon (meshInit node cs) text text.length src now).2

/-- The beacon of a peer with these prefixes gives a fresh receiver one route to the peer for each
of them and no other. -/
def BeaconRoundTrip (ps : LocalPrefixes) (node : Option PsirpNode) (cs : MeshStore)
    (src : PsirpPeer) (now : Nat → UInt64) : Prop :=
  ∃ text, beaconText ps.all = some text ∧
    ∃ i, ((received node cs text src now).peers[i]?).map MeshPeer.addr = some src ∧
      (∀ p ∈ ps.all, (received node cs text src now).fib.countP (isRoute p i) = 1) ∧
      ∀ e ∈ (received node cs text src now).fib,
        e.peerIndex = i ∧ ∃ p ∈ ps.all, psirpNameEqual e.pfx p = true

section Receiver

variable {node : Option PsirpNode} {cs : MeshStore} {src : PsirpPeer} {now : Nat → UInt64}

variable (node cs src now) in
/-- A fresh context hears every beacon, from peer `0`. -/
theorem heardFrom_fresh (name s : CString) :
    HeardFrom (meshInit node cs) (beaconStart name ++ s) (beaconStart name ++ s).length src now 0 := by
  have htext : beaconStart name ++ s = beaconHeader ++ (name ++ bar :: s) := by
    simp [beaconStart]
  rw [htext]
  refine ⟨?_, List.take_left, ?_, rfl⟩
  · rw [List.length_append]
    exact Nat.le_add_right _ _
  · rw [List.drop_left]
    exact List.mem_append_right _ List.mem_cons_self

variable (node cs src now) in
theorem received_eq (name s : CString) :
    (received node cs (beaconStart name ++ s) src now).routes =
        addRoutes 0 [] (beaconStrings (beaconStart name ++ s)) ∧
      (received node cs (beaconStart name ++ s) src now).peers.map MeshPeer.addr = [src] := by
  have hheard := heardFrom_fresh node cs src now name s
  generalize hss : beaconStrings (beaconStart name ++ s) = ss
  rw [received, meshProcessBeacon_of_heard hheard, hss]
  generalize hctx : afterStrings _ _ _ _ _ ss = ctx
  have hroutes : ctx.routes = addRoutes 0 [] ss := by
    rw [← hctx]
    exact routes_afterStrings hheard ss
  have haddr : ctx.peers.map MeshPeer.addr = [src] := by
    rw [← hctx, afterStrings, map_peers_announceAll fun _ _ => rfl]
    rfl
  exact ⟨hroutes, haddr⟩

/-- The round trip is a matter of the strings. -/
theorem beaconRoundTrip_iff_saysExactly {ps : LocalPrefixes} :
    BeaconRoundTrip ps node cs src now ↔
      ∃ text, beaconText ps.all = some text ∧ SaysExactly (beaconStrings text) ps.all := by
  refine exists_congr fun text => and_congr_right fun htext => ?_
  obtain ⟨rest, rfl⟩ : ∃ rest, text = beaconStart (beaconName ps.all) ++ rest := by
    obtain ⟨rest, rfl⟩ := beaconText_eq_some htext
    exact ⟨rest, by simp [beaconStart]⟩
  obtain ⟨hroutes, haddr⟩ := received_eq node cs src now (beaconName ps.all) rest
  generalize received node cs (beaconStart (beaconName ps.all) ++ rest) src now = ctx at *
  have hle : (beaconStrings (beaconStart (beaconName ps.all) ++ rest)).length ≤ meshMaxFib :=
    (List.length_take_le _ _).trans (by decide)
  have hcount : ∀ p i, ctx.fib.countP (isRoute p i) =
      ctx.routes.countP fun r => psirpNameEqual r.1 p && decide (r.2 = i) := by
    intro p i
    rw [MeshCtx.routes, List.countP_map]
    rfl
  have hmem : ∀ e ∈ ctx.fib, (e.pfx, e.peerIndex) ∈ ctx.routes := fun e he =>
    List.mem_map_of_mem he
  rw [hroutes] at hcount hmem
  constructor
  · rintro ⟨i, -, hone, hall⟩
    -- the first prefix has a route, and all routes are to peer `0`
    obtain rfl : i = 0 := by
      have hfirst := hone ps.first List.mem_cons_self
      rw [hcount] at hfirst
      obtain ⟨r, hr, hri⟩ := List.countP_pos_iff.mp (hfirst ▸ Nat.one_pos)
      obtain ⟨t, -, rfl⟩ := mem_addRoutes_nil hr
      rw [Bool.and_eq_true, decide_eq_true_eq] at hri
      exact hri.2.symm
    refine (saysExactly_iff hle).mpr ⟨fun p hp => (hcount p 0).symm.trans (hone p hp), ?_⟩
    intro r hr
    rw [← hroutes] at hr
    obtain ⟨e, he, rfl⟩ := List.mem_map.mp hr
    exact hall e he
  · intro h
    obtain ⟨hone, hall⟩ := (saysExactly_iff (i := 0) hle).mp h
    refine ⟨0, ?_, fun p hp => (hcount p 0).trans (hone p hp), fun e he => hall _ (hmem e he)⟩
    rw [← List.getElem?_map, haddr]
    rfl

end Receiver

/-! ## Prefixes that get through -/

/-- The first prefix string as the receiver reads it. -/
def LocalPrefixes.firstRead (ps : LocalPrefixes) : CString :=
  firstString (beaconName ps.all) (writtenPrefix ps.first)

/-- The prefixes get through a beacon. -/
structure GetsThrough (ps : LocalPrefixes) : Prop where
  /-- no component has a semicolon -/
  undelimited : ∀ p ∈ ps.all, ∀ c ∈ p.components, semicolon ∉ c
  /-- each prefix fits the receiver's buffer -/
  short : ∀ p ∈ ps.all, (writtenPrefix p).length < peerNameBufSize
  /-- each is hashed over its own path -/
  selfHashed : ∀ p ∈ ps.all, p.SelfHashed
  /-- together they fit the sender's -/
  fits : (beaconStart (beaconName ps.all)).length + (writtenPrefixes ps.all).length < beaconLimit
  /-- the name has no bar, or the first prefix comes again and its string names another one -/
  barFree : bar ∉ beaconName ps.all ∨
    (∃ q ∈ ps.rest, q.components = ps.first.components) ∧
      ∃ q ∈ ps.rest, psirpNameEqual (heardPrefix ps.firstRead) q = true

section Through

variable {ps : LocalPrefixes}

theorem LocalPrefixes.pathComponent (ps : LocalPrefixes) :
    ∀ p ∈ ps.all, ∀ c ∈ p.components, PathComponent c :=
  fun p hp => (ps.canonical p hp).pathComponent

theorem LocalPrefixes.name_mem (ps : LocalPrefixes) :
    beaconName ps.all ∈ ps.first.components := by
  obtain ⟨cs, hcs⟩ := ps.first_eq
  rw [hcs]
  exact List.mem_cons_self

theorem semicolon_notMem_writtenPrefix
    (h : ∀ p ∈ ps.all, ∀ c ∈ p.components, semicolon ∉ c) :
    ∀ p ∈ ps.all, semicolon ∉ writtenPrefix p := by
  intro p hp hm
  rcases (ps.canonical p hp).mem_writtenPrefix hm with he | ⟨c, hc, hx⟩
  · exact absurd he (by decide)
  · exact h p hp c hc hx

/-- What the receiver reads, when nothing is cut off. -/
theorem beaconStrings_of_fits (hsemi : ∀ p ∈ ps.all, ∀ c ∈ p.components, semicolon ∉ c)
    (hfits : (beaconStart (beaconName ps.all)).length + (writtenPrefixes ps.all).length <
      beaconLimit) :
    ∃ text, beaconText ps.all = some text ∧
      beaconStrings text = ps.firstRead :: ps.rest.map writtenPrefix := by
  refine ⟨_, beaconText_of_fits (fun p hp => (ps.canonical p hp).components_ne) hfits, ?_⟩
  have hwritten : writtenPrefixes ps.all =
      writtenPrefix ps.first ++ (ps.rest.map writtenPrefix).flatMap (semicolon :: ·) := by
    rw [writtenPrefixes, LocalPrefixes.all, List.flatMap_cons, List.flatMap_map]
    rfl
  rw [hwritten, beaconStrings_eq (hsemi ps.first List.mem_cons_self _ ps.name_mem)]
  · rfl
  · rw [← List.map_cons (f := writtenPrefix)]
    intro t ht
    obtain ⟨p, hp, rfl⟩ := List.mem_map.mp ht
    exact ⟨(ps.canonical p hp).writtenPrefix_ne_nil, semicolon_notMem_writtenPrefix hsemi p hp⟩
  · simpa using ps.count_le

/-- A name with a bar changes what comes before the first slash. -/
theorem LocalPrefixes.firstRead_of_bar (ps : LocalPrefixes) (h : bar ∈ beaconName ps.all) :
    ∃ d cs, ps.firstRead = d ++ pathOf cs ∧ ps.first.components = beaconName ps.all :: cs ∧
      (d ≠ [] ∧ slash ∉ d) ∧ atSign ∉ d ∧ (beaconName ps.all).length < d.length := by
  obtain ⟨cs, hcs⟩ := ps.first_eq
  obtain ⟨a, b, hname, ha⟩ := List.eq_append_cons_of_mem h
  have hc := ps.pathComponent _ List.mem_cons_self _ ps.name_mem
  refine ⟨b ++ bar :: beaconName ps.all, cs, ?_, hcs, ⟨?_, ?_⟩, ?_, ?_⟩
  · rw [LocalPrefixes.firstRead, writtenPrefix_of_cons hcs]
    conv_lhs => arg 1; rw [hname]
    rw [firstString_of_bar ha]
    simp
  · exact List.append_ne_nil_of_right_ne_nil _ (List.cons_ne_nil _ _)
  · intro hm
    have hb : slash ∉ b := fun hb => hc.noSlash (by rw [hname]; simp [hb])
    rcases List.mem_append.mp hm with hm | hm
    · exact hb hm
    · exact (List.mem_cons.mp hm).elim (by decide) hc.noSlash
  · intro hm
    have hb : atSign ∉ b := fun hb => hc.noAt (by rw [hname]; simp [hb])
    rcases List.mem_append.mp hm with hm | hm
    · exact hb hm
    · exact (List.mem_cons.mp hm).elim (by decide) hc.noAt
  · rw [List.length_append, List.length_cons]
    omega

/-- **Prefixes that get through** are what the strings say. -/
theorem GetsThrough.saysExactly (h : GetsThrough ps) :
    ∃ text, beaconText ps.all = some text ∧ SaysExactly (beaconStrings text) ps.all := by
  obtain ⟨text, htext, hstrings⟩ := beaconStrings_of_fits h.undelimited h.fits
  refine ⟨text, htext, ?_⟩
  rw [hstrings]
  have hread : ∀ p ∈ ps.all, psirpNameEqual (heardPrefix (writtenPrefix p)) p = true := by
    intro p hp
    obtain ⟨hcomps, hself⟩ := heardPrefix_writtenPrefix (ps.canonical p hp) (h.short p hp)
    exact (psirpNameEqual_of_selfHashed hself).mpr ⟨h.selfHashed p hp, hcomps⟩
  have hrest : ∀ p ∈ ps.rest, ∃ s ∈ ps.firstRead :: ps.rest.map writtenPrefix,
      psirpNameEqual (heardPrefix s) p = true := fun p hp =>
    ⟨writtenPrefix p, List.mem_cons_of_mem _ (List.mem_map_of_mem hp),
      hread p (List.mem_cons_of_mem _ hp)⟩
  have hrest' : ∀ s ∈ ps.rest.map writtenPrefix, ∃ p ∈ ps.all,
      psirpNameEqual (heardPrefix s) p = true := by
    intro s hs
    obtain ⟨p, hp, rfl⟩ := List.mem_map.mp hs
    exact ⟨p, List.mem_cons_of_mem _ hp, hread p (List.mem_cons_of_mem _ hp)⟩
  rcases h.barFree with hbar | ⟨⟨q, hq, hcomps⟩, q', hq', hspoilt⟩
  · have hfirst : ps.firstRead = writtenPrefix ps.first := firstString_of_noBar hbar _
    refine ⟨List.forall_mem_cons.mpr ⟨?_, hrest⟩, List.forall_mem_cons.mpr ⟨?_, hrest'⟩⟩
    · exact ⟨_, List.mem_cons_self, by rw [hfirst]; exact hread _ List.mem_cons_self⟩
    · exact ⟨_, List.mem_cons_self, by rw [hfirst]; exact hread _ List.mem_cons_self⟩
  · refine ⟨List.forall_mem_cons.mpr ⟨?_, hrest⟩, List.forall_mem_cons.mpr ⟨?_, hrest'⟩⟩
    · -- the first prefix is read where it comes again
      obtain ⟨s, hs, hsq⟩ := hrest q hq
      refine ⟨s, hs, psirpNameEqual_iff.mpr ?_⟩
      obtain ⟨hhash, hsc⟩ := psirpNameEqual_iff.mp hsq
      have hq_self : q.SelfHashed := h.selfHashed q (List.mem_cons_of_mem _ hq)
      have hfirst_self : ps.first.SelfHashed := h.selfHashed _ List.mem_cons_self
      exact ⟨by rw [hhash, hq_self, hfirst_self, hcomps], hsc.trans hcomps⟩
    · exact ⟨q', List.mem_cons_of_mem _ hq', hspoilt⟩

/-! ### What the strings cannot say -/

/-- A name read from a string of the beacon has segments of the string. -/
theorem components_heardPrefix {text s : CString} (htext : beaconText ps.all = some text)
    (hs : s ∈ beaconStrings text) :
    (heardPrefix s).components <+: segments slash (s.take (peerNameBufSize - 1)) := by
  have hat : atSign ∉ s.take (peerNameBufSize - 1) := by
    intro hm
    have hmem : atSign ∈ beaconPrefixes text :=
      (mem_segments (List.mem_of_mem_take hs)).2.2.subset (List.mem_of_mem_take hm)
    have htext' : atSign ∈ text :=
      List.mem_of_mem_drop ((List.dropWhile_suffix _).subset (List.mem_of_mem_drop hmem))
    exact atSign_notMem_beaconText (fun p hp c hc => (ps.pathComponent p hp c hc).noAt) htext htext'
  exact (psirpNameInit_unversioned (Or.inl hat)).1

/-- A component with a semicolon is never read. -/
theorem undelimited_of_saysExactly {text : CString} (htext : beaconText ps.all = some text)
    (h : SaysExactly (beaconStrings text) ps.all) :
    ∀ p ∈ ps.all, ∀ c ∈ p.components, semicolon ∉ c := by
  intro p hp c hc hsemi
  obtain ⟨s, hs, hsp⟩ := h.complete p hp
  rw [← (psirpNameEqual_iff.mp hsp).2] at hc
  have hseg := (components_heardPrefix htext hs).subset hc
  exact (mem_segments (List.mem_of_mem_take hs)).2.1
    (List.mem_of_mem_take ((mem_segments hseg).2.2.subset hsemi))

/-- Neither is a prefix that does not fit the receiver's buffer. -/
theorem short_of_saysExactly {text : CString} (htext : beaconText ps.all = some text)
    (h : SaysExactly (beaconStrings text) ps.all) :
    ∀ p ∈ ps.all, (writtenPrefix p).length < peerNameBufSize := by
  intro p hp
  obtain ⟨s, hs, hsp⟩ := h.complete p hp
  obtain ⟨more, hmore⟩ := components_heardPrefix htext hs
  rw [(psirpNameEqual_iff.mp hsp).2] at hmore
  have hlen : ((segments slash (s.take (peerNameBufSize - 1))).flatMap (slash :: ·)).length ≤ _ :=
    length_flatMap_segments_le (s.take (peerNameBufSize - 1))
  rw [← hmore, ← pathOf, pathOf_append, List.length_append,
    ← cons_writtenPrefix (ps.canonical p hp).components_ne, List.length_cons] at hlen
  have htake := List.length_take_le (peerNameBufSize - 1) s
  rw [peerNameBufSize] at *
  omega

theorem length_writtenPrefixes_le {qs : List PsirpName} (hne : qs ≠ [])
    (h : ∀ p ∈ qs, (writtenPrefix p).length < peerNameBufSize) :
    (writtenPrefixes qs).length + 1 ≤ peerNameBufSize * qs.length := by
  have hflat : (qs.flatMap fun p => semicolon :: writtenPrefix p).length ≤
      peerNameBufSize * qs.length := by
    clear hne
    induction qs with
    | nil => exact le_rfl
    | cons q qs ih =>
      have hq := h q List.mem_cons_self
      have hqs := ih fun p hp => h p (List.mem_cons_of_mem _ hp)
      rw [List.flatMap_cons, List.length_append, List.length_cons, List.length_cons, Nat.mul_succ]
      omega
  have hpos : 0 < qs.length := List.length_pos_of_ne_nil hne
  rw [writtenPrefixes, List.length_tail]
  rw [peerNameBufSize] at hflat ⊢
  omega

/-- Prefixes that do not fit the sender's buffer have the last one cut after a slash. -/
theorem beaconStrings_of_full {text : CString} (htext : beaconText ps.all = some text)
    (hsemi : ∀ p ∈ ps.all, ∀ c ∈ p.components, semicolon ∉ c)
    (hshort : ∀ p ∈ ps.all, (writtenPrefix p).length < peerNameBufSize)
    (hfull : beaconLimit ≤
      (beaconStart (beaconName ps.all)).length + (writtenPrefixes ps.all).length) :
    ∃ q ∈ ps.all, ∃ c kept lost, q.components = c :: (kept ++ lost) ∧ lost ≠ [] ∧
      c ++ pathOf kept ++ [slash] ∈ beaconStrings text := by
  have hname : (beaconName ps.all).length < psirpMaxComponent :=
    (ps.pathComponent _ List.mem_cons_self _ ps.name_mem).length_lt
  have hlimit : beaconLimit = 4094 := rfl
  have hcomp : psirpMaxComponent = 64 := rfl
  have hbuf : peerNameBufSize = 256 := rfl
  have hcount := ps.count_le
  have hmax : meshMaxPrefixes = 16 := rfl
  rw [length_beaconStart] at hfull
  rcases List.eq_nil_or_concat' ps.rest with hrest | ⟨qs, q, hrest⟩
  · -- one prefix always fits
    have hall : ps.all = [ps.first] := congrArg (ps.first :: ·) hrest
    have hlen := length_writtenPrefixes_le (by rw [hall]; exact List.cons_ne_nil _ _) hshort
    have hone : ps.all.length = 1 := congrArg List.length hall
    rw [hone, hbuf] at hlen
    omega
  · have hall : ps.all = ps.first :: qs ++ [q] := congrArg (ps.first :: ·) hrest
    have hq : q ∈ ps.all := hall ▸ List.mem_append_right _ (List.mem_singleton_self q)
    have hinit : ∀ p ∈ ps.first :: qs, p ∈ ps.all := fun p hp => hall ▸ List.mem_append_left _ hp
    obtain ⟨c, cs, hcs⟩ := List.exists_cons_of_ne_nil (ps.canonical q hq).components_ne
    have hc : c.length < psirpMaxComponent :=
      (ps.pathComponent q hq c (hcs ▸ List.mem_cons_self)).length_lt
    -- the prefixes before the last one fit
    have hlen := length_writtenPrefixes_le (List.cons_ne_nil ps.first qs)
      fun p hp => hshort p (hinit p hp)
    rw [hrest, List.length_cons, List.length_append, List.length_singleton] at hcount
    rw [List.length_cons, hbuf] at hlen
    have hne : ∀ p ∈ ps.first :: qs, p.components ≠ [] := fun p hp =>
      (ps.canonical p (hinit p hp)).components_ne
    have hstart := length_beaconStart (beaconName ps.all)
    rw [hall] at htext hfull hstart hname
    obtain ⟨kept, lost, rfl, hlost, hstrings⟩ := beaconText_of_cut htext hne hcs (by omega)
      (by rw [hstart]; exact hfull)
    refine ⟨q, hq, c, kept, lost, hcs, hlost, ?_⟩
    rw [← hall] at hstrings
    rw [hstrings, beaconStrings_eq (hsemi ps.first List.mem_cons_self _ ps.name_mem)]
    · simp
    · intro t ht
      rw [← List.cons_append, ← List.map_cons (f := writtenPrefix)] at ht
      rcases List.mem_append.mp ht with ht | ht
      · obtain ⟨p, hp, rfl⟩ := List.mem_map.mp ht
        exact ⟨(ps.canonical p (hinit p hp)).writtenPrefix_ne_nil,
          semicolon_notMem_writtenPrefix hsemi p (hinit p hp)⟩
      · rw [List.mem_singleton.mp ht]
        refine ⟨by simp, fun hm => semicolon_notMem_writtenPrefix hsemi q hq ?_⟩
        have hne : semicolon ∉ [slash] := by decide
        have hm' := (List.mem_append.mp hm).resolve_right hne
        rw [writtenPrefix_of_cons hcs, pathOf_append, ← List.append_assoc]
        exact List.mem_append_left _ hm'
    · simp
      omega

/-- A prefix that is cut off at the end of the sender's buffer is read as another name. -/
theorem fits_of_saysExactly {text : CString} (htext : beaconText ps.all = some text)
    (h : SaysExactly (beaconStrings text) ps.all) :
    (beaconStart (beaconName ps.all)).length + (writtenPrefixes ps.all).length < beaconLimit := by
  have hsemi := undelimited_of_saysExactly htext h
  have hshort := short_of_saysExactly htext h
  by_contra hfull
  obtain ⟨q, hq, c, kept, lost, hcs, hlost, hmem⟩ :=
    beaconStrings_of_full htext hsemi hshort (Nat.not_lt.mp hfull)
  obtain ⟨l, ls, rfl⟩ := List.exists_cons_of_ne_nil hlost
  have hcount := q.count_le
  rw [hcs, List.length_cons, List.length_append, List.length_cons] at hcount
  have hplain : ∀ d ∈ c :: kept, PathComponent d := fun d hd =>
    ps.pathComponent q hq d (by
      rw [hcs, ← List.cons_append]
      exact List.mem_append_left _ hd)
  have hlen : (c ++ pathOf kept ++ [slash]).length < peerNameBufSize := by
    refine lt_of_le_of_lt ?_ (hshort q hq)
    rw [writtenPrefix_of_cons hcs, pathOf_append, pathOf_cons]
    simp
  obtain ⟨hcomps, hhash⟩ := heardPrefix_cut hplain (by rw [List.length_cons]; omega) hlen
  obtain ⟨p, hp, heq⟩ := h.sound _ hmem
  obtain ⟨hhash', hcomps'⟩ := psirpNameEqual_iff.mp heq
  have hself : p.SelfHashed := (ps.canonical p hp).selfHashed (by
    rw [← hcomps', hcomps, List.length_cons]
    omega)
  refine hhash ?_
  rw [PsirpName.SelfHashed, hhash', hcomps']
  exact hself

/-- What is read from the strings of prefixes that are not cut is hashed over its own path, even
if the first string is spoilt. -/
theorem selfHashed_of_saysExactly {text : CString} (htext : beaconText ps.all = some text)
    (h : SaysExactly (beaconStrings text) ps.all) : ∀ p ∈ ps.all, p.SelfHashed := by
  have hshort := short_of_saysExactly htext h
  obtain ⟨text', htext', hstrings⟩ :=
    beaconStrings_of_fits (undelimited_of_saysExactly htext h) (fits_of_saysExactly htext h)
  obtain rfl := Option.some.inj (htext.symm.trans htext')
  have hread : ∀ q ∈ ps.all, (heardPrefix (writtenPrefix q)).SelfHashed := fun q hq =>
    (heardPrefix_writtenPrefix (ps.canonical q hq) (hshort q hq)).2
  intro p hp
  by_contra hself
  have hfull : p.components.length = psirpMaxComponents :=
    le_antisymm p.count_le (Nat.not_lt.mp fun hlt => hself ((ps.canonical p hp).selfHashed hlt))
  obtain ⟨s, hs, hsp⟩ := h.complete p hp
  have hheard : (heardPrefix s).SelfHashed := by
    rw [hstrings] at hs
    rcases List.mem_cons.mp hs with rfl | hs
    · by_cases hbar : bar ∈ beaconName ps.all
      · obtain ⟨d, cs, hfirst, hcs, hd, hat, -⟩ := ps.firstRead_of_bar hbar
        have hle := ps.first.count_le
        rw [hcs] at hle
        rw [hfirst] at hsp ⊢
        refine selfHashed_heardPrefix hd hat (fun c hc => ?_) hle ?_
        · exact ps.pathComponent ps.first List.mem_cons_self c
            (hcs ▸ List.mem_cons_of_mem _ hc)
        · rw [(psirpNameEqual_iff.mp hsp).2, hfull]
      · rw [LocalPrefixes.firstRead, firstString_of_noBar hbar]
        exact hread _ List.mem_cons_self
    · obtain ⟨q, hq, rfl⟩ := List.mem_map.mp hs
      exact hread q (List.mem_cons_of_mem _ hq)
  exact hself ((psirpNameEqual_of_selfHashed hheard).mp hsp).1

/-- A spoilt first string does not name the first prefix. -/
theorem not_equal_firstRead (hbar : bar ∈ beaconName ps.all) :
    ¬ psirpNameEqual (heardPrefix ps.firstRead) ps.first = true := by
  obtain ⟨d, cs, hfirst, hcs, hd, hat, hlonger⟩ := ps.firstRead_of_bar hbar
  intro heq
  have hcomps := (psirpNameEqual_iff.mp heq).2
  rw [hcs, hfirst] at hcomps
  have hplain : ∀ c ∈ cs, PathComponent c := fun c hc =>
    ps.pathComponent ps.first List.mem_cons_self c (hcs ▸ List.mem_cons_of_mem _ hc)
  have hname := congrArg List.length (head_heardPrefix hd hat hplain hcomps)
  have hlt : (beaconName ps.all).length < psirpMaxComponent :=
    (ps.pathComponent _ List.mem_cons_self _ ps.name_mem).length_lt
  rw [List.length_take] at hname
  rw [peerNameBufSize] at hname
  rw [psirpMaxComponent] at hlt
  omega

/-- With a bar in the name, the others have to say everything. -/
theorem barFree_of_saysExactly {text : CString} (htext : beaconText ps.all = some text)
    (h : SaysExactly (beaconStrings text) ps.all) : bar ∉ beaconName ps.all ∨
      (∃ q ∈ ps.rest, q.components = ps.first.components) ∧
        ∃ q ∈ ps.rest, psirpNameEqual (heardPrefix ps.firstRead) q = true := by
  rw [or_iff_not_imp_left, not_not]
  intro hbar
  obtain ⟨text', htext', hstrings⟩ :=
    beaconStrings_of_fits (undelimited_of_saysExactly htext h) (fits_of_saysExactly htext h)
  obtain rfl := Option.some.inj (htext.symm.trans htext')
  rw [hstrings] at h
  constructor
  · obtain ⟨s, hs, hsp⟩ := h.complete ps.first List.mem_cons_self
    rcases List.mem_cons.mp hs with rfl | hs
    · exact absurd hsp (not_equal_firstRead hbar)
    · obtain ⟨q, hq, rfl⟩ := List.mem_map.mp hs
      have hq' : q ∈ ps.all := List.mem_cons_of_mem _ hq
      have hread := heardPrefix_writtenPrefix (ps.canonical q hq') (short_of_saysExactly htext
        (hstrings ▸ h) q hq')
      exact ⟨q, hq, hread.1.symm.trans (psirpNameEqual_iff.mp hsp).2⟩
  · obtain ⟨p, hp, hsp⟩ := h.sound _ List.mem_cons_self
    rcases List.mem_cons.mp hp with rfl | hp
    · exact absurd hsp (not_equal_firstRead hbar)
    · exact ⟨p, hp, hsp⟩

end Through

/-- **A beacon makes the round trip exactly when** its prefixes get through. -/
theorem beaconRoundTrip_iff (ps : LocalPrefixes) (node : Option PsirpNode) (cs : MeshStore)
    (src : PsirpPeer) (now : Nat → UInt64) :
    BeaconRoundTrip ps node cs src now ↔ GetsThrough ps := by
  rw [beaconRoundTrip_iff_saysExactly]
  constructor
  · rintro ⟨text, htext, h⟩
    exact ⟨undelimited_of_saysExactly htext h, short_of_saysExactly htext h,
      selfHashed_of_saysExactly htext h,
      fits_of_saysExactly htext h, barFree_of_saysExactly htext h⟩
  · exact GetsThrough.saysExactly

/-- The prefix `/a;b`. -/
def prefixSemicolon : PsirpName := (psirpNameInit (text ['/', 'a', ';', 'b'])).2

/-- A peer with that prefix. -/
def semicolonPeer : LocalPrefixes where
  first := prefixSemicolon
  rest := []
  count_le := by decide
  canonical := by
    intro p hp
    obtain rfl := List.mem_singleton.mp hp
    exact ⟨[text ['a', ';', 'b']], by decide, by decide +kernel, by decide +kernel, rfl⟩

/-- The receiver takes `a;b` for two prefixes. -/
theorem not_beaconRoundTrip_semicolon :
    ¬ BeaconRoundTrip semicolonPeer none .null ⟨1, 1⟩ fun _ => 0 := by
  rw [beaconRoundTrip_iff_saysExactly]
  rintro ⟨text, htext, h⟩
  exact undelimited_of_saysExactly htext h prefixSemicolon List.mem_cons_self _
    (List.mem_singleton_self _) (by decide)

end DsoBrowser

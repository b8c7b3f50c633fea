import DsoBrowser.AnnouncedNames
import DsoBrowser.MeshTables

/-!
# The routes a beacon installs

`mesh_process_beacon` makes a name of each prefix string and routes it to the sender. It ignores
the verdict of `psirp_name_init`, which leaves a shorter name behind when it rejects a string or
runs out of room, and it cuts strings to its buffer first. So a beacon installs only routes it
announces exactly when every string in it that is not routed already is representable and not
spoilt by the cut (`onlyAnnounced_iff`).

What the prefix loop does to the routes is `addRoutes`, a fold over the strings alone.
-/

namespace DsoBrowser

open Segments Table

/-! ## Hearing a beacon -/

/-- The name in a beacon, as it is read. -/
def beaconSender (data : CString) : CString :=
  ((data.drop beaconHeader.length).takeWhile (· ≠ bar)).take (peerNameBufSize - 1)

/-- The field after the name. -/
def beaconPrefixes (data : CString) : CString :=
  ((data.drop beaconHeader.length).dropWhile (· ≠ bar)).drop 1

/-- The prefix strings of a beacon that are read, uncut. -/
def beaconStrings (data : CString) : List CString :=
  (segments semicolon (beaconPrefixes data)).take meshMaxPrefixes

/-- The beacon is well formed and its sender is peer `i`. -/
structure HeardFrom (ctx : MeshCtx) (data : CString) (dataLen : Nat) (src : PsirpPeer)
    (now : Nat → UInt64) (i : Nat) : Prop where
  /-- it is long enough for a header -/
  length_le : beaconHeader.length ≤ dataLen
  /-- it has one -/
  header : data.take beaconHeader.length = beaconHeader
  /-- it has a name -/
  bar_mem : bar ∈ data.drop beaconHeader.length
  /-- the sender has a place in the peer table -/
  peer : (meshAddPeer ctx (beaconSender data) src (now 0)).1 = some i

/-- The context when the prefix loop starts. -/
def greeted (ctx : MeshCtx) (data : CString) (src : PsirpPeer) (now : Nat → UInt64) (i : Nat) :
    MeshCtx :=
  let ctx := meshPeerSeen (meshAddPeer ctx (beaconSender data) src (now 0)).2 i (now 1)
  { ctx with peers := ctx.peers.modify i fun p => { p with prefixes := [] } }

/-- The context when the loop has been through the strings `ss`. -/
def afterStrings (ctx : MeshCtx) (data : CString) (src : PsirpPeer) (now : Nat → UInt64) (i : Nat)
    (ss : List CString) : MeshCtx :=
  announceAll i (fun k => now (k + 2)) (ss.map (·.take (peerNameBufSize - 1))) 0
    (greeted ctx data src now i)

section Hearing

variable {ctx : MeshCtx} {data : CString} {dataLen : Nat} {src : PsirpPeer} {now : Nat → UInt64}
  {i : Nat}

/-- **A beacon that is heard** runs the loop over its strings. -/
theorem meshProcessBeacon_of_heard (h : HeardFrom ctx data dataLen src now i) :
    meshProcessBeacon ctx data dataLen src now =
      (true, { afterStrings ctx data src now i (beaconStrings data) with
        beaconsReceived :=
          (afterStrings ctx data src now i (beaconStrings data)).beaconsReceived + 1 }) := by
  obtain ⟨rest, hrest⟩ :
      ∃ rest, (data.drop beaconHeader.length).dropWhile (· ≠ bar) = bar :: rest := by
    rcases takeWhile_append_span bar (data.drop beaconHeader.length) with ⟨hs, -⟩ | ⟨r, hr, -⟩
    · have hbar := h.bar_mem
      rw [hs] at hbar
      exact absurd hbar (sep_notMem_takeWhile _)
    · exact ⟨r, hr⟩
  have hprefixes : beaconPrefixes data = rest := by
    rw [beaconPrefixes, hrest]
    rfl
  have hpeer := h.peer
  rw [meshProcessBeacon, if_neg (Nat.not_lt.mpr h.length_le), if_neg (not_not.mpr h.header)]
  simp only [hrest]
  rw [← beaconSender]
  rcases hadd : meshAddPeer ctx (beaconSender data) src (now 0) with ⟨_ | j, ctx'⟩
  · rw [hadd] at hpeer
    cases hpeer
  · rw [hadd] at hpeer
    obtain rfl := Option.some.inj hpeer
    simp only
    rw [announceLoop_eq _ _ _ _ _ _ le_rfl, announced, Nat.sub_zero, ← hprefixes]
    rw [afterStrings, greeted, hadd]
    rfl

/-- A beacon that is not heard changes nothing. -/
theorem meshProcessBeacon_of_not_heard (h : ∀ i, ¬ HeardFrom ctx data dataLen src now i) :
    meshProcessBeacon ctx data dataLen src now = (false, ctx) := by
  rw [meshProcessBeacon]
  split
  · rfl
  · rename_i hlen
    split
    · rfl
    · rename_i hheader
      simp only
      split
      · rfl
      · rename_i b prefixes hdrop
        have hbar : bar ∈ data.drop beaconHeader.length := by
          rcases takeWhile_append_span bar (data.drop beaconHeader.length) with
            ⟨-, hnil⟩ | ⟨r, -, hs⟩
          · rw [hnil] at hdrop
            cases hdrop
          · rw [hs]
            exact List.mem_append_right _ List.mem_cons_self
        split
        · rename_i ctx' hadd
          rw [meshAddPeer_eq_none hadd]
        · rename_i j ctx' hadd
          refine absurd ?_ (h j)
          exact ⟨Nat.not_lt.mp hlen, not_not.mp hheader, hbar, by rw [beaconSender, hadd]⟩

end Hearing

/-! ## Routes as a fold -/

/-- The table of routes has the route, or no room for it. -/
def RouteKnown (routes : List (PsirpName × Nat)) (i : Nat) (pfx : PsirpName) : Prop :=
  meshMaxFib ≤ routes.length ∨ ∃ r ∈ routes, psirpNameEqual r.1 pfx = true ∧ r.2 = i

instance (routes : List (PsirpName × Nat)) (i : Nat) (pfx : PsirpName) :
    Decidable (RouteKnown routes i pfx) := inferInstanceAs (Decidable (_ ∨ _))

/-- The name made of a prefix string. -/
def heardPrefix (s : CString) : PsirpName := (psirpNameInit (s.take (peerNameBufSize - 1))).2

/-- Route the name of a prefix string to peer `i`, unless the route is known. -/
def addRoute (i : Nat) (routes : List (PsirpName × Nat)) (s : CString) : List (PsirpName × Nat) :=
  if RouteKnown routes i (heardPrefix s) then routes else routes ++ [(heardPrefix s, i)]

/-- Route the names of several. -/
def addRoutes (i : Nat) (routes : List (PsirpName × Nat)) (ss : List CString) :
    List (PsirpName × Nat) := ss.foldl (addRoute i) routes

theorem routed_iff {ctx : MeshCtx} {i : Nat} {pfx : PsirpName} :
    Routed ctx i pfx ↔ RouteKnown ctx.routes i pfx := by
  have hlen : ctx.routes.length = ctx.fib.length := List.length_map _
  rw [Routed, RouteKnown, hlen]
  apply or_congr_right
  constructor
  · rintro ⟨e, he, hroute⟩
    rw [isRoute, Bool.and_eq_true, decide_eq_true_eq] at hroute
    exact ⟨(e.pfx, e.peerIndex), List.mem_map_of_mem he, hroute⟩
  · rintro ⟨r, hr, hroute⟩
    obtain ⟨e, he, rfl⟩ := List.mem_map.mp hr
    refine ⟨e, he, ?_⟩
    rw [isRoute, Bool.and_eq_true, decide_eq_true_eq]
    exact hroute

/-- Announcing a prefix string adds its route. -/
theorem routes_announcePrefix {ctx : MeshCtx} {i : Nat} (hi : i < ctx.peers.length) (s : CString)
    (now : UInt64) :
    (announcePrefix ctx i (s.take (peerNameBufSize - 1)) now).routes = addRoute i ctx.routes s := by
  rw [announcePrefix, addRoute]
  generalize hctx : ({ ctx with
    peers := ctx.peers.modify i fun p => { p with
      prefixes := p.prefixes ++ [parseName (s.take (peerNameBufSize - 1)) psirpMaxComponents] } } :
    MeshCtx) = ctx'
  have hroutes : ctx'.routes = ctx.routes := by
    rw [← hctx]
    rfl
  rw [← hroutes]
  split
  · rename_i hknown
    exact routes_meshAddFib (routed_iff.mpr hknown) _ _
  · rename_i hnew
    rw [← routed_iff, Routed, not_or, not_exists] at hnew
    obtain ⟨hno, -⟩ | ⟨j, hfound, -⟩ | ⟨-, -, h⟩ :=
      meshAddFib_cases ctx' (heardPrefix s) i (meshBeaconInterval * 3) now
    · have hlen : i < ctx'.peers.length := by
        rw [← hctx]
        simpa using hi
      exact absurd hno (not_or.mpr ⟨Nat.not_le.mpr hlen, hnew.1⟩)
    · obtain ⟨hlt, hroute, -⟩ := List.findIdx?_eq_some_iff_getElem.mp hfound
      exact absurd ⟨List.getElem_mem hlt, hroute⟩ (hnew.2 _)
    · rw [heardPrefix] at h
      rw [h, MeshCtx.routes, List.map_append]
      rfl

theorem routes_announceAll_eq {i : Nat} (now : Nat → UInt64) (ss : List CString) :
    ∀ (count : Nat) {ctx : MeshCtx}, i < ctx.peers.length →
      (announceAll i now (ss.map (·.take (peerNameBufSize - 1))) count ctx).routes =
        addRoutes i ctx.routes ss := by
  induction ss with
  | nil => exact fun count ctx _ => rfl
  | cons s ss ih =>
    intro count ctx hi
    have hlen : i <
        (announcePrefix ctx i (s.take (peerNameBufSize - 1)) (now count)).peers.length := by
      rw [announcePrefix, meshAddFib_peers, List.length_modify]
      exact hi
    rw [List.map_cons, announceAll, ih _ hlen, routes_announcePrefix hi]
    rfl

/-- **The prefix loop, seen through the routes,** adds the routes of the strings. -/
theorem routes_afterStrings {ctx : MeshCtx} {data : CString} {dataLen : Nat} {src : PsirpPeer}
    {now : Nat → UInt64} {i : Nat} (h : HeardFrom ctx data dataLen src now i) (ss : List CString) :
    (afterStrings ctx data src now i ss).routes = addRoutes i ctx.routes ss := by
  have hi : i < (greeted ctx data src now i).peers.length := by
    rw [greeted, meshPeerSeen]
    simp only [List.length_modify]
    exact meshAddPeer_lt h.peer
  have hroutes : (greeted ctx data src now i).routes = ctx.routes :=
    routes_congr (meshAddPeer_fib ctx (beaconSender data) src (now 0))
  rw [afterStrings, routes_announceAll_eq _ _ _ hi, hroutes]

theorem addRoutes_concat (i : Nat) (routes : List (PsirpName × Nat)) (ss : List CString)
    (s : CString) : addRoutes i routes (ss ++ [s]) = addRoute i (addRoutes i routes ss) s := by
  rw [addRoutes, List.foldl_append]
  rfl

theorem addRoutes_initial (i : Nat) (routes : List (PsirpName × Nat)) (ss ts : List CString) :
    addRoutes i routes ss <+: addRoutes i routes (ss ++ ts) := by
  induction ts using List.reverseRecOn with
  | nil => rw [List.append_nil]
  | append_singleton ts t ih =>
    rw [← List.append_assoc, addRoutes_concat, addRoute]
    split
    · exact ih
    · exact ih.trans (List.prefix_append _ _)

/-- A route that was added is that of a string whose route was not known in its turn. -/
theorem mem_addRoutes {i : Nat} {routes : List (PsirpName × Nat)} {r : PsirpName × Nat} :
    ∀ {ss : List CString}, r ∈ (addRoutes i routes ss).drop routes.length →
      ∃ before s after, ss = before ++ s :: after ∧ r = (heardPrefix s, i) ∧
        ¬ RouteKnown (addRoutes i routes before) i (heardPrefix s) := by
  intro ss
  induction ss using List.reverseRecOn with
  | nil =>
    intro h
    rw [addRoutes, List.foldl_nil, List.drop_length] at h
    cases h
  | append_singleton ss s ih =>
    intro h
    have hlen : routes.length ≤ (addRoutes i routes ss).length :=
      (addRoutes_initial i routes [] ss).length_le
    have hmore : ∀ {before t after}, ss = before ++ t :: after →
        ss ++ [s] = before ++ t :: (after ++ [s]) := by
      rintro before t after rfl
      rw [List.append_assoc, List.cons_append]
    rw [addRoutes_concat, addRoute] at h
    split at h
    · obtain ⟨before, t, after, hss, hrest⟩ := ih h
      exact ⟨before, t, after ++ [s], hmore hss, hrest⟩
    · rename_i hnew
      rw [List.drop_append_of_le_length hlen] at h
      rcases List.mem_append.mp h with h | h
      · obtain ⟨before, t, after, hss, hrest⟩ := ih h
        exact ⟨before, t, after ++ [s], hmore hss, hrest⟩
      · exact ⟨ss, s, [], rfl, List.mem_singleton.mp h, hnew⟩

/-- The route of a string that was not known in its turn is among those added. -/
theorem mem_drop_addRoutes {i : Nat} {routes : List (PsirpName × Nat)} {before : List CString}
    {s : CString} (after : List CString)
    (h : ¬ RouteKnown (addRoutes i routes before) i (heardPrefix s)) :
    (heardPrefix s, i) ∈ (addRoutes i routes (before ++ s :: after)).drop routes.length := by
  have hlen : routes.length ≤ (addRoutes i routes before).length :=
    (addRoutes_initial i routes [] before).length_le
  have hpre := addRoutes_initial i routes (before ++ [s]) after
  rw [List.append_assoc, List.singleton_append, addRoutes_concat, addRoute, if_neg h] at hpre
  obtain ⟨rest, hrest⟩ := hpre
  rw [← hrest, List.append_assoc, List.drop_append_of_le_length hlen]
  exact List.mem_append_right _ (List.mem_append_left _ (List.mem_singleton_self _))

/-! ## Only what is announced -/

/-- The routes the call adds. -/
def addedRoutes (ctx : MeshCtx) (data : CString) (dataLen : Nat) (src : PsirpPeer)
    (now : Nat → UInt64) : List (PsirpName × Nat) :=
  (meshProcessBeacon ctx data dataLen src now).2.routes.drop ctx.routes.length

/-- A beacon installs no route it did not announce. -/
structure OnlyAnnounced (ctx : MeshCtx) (data : CString) (dataLen : Nat) (src : PsirpPeer)
    (now : Nat → UInt64) : Prop where
  /-- every route added has the components one of the prefix strings announces -/
  announced : ∀ r ∈ addedRoutes ctx data dataLen src now,
    ∃ s ∈ segments semicolon (beaconPrefixes data), r.1.components = announcedComponents s
  /-- a string `psirp_name_init` rejects or has no room for adds none in its turn -/
  silent : ∀ i, HeardFrom ctx data dataLen src now i → ∀ before s after,
    beaconStrings data = before ++ s :: after → ¬ Representable s →
      (afterStrings ctx data src now i (before ++ [s])).routes =
        (afterStrings ctx data src now i before).routes

/-- The string is representable, and fits the buffer or is cut to what some prefix string
announces. -/
def Faithful (data s : CString) : Prop :=
  Representable s ∧ (s.length < peerNameBufSize ∨
    ∃ t ∈ segments semicolon (beaconPrefixes data),
      (heardPrefix s).components = announcedComponents t)

/-- What a faithful string is made of is announced. -/
theorem Faithful.announced {data s : CString} (h : Faithful data s)
    (hs : s ∈ segments semicolon (beaconPrefixes data)) :
    ∃ t ∈ segments semicolon (beaconPrefixes data),
      (heardPrefix s).components = announcedComponents t := by
  rcases h.2 with hlen | ht
  · refine ⟨s, hs, ?_⟩
    rw [heardPrefix, List.take_of_length_le (Nat.le_sub_one_of_lt hlen)]
    exact h.1.components_eq
  · exact ht

/-- **A beacon installs only routes it announces, exactly when** every string of it whose route is
not known in its turn is faithful. -/
theorem onlyAnnounced_iff (ctx : MeshCtx) (data : CString) (dataLen : Nat) (src : PsirpPeer)
    (now : Nat → UInt64) :
    OnlyAnnounced ctx data dataLen src now ↔
      ∀ i, HeardFrom ctx data dataLen src now i → ∀ before s after,
        beaconStrings data = before ++ s :: after →
          RouteKnown (addRoutes i ctx.routes before) i (heardPrefix s) ∨ Faithful data s := by
  constructor
  · intro h i hi before s after hss
    rw [or_iff_not_imp_left]
    intro hnew
    have hrep : Representable s := by
      by_contra hno
      have hsilent := h.silent i hi before s after hss hno
      rw [routes_afterStrings hi, routes_afterStrings hi, addRoutes_concat, addRoute,
        if_neg hnew] at hsilent
      exact absurd (congrArg List.length hsilent) (by simp)
    have hadded : (heardPrefix s, i) ∈ addedRoutes ctx data dataLen src now := by
      rw [addedRoutes, meshProcessBeacon_of_heard hi, hss]
      change _ ∈ (afterStrings ctx data src now i (before ++ s :: after)).routes.drop _
      rw [routes_afterStrings hi]
      exact mem_drop_addRoutes after hnew
    exact ⟨hrep, Or.inr (h.announced _ hadded)⟩
  · intro h
    refine ⟨?_, ?_⟩
    · intro r hr
      by_cases hheard : ∃ i, HeardFrom ctx data dataLen src now i
      · obtain ⟨i, hi⟩ := hheard
        rw [addedRoutes, meshProcessBeacon_of_heard hi] at hr
        change r ∈ (afterStrings ctx data src now i (beaconStrings data)).routes.drop _ at hr
        rw [routes_afterStrings hi] at hr
        obtain ⟨before, s, after, hss, rfl, hnew⟩ := mem_addRoutes hr
        have hs : s ∈ segments semicolon (beaconPrefixes data) := by
          apply List.mem_of_mem_take
          rw [← beaconStrings, hss]
          exact List.mem_append_right _ List.mem_cons_self
        exact ((h i hi before s after hss).resolve_left hnew).announced hs
      · rw [addedRoutes, meshProcessBeacon_of_not_heard (not_exists.mp hheard),
          List.drop_length] at hr
        cases hr
    · intro i hi before s after hss hno
      have hknown := (h i hi before s after hss).resolve_right fun hf => hno hf.1
      rw [routes_afterStrings hi, routes_afterStrings hi, addRoutes_concat, addRoute,
        if_pos hknown]

/-- The beacon of a peer `n` that announces `/a/b@x`. -/
def badBeacon : CString :=
  beaconHeader ++ text ['n', '|', '/', 'a', '/', 'b', '@', 'x']

/-- `psirp_name_init` rejects `/a/b@x`, and the beacon installs a route for `/a`. -/
theorem not_onlyAnnounced_bad :
    ¬ OnlyAnnounced (meshInit none .null) badBeacon badBeacon.length ⟨1, 1⟩ fun _ => 0 := by
  intro h
  have hadded : addedRoutes (meshInit none .null) badBeacon badBeacon.length ⟨1, 1⟩ (fun _ => 0) =
      [((psirpNameInit (text ['/', 'a', '/', 'b', '@', 'x'])).2, 0)] := by decide +kernel
  obtain ⟨s, hs, hcomps⟩ := h.announced _ (hadded ▸ List.mem_singleton_self _)
  have hstrings : segments semicolon (beaconPrefixes badBeacon) =
      [text ['/', 'a', '/', 'b', '@', 'x']] := by decide +kernel
  rw [hstrings, List.mem_singleton] at hs
  rw [hs] at hcomps
  exact absurd hcomps (by decide +kernel)

end DsoBrowser

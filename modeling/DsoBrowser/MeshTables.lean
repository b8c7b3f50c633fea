import DsoBrowser.Mesh
import DsoBrowser.NameParse

/-!
# The tables of the mesh

What the operations of `mesh.c` do to the peer table and to the forwarding table, one
**specification lemma** for each:

* a peer is known by the text its stored name is written as, which is the path of its components
  (`meshPeerNameToString_eq`);
* a route a peer is given stays (`Routed`), and giving it again changes no route;
* a beacon's prefixes are its segments between semicolons, the first `MESH_MAX_PREFIXES` of them
  (`announceLoop_eq`).
-/

namespace DsoBrowser

open Segments Table

/-! ## Peer names -/

/-- What is cut twice at the same length is cut once. -/
theorem take_take_append {α : Type*} (n : Nat) (l m : List α) :
    (l.take n ++ m).take n = (l ++ m).take n := by
  rcases Nat.le_total l.length n with h | h
  · rw [List.take_of_length_le h]
  · rw [List.take_append_of_le_length (by rw [List.length_take]; omega), List.take_take,
      Nat.min_self, List.take_append_of_le_length h]

/-- The loop writes the path of the components as far as the buffer goes. -/
theorem peerNameLoop_eq {bufLen i : Nat} (cs : List CString) {out : CString} (hi : 0 < i)
    (hout : out.length ≤ bufLen - 1) :
    peerNameLoop bufLen cs i out = (out ++ pathOf cs).take (bufLen - 1) := by
  induction cs generalizing i out with
  | nil =>
    rw [pathOf_nil, List.append_nil, List.take_of_length_le hout]
    rfl
  | cons c cs ih =>
    rw [peerNameLoop]
    split
    · rename_i hroom
      have hcut : out ++ [slash] ++ c.take (bufLen - (out ++ [slash]).length - 1) =
          (out ++ slash :: c).take (bufLen - 1) := by
        have hlen : (out ++ [slash]).length ≤ bufLen - 1 := by
          rw [List.length_append]
          exact hroom
        rw [List.append_cons out slash c, List.take_append, List.take_of_length_le hlen,
          Nat.sub_right_comm]
      dsimp only
      rw [hcut, ih (Nat.succ_pos i) (by rw [List.length_take]; exact Nat.min_le_left _ _),
        take_take_append, pathOf_cons, List.append_assoc]
    · -- the buffer is full
      rename_i hfull
      have hlen : bufLen - 1 = out.length := Nat.le_antisymm (Nat.not_lt.mp hfull) hout
      rw [hlen, List.take_left']
      rfl

/-- **Rendering.** A peer's name is written as the path of its components, cut to the buffer. -/
theorem meshPeerNameToString_eq (peer : MeshPeer) {bufLen : Nat} (hbuf : 2 < bufLen) :
    meshPeerNameToString peer bufLen = (pathOf peer.name).take (bufLen - 1) := by
  rw [meshPeerNameToString]
  cases peer.name with
  | nil =>
    rw [if_pos rfl, pathOf_nil, List.take_nil]
  | cons c cs =>
    -- the slash of the first component is written before the loop
    have hroom : [slash].length < bufLen - 1 := Nat.lt_sub_of_add_lt hbuf
    rw [if_neg (List.cons_ne_nil _ _), if_pos (Nat.zero_lt_of_lt hroom), peerNameLoop,
      if_pos hroom]
    dsimp only
    rw [if_neg (Nat.lt_irrefl 0)]
    have hcut : [slash] ++ c.take (bufLen - [slash].length - 1) =
        (slash :: c).take (bufLen - 1) := by
      obtain ⟨k, rfl⟩ : ∃ k, bufLen = k + 2 := ⟨bufLen - 2, by omega⟩
      rfl
    rw [hcut, peerNameLoop_eq cs Nat.one_pos (by rw [List.length_take]; exact Nat.min_le_left _ _),
      take_take_append, pathOf_cons]

/-- The text a peer is known by once it was added under `name`. -/
def shownName (name : CString) : CString :=
  meshPeerNameToString (newPeer name ⟨0, 0⟩ 0) peerNameBufSize

theorem shownName_eq (name : CString) :
    shownName name =
      (pathOf (parseName name psirpMaxComponents)).take (peerNameBufSize - 1) :=
  meshPeerNameToString_eq _ (by decide)

/-- A component a peer name can hold. -/
def PeerComponent (c : CString) : Prop := slash ∉ c ∧ c.length < psirpMaxComponent

/-- One round of `parse_name`. -/
theorem parseNameLoop_succ {room : Nat} {str : CString} (hne : str ≠ []) :
    parseNameLoop (room + 1) str =
      (str.takeWhile (· ≠ slash)).take (psirpMaxComponent - 1) ::
        parseNameLoop room ((str.dropWhile (· ≠ slash)).drop 1) := by
  obtain ⟨c, cs, rfl⟩ := List.exists_cons_of_ne_nil hne
  rfl

/-- A path that does not end in a slash is parsed into its components. -/
theorem parseNameLoop_path (cs : List CString) :
    ∀ {room : Nat} {c : CString}, cs.length < room → (∀ d ∈ c :: cs, PeerComponent d) →
      (c :: cs).getLast? ≠ some [] → parseNameLoop room (c ++ pathOf cs) = c :: cs := by
  induction cs with
  | nil =>
    intro room c hroom h hlast
    obtain ⟨room, rfl⟩ := Nat.exists_eq_succ_of_ne_zero (Nat.ne_of_gt hroom)
    obtain ⟨hslash, hlen⟩ := h c List.mem_cons_self
    have hne : c ≠ [] := fun he => hlast (by rw [he]; rfl)
    rw [pathOf_nil, List.append_nil, parseNameLoop_succ hne, takeWhile_of_notMem hslash,
      dropWhile_of_notMem hslash, List.take_of_length_le (Nat.le_sub_one_of_lt hlen)]
    cases room <;> rfl
  | cons d ds ih =>
    intro room c hroom h hlast
    obtain ⟨room, rfl⟩ := Nat.exists_eq_succ_of_ne_zero (Nat.ne_of_gt (Nat.zero_lt_of_lt hroom))
    obtain ⟨hslash, hlen⟩ := h c List.mem_cons_self
    have hrest := ih (Nat.lt_of_succ_lt_succ hroom) (fun x hx => h x (List.mem_cons_of_mem _ hx))
      (by rwa [List.getLast?_cons_cons] at hlast)
    rw [pathOf_cons, List.cons_append, parseNameLoop_succ (by simp),
      takeWhile_append_cons hslash, dropWhile_append_cons hslash, List.drop_succ_cons,
      List.drop_zero, hrest, List.take_of_length_le (Nat.le_sub_one_of_lt hlen)]

/-- **Paths are shown as themselves**, if they fit and do not end in a slash. -/
theorem shownName_pathOf {cs : List CString} (h : ∀ c ∈ cs, PeerComponent c)
    (hcount : cs.length ≤ psirpMaxComponents) (hlast : cs.getLast? ≠ some [])
    (hlen : (pathOf cs).length < peerNameBufSize) : shownName (pathOf cs) = pathOf cs := by
  rw [shownName_eq]
  cases cs with
  | nil => rfl
  | cons c cs =>
    have hskip : skipSlash (pathOf (c :: cs)) = c ++ pathOf cs := by
      rw [pathOf_cons, List.cons_append]
      exact if_pos rfl
    rw [parseName, hskip, parseNameLoop_path cs hcount h hlast,
      List.take_of_length_le (Nat.le_sub_one_of_lt hlen)]

/-- No peer is known by a text that starts with another character than a slash. -/
theorem hasName_of_noSlash {peer : MeshPeer} {c : CChar} {cs : CString} (hc : c ≠ slash) :
    hasName (c :: cs) peer = false := by
  rw [hasName, meshPeerNameToString_eq peer (by decide)]
  cases peer.name with
  | nil => rfl
  | cons d ds =>
    simp [peerNameBufSize, Ne.symm hc]

/-- Adding a peer touches the peer table only. -/
theorem meshAddPeer_fib (ctx : MeshCtx) (name : CString) (addr : PsirpPeer) (now : UInt64) :
    (meshAddPeer ctx name addr now).2.fib = ctx.fib := by
  rw [meshAddPeer]
  split
  · rfl
  · split <;> rfl

/-- Adding a peer changes nothing when there is no place for it. -/
theorem meshAddPeer_eq_none {ctx ctx' : MeshCtx} {name : CString} {addr : PsirpPeer}
    {now : UInt64} (h : meshAddPeer ctx name addr now = (none, ctx')) : ctx' = ctx := by
  rw [meshAddPeer] at h
  split at h
  · exact (Prod.mk.inj h).2.symm
  · split at h
    · cases h
    · cases h

/-- The place a peer is given is in the table. -/
theorem meshAddPeer_lt {ctx : MeshCtx} {name : CString} {addr : PsirpPeer} {now : UInt64} {i : Nat}
    (h : (meshAddPeer ctx name addr now).1 = some i) :
    i < (meshAddPeer ctx name addr now).2.peers.length := by
  rw [meshAddPeer] at h ⊢
  split at h
  · cases h
  · rename_i hroom
    rw [if_neg hroom]
    split at h
    · rename_i j hj
      obtain rfl := Option.some.inj h
      obtain ⟨hlt, -⟩ := List.findIdx?_eq_some_iff_getElem.mp hj
      simp only [List.length_modify]
      exact hlt
    · rename_i hnone
      obtain rfl := Option.some.inj h
      simp only [List.length_append, List.length_singleton]
      exact Nat.lt_succ_self _

/-! ## Routes -/

/-- The routes of a context, without their times. -/
def MeshCtx.routes (ctx : MeshCtx) : List (PsirpName × Nat) :=
  ctx.fib.map fun e => (e.pfx, e.peerIndex)

theorem routes_congr {ctx ctx' : MeshCtx} (h : ctx.fib = ctx'.fib) : ctx.routes = ctx'.routes := by
  rw [MeshCtx.routes, h]
  rfl

/-- The route is there, or there is no room for it. -/
def Routed (ctx : MeshCtx) (peerIndex : Nat) (pfx : PsirpName) : Prop :=
  meshMaxFib ≤ ctx.fib.length ∨ ∃ e ∈ ctx.fib, isRoute pfx peerIndex e = true

theorem routed_congr {ctx ctx' : MeshCtx} (h : ctx.fib = ctx'.fib) {k : Nat} {q : PsirpName} :
    Routed ctx k q ↔ Routed ctx' k q := by
  rw [Routed, Routed, h]

theorem isRoute_self (pfx : PsirpName) (peerIndex : Nat) (lifetimeMs : UInt32) (now : UInt64) :
    isRoute pfx peerIndex ⟨pfx, peerIndex, lifetimeMs, now⟩ = true := by
  simp [isRoute, psirpNameEqual]

/-- Everything `mesh_add_fib` can do: refuse, refresh the first such route, or append. -/
theorem meshAddFib_cases (ctx : MeshCtx) (pfx : PsirpName) (peerIndex : Nat) (lifetimeMs : UInt32)
    (now : UInt64) :
    ((ctx.peers.length ≤ peerIndex ∨ meshMaxFib ≤ ctx.fib.length) ∧
      meshAddFib ctx pfx peerIndex lifetimeMs now = (false, ctx)) ∨
    (∃ i, ctx.fib.findIdx? (isRoute pfx peerIndex) = some i ∧
      meshAddFib ctx pfx peerIndex lifetimeMs now = (true, { ctx with
        fib := ctx.fib.modify i fun e => { e with lifetimeMs := lifetimeMs, createdAt := now } })) ∨
    (ctx.fib.length < meshMaxFib ∧ ctx.fib.findIdx? (isRoute pfx peerIndex) = none ∧
      meshAddFib ctx pfx peerIndex lifetimeMs now =
        (true, { ctx with fib := ctx.fib ++ [⟨pfx, peerIndex, lifetimeMs, now⟩] })) := by
  rw [meshAddFib]
  split
  · rename_i hno
    exact Or.inl ⟨hno, rfl⟩
  · rename_i hok
    cases hi : ctx.fib.findIdx? (isRoute pfx peerIndex) with
    | none => exact Or.inr (Or.inr ⟨Nat.not_le.mp fun h => hok (Or.inr h), rfl, rfl⟩)
    | some i => exact Or.inr (Or.inl ⟨i, rfl, rfl⟩)

/-- Adding a route touches the forwarding table only. -/
theorem meshAddFib_peers (ctx : MeshCtx) (pfx : PsirpName) (peerIndex : Nat) (lifetimeMs : UInt32)
    (now : UInt64) : (meshAddFib ctx pfx peerIndex lifetimeMs now).2.peers = ctx.peers := by
  obtain ⟨-, h⟩ | ⟨i, -, h⟩ | ⟨-, -, h⟩ := meshAddFib_cases ctx pfx peerIndex lifetimeMs now
  all_goals rw [h]

/-- A route that is there stays when another is added. -/
theorem Routed.meshAddFib {ctx : MeshCtx} {k : Nat} {q : PsirpName} (h : Routed ctx k q)
    (pfx : PsirpName) (peerIndex : Nat) (lifetimeMs : UInt32) (now : UInt64) :
    Routed (meshAddFib ctx pfx peerIndex lifetimeMs now).2 k q := by
  obtain ⟨-, h'⟩ | ⟨i, -, h'⟩ | ⟨-, -, h'⟩ := meshAddFib_cases ctx pfx peerIndex lifetimeMs now
  · rw [h']
    exact h
  · -- refreshing changes times only
    rw [h']
    refine h.imp (fun hfull => by simpa using hfull) fun ⟨e, he, hroute⟩ => ?_
    obtain ⟨j, hj⟩ := List.mem_iff_getElem?.mp he
    refine ⟨if i = j then { e with lifetimeMs := lifetimeMs, createdAt := now } else e,
      List.mem_iff_getElem?.mpr ⟨j, ?_⟩, ?_⟩
    · rw [List.getElem?_modify, hj]
      split <;> rfl
    · split <;> exact hroute
  · rw [h']
    refine h.imp (fun hfull => by simpa using Nat.le_succ_of_le hfull) fun ⟨e, he, hroute⟩ => ?_
    exact ⟨e, List.mem_append_left _ he, hroute⟩

/-- A route that was added is there. -/
theorem routed_meshAddFib {ctx : MeshCtx} {peerIndex : Nat} (hi : peerIndex < ctx.peers.length)
    (pfx : PsirpName) (lifetimeMs : UInt32) (now : UInt64) :
    Routed (meshAddFib ctx pfx peerIndex lifetimeMs now).2 peerIndex pfx := by
  obtain ⟨hno, h⟩ | ⟨i, hfound, h⟩ | ⟨-, -, h⟩ :=
    meshAddFib_cases ctx pfx peerIndex lifetimeMs now
  · rw [h]
    exact Or.inl (hno.resolve_left (Nat.not_le.mpr hi))
  · obtain ⟨hlt, hroute, -⟩ := List.findIdx?_eq_some_iff_getElem.mp hfound
    exact Routed.meshAddFib (Or.inr ⟨_, List.getElem_mem hlt, hroute⟩) _ _ _ _
  · rw [h]
    exact Or.inr ⟨_, List.mem_append_right _ (List.mem_singleton_self _), isRoute_self _ _ _ _⟩

/-- **Refresh.** Adding a route that is there, or that there is no room for, changes no route. -/
theorem routes_meshAddFib {ctx : MeshCtx} {peerIndex : Nat} {pfx : PsirpName}
    (h : Routed ctx peerIndex pfx) (lifetimeMs : UInt32) (now : UInt64) :
    (meshAddFib ctx pfx peerIndex lifetimeMs now).2.routes = ctx.routes := by
  obtain ⟨-, h'⟩ | ⟨i, -, h'⟩ | ⟨hroom, hnone, -⟩ :=
    meshAddFib_cases ctx pfx peerIndex lifetimeMs now
  · rw [h']
  · rw [h']
    exact map_modify_of_comp fun _ => rfl
  · -- the scan would have found the route
    obtain ⟨e, he, hroute⟩ := h.resolve_left (Nat.not_le.mpr hroom)
    rw [List.findIdx?_eq_none_iff.mp hnone e he] at hroute
    cases hroute

/-! ## The prefixes of a beacon -/

/-- The prefix strings of a beacon that are announced. -/
def announced (prefixes : CString) (count : Nat) : List CString :=
  ((segments semicolon prefixes).take (meshMaxPrefixes - count)).map
    (·.take (peerNameBufSize - 1))

/-- Announce prefix strings one after the other, of which `count` were announced before. -/
def announceAll (peerIndex : Nat) (now : Nat → UInt64) : List CString → Nat → MeshCtx → MeshCtx
  | [], _, ctx => ctx
  | s :: ss, count, ctx =>
    announceAll peerIndex now ss (count + 1) (announcePrefix ctx peerIndex s (now count))

/-- **The prefix loop** announces the non-empty segments between semicolons. -/
theorem announceLoop_eq (peerIndex : Nat) (now : Nat → UInt64) (fuel : Nat) :
    ∀ (prefixes : CString) (count : Nat) (ctx : MeshCtx), prefixes.length ≤ fuel →
      announceLoop peerIndex now fuel prefixes count ctx =
        announceAll peerIndex now (announced prefixes count) count ctx := by
  induction fuel with
  | zero =>
    intro prefixes count ctx hlen
    rw [List.eq_nil_of_length_eq_zero (Nat.le_zero.mp hlen)]
    simp [announced, announceLoop, announceAll]
  | succ fuel ih =>
    intro prefixes count ctx hlen
    cases prefixes with
    | nil =>
      simp [announced, announceLoop, announceAll]
    | cons c cs =>
      have hrest : (((c :: cs).dropWhile (· ≠ semicolon)).drop 1).length ≤ fuel :=
        (length_rest_le c cs).trans (Nat.le_of_succ_le_succ hlen)
      rw [announceLoop]
      split
      · rename_i hcount
        simp only
        split
        · -- an empty segment is skipped
          rename_i hnil
          rw [ih _ _ _ hrest]
          have hempty := List.eq_nil_of_length_eq_zero hnil
          rw [announced, announced, segments_eq_span (c :: cs), hempty, segments_nil,
            List.nil_append]
        · rename_i hne
          rw [ih _ _ _ hrest]
          obtain ⟨k, hk⟩ : ∃ k, meshMaxPrefixes - count = k + 1 :=
            ⟨meshMaxPrefixes - count - 1, by omega⟩
          have hk' : meshMaxPrefixes - (count + 1) = k := by omega
          rw [announced, announced, segments_eq_cons hne, hk, hk', List.take_succ_cons,
            List.map_cons, announceAll]
      · rename_i hcount
        rw [announced, Nat.sub_eq_zero_of_le (Nat.not_lt.mp hcount)]
        rfl

/-- Announcing changes nothing of a peer but its prefixes. -/
theorem map_peers_announceAll {α : Type*} {f : MeshPeer → α}
    (hf : ∀ p prefixes, f { p with prefixes := prefixes } = f p) (peerIndex : Nat)
    (now : Nat → UInt64) (ss : List CString) :
    ∀ (count : Nat) (ctx : MeshCtx),
      (announceAll peerIndex now ss count ctx).peers.map f = ctx.peers.map f := by
  induction ss with
  | nil =>
    intro count ctx
    rfl
  | cons s ss ih =>
    intro count ctx
    rw [announceAll, ih, announcePrefix, meshAddFib_peers]
    exact map_modify_of_comp fun p => hf p _

/-- A route that is there stays when prefixes are announced. -/
theorem Routed.announceAll {k : Nat} {q : PsirpName} (peerIndex : Nat) (now : Nat → UInt64)
    (ss : List CString) :
    ∀ (count : Nat) {ctx : MeshCtx}, Routed ctx k q →
      Routed (announceAll peerIndex now ss count ctx) k q := by
  induction ss with
  | nil =>
    intro count ctx h
    exact h
  | cons s ss ih =>
    intro count ctx h
    refine ih _ (Routed.meshAddFib ?_ _ _ _ _)
    exact h

/-- Every prefix announced is routed to the peer. -/
theorem routed_announceAll {peerIndex : Nat} (now : Nat → UInt64) (ss : List CString) :
    ∀ (count : Nat) {ctx : MeshCtx}, peerIndex < ctx.peers.length → ∀ s ∈ ss,
      Routed (announceAll peerIndex now ss count ctx) peerIndex (psirpNameInit s).2 := by
  induction ss with
  | nil =>
    intro count ctx _ s hs
    cases hs
  | cons t ss ih =>
    intro count ctx hi s hs
    have hlen : ∀ f, peerIndex < (ctx.peers.modify peerIndex f).length := fun f => by
      rwa [List.length_modify]
    rw [announceAll, announcePrefix]
    rcases List.mem_cons.mp hs with rfl | hs
    · exact Routed.announceAll _ _ _ _ (routed_meshAddFib (hlen _) _ _ _)
    · refine ih _ ?_ s hs
      rw [meshAddFib_peers]
      exact hlen _

/-- **Refresh.** Announcing prefixes that are all routed already changes no route. -/
theorem routes_announceAll {peerIndex : Nat} (now : Nat → UInt64) (ss : List CString) :
    ∀ (count : Nat) {ctx : MeshCtx}, (∀ s ∈ ss, Routed ctx peerIndex (psirpNameInit s).2) →
      (announceAll peerIndex now ss count ctx).routes = ctx.routes := by
  induction ss with
  | nil =>
    intro count ctx _
    rfl
  | cons t ss ih =>
    intro count ctx h
    have ht : Routed ctx peerIndex (psirpNameInit t).2 := h t List.mem_cons_self
    rw [announceAll, ih, announcePrefix, routes_meshAddFib]
    · rfl
    · exact ht
    · intro s hs
      refine Routed.meshAddFib ?_ _ _ _ _
      exact h s (List.mem_cons_of_mem _ hs)

end DsoBrowser

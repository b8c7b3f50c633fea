import DsoBrowser.RoutingTable
import DsoBrowser.Lib.SelectionSort

/-!
# The closest peers

`dht_closest_peers` lists the live peers with their distances to a target, sorts the list and gives
the peers at its front. So it gives live peers at distinct positions of the table, in the order of
their distances, as many as asked for if there are so many, and none that it leaves out is closer
(`dhtClosestPeers_nearest`).
-/

namespace DsoBrowser

open SelectionSort

/-- `dht_distance` -/
def dhtDistance (a b : UInt64) : UInt64 := a ^^^ b

/-- The loop over the peers from the position `i` on: the live ones' distances and positions. -/
def distancesLoop (target : UInt64) : Nat → List DhtPeer → List (UInt64 × Nat)
  | _, [] => []
  | i, p :: ps =>
    if !p.alive then distancesLoop target (i + 1) ps
    else (dhtDistance target p.id, i) :: distancesLoop target (i + 1) ps

/-- The sorted array `order`. -/
def closestOrder (dht : DhtTable) (target : UInt64) : List (UInt64 × Nat) :=
  let order := distancesLoop target 0 dht.peers
  selectionSort (fun o => o.1.toNat) order.length order

/-- `dht_closest_peers`: the peers it writes to `out`. -/
def dhtClosestPeers (dht : DhtTable) (target : UInt64) (outMax : Nat) : List DhtPeer :=
  if outMax = 0 then []
  else
    let order := closestOrder dht target
    (order.take (min order.length outMax)).filterMap fun o => dht.peers[o.2]?

/-- The peers at these positions are the live ones closest to the target. -/
structure Nearest (dht : DhtTable) (target : UInt64) (outMax : Nat) (out : List DhtPeer)
    (positions : List Nat) : Prop where
  /-- the peers are those of the table -/
  read : out.map some = positions.map fun i => dht.peers[i]?
  /-- at distinct positions -/
  nodup : positions.Nodup
  /-- alive -/
  alive : ∀ p ∈ out, p.alive = true
  /-- as many as asked for, or all there are -/
  count : out.length = min outMax (dht.peers.countP (·.alive))
  /-- the closest first -/
  sorted : out.Pairwise fun p q => dhtDistance target p.id ≤ dhtDistance target q.id
  /-- and no live peer left out is closer -/
  rest : ∀ i q, dht.peers[i]? = some q → q.alive = true → i ∉ positions →
    ∀ p ∈ out, dhtDistance target p.id ≤ dhtDistance target q.id

theorem distancesLoop_eq (target : UInt64) (ps : List DhtPeer) : ∀ i, distancesLoop target i ps =
    ((ps.zipIdx i).filter fun o => o.1.alive).map fun o => (dhtDistance target o.1.id, o.2) := by
  induction ps with
  | nil => exact fun _ => rfl
  | cons p ps ih =>
    intro i
    rw [distancesLoop, List.zipIdx_cons, ih]
    cases hp : p.alive with
    | true => simp [hp]
    | false => simp [hp]

section Order

variable (dht : DhtTable) (target : UInt64)

theorem closestOrder_perm : (closestOrder dht target).Perm (distancesLoop target 0 dht.peers) :=
  selectionSort_perm _ _

/-- The list has an entry for each live peer. -/
theorem mem_closestOrder {o : UInt64 × Nat} : o ∈ closestOrder dht target ↔
    ∃ p, dht.peers[o.2]? = some p ∧ p.alive = true ∧ o.1 = dhtDistance target p.id := by
  obtain ⟨d, i⟩ := o
  rw [(closestOrder_perm dht target).mem_iff, distancesLoop_eq, List.mem_map]
  refine ⟨?_, ?_⟩
  · rintro ⟨⟨p, j⟩, hp, he⟩
    obtain ⟨rfl, rfl⟩ := Prod.mk.inj he
    obtain ⟨hp, halive⟩ := List.mem_filter.mp hp
    exact ⟨p, List.mem_zipIdx_iff_getElem?.mp hp, halive, rfl⟩
  · rintro ⟨p, hp, halive, rfl⟩
    exact ⟨(p, i), List.mem_filter.mpr ⟨List.mem_zipIdx_iff_getElem?.mpr hp, halive⟩, rfl⟩

theorem length_closestOrder :
    (closestOrder dht target).length = dht.peers.countP (·.alive) := by
  rw [(closestOrder_perm dht target).length_eq, distancesLoop_eq, List.length_map,
    ← List.countP_eq_length_filter]
  conv_rhs => rw [← List.zipIdx_map_fst 0 dht.peers, List.countP_map]
  rfl

/-- No peer has two. -/
theorem nodup_closestOrder : ((closestOrder dht target).map Prod.snd).Nodup := by
  refine ((closestOrder_perm dht target).map Prod.snd).nodup_iff.mpr ?_
  rw [distancesLoop_eq, List.map_map]
  refine List.Nodup.sublist (List.filter_sublist.map _) ?_
  change ((dht.peers.zipIdx 0).map Prod.snd).Nodup
  rw [List.zipIdx_map_snd]
  exact List.nodup_range'

theorem pairwise_closestOrder :
    (closestOrder dht target).Pairwise fun a b => a.1.toNat ≤ b.1.toNat :=
  pairwise_selectionSort le_rfl

end Order

/-- Where every entry reads a peer, the peers are read one for each entry. -/
theorem map_some_filterMap {α β : Type*} {f : α → Option β} {l : List α}
    (h : ∀ a ∈ l, (f a).isSome) : (l.filterMap f).map some = l.map f := by
  induction l with
  | nil => rfl
  | cons a l ih =>
    obtain ⟨b, hb⟩ := Option.isSome_iff_exists.mp (h a List.mem_cons_self)
    rw [List.filterMap_cons_some hb, List.map_cons, List.map_cons, hb,
      ih fun c hc => h c (List.mem_cons_of_mem _ hc)]

/-- What an entry of the list says about the peer at its position. -/
theorem dist_of_mem_closestOrder {dht : DhtTable} {target : UInt64} {o : UInt64 × Nat}
    {p : DhtPeer} (ho : o ∈ closestOrder dht target) (hp : dht.peers[o.2]? = some p) :
    p.alive = true ∧ o.1 = dhtDistance target p.id := by
  obtain ⟨q, hq, halive, hdist⟩ := (mem_closestOrder dht target).mp ho
  rw [hp] at hq
  obtain rfl := Option.some.inj hq
  exact ⟨halive, hdist⟩

/-- The entries at the front of the list give the closest peers. -/
theorem nearest_take (dht : DhtTable) (target : UInt64) (m : Nat) :
    Nearest dht target m
      (((closestOrder dht target).take m).filterMap fun o => dht.peers[o.2]?)
      (((closestOrder dht target).take m).map Prod.snd) := by
  have hmem : ∀ {o : UInt64 × Nat}, o ∈ (closestOrder dht target).take m →
      o ∈ closestOrder dht target := fun ho => List.mem_of_mem_take ho
  have hread : (((closestOrder dht target).take m).filterMap fun o => dht.peers[o.2]?).map some =
      ((closestOrder dht target).take m).map fun o => dht.peers[o.2]? := by
    refine map_some_filterMap fun o ho => ?_
    obtain ⟨p, hp, -⟩ := (mem_closestOrder dht target).mp (hmem ho)
    rw [hp, Option.isSome_some]
  refine ⟨?_, ?_, ?_, ?_, ?_, ?_⟩
  · rw [hread, List.map_map]
    rfl
  · exact (nodup_closestOrder dht target).sublist ((List.take_sublist _ _).map _)
  · intro p hp
    obtain ⟨o, ho, hp⟩ := List.mem_filterMap.mp hp
    exact (dist_of_mem_closestOrder (hmem ho) hp).1
  · have hlen := congrArg List.length hread
    rw [List.length_map, List.length_map, List.length_take, length_closestOrder] at hlen
    exact hlen
  · rw [List.pairwise_filterMap]
    refine ((pairwise_closestOrder dht target).sublist (List.take_sublist m _)).imp_of_mem ?_
    intro a b ha hb hle p hp q hq
    rw [← (dist_of_mem_closestOrder (hmem ha) hp).2, ← (dist_of_mem_closestOrder (hmem hb) hq).2]
    exact UInt64.le_iff_toNat_le.mpr hle
  · intro i q hq halive hout p hp
    obtain ⟨o, ho, hp⟩ := List.mem_filterMap.mp hp
    -- the peer left out has an entry, behind those that are given
    have hentry : (dhtDistance target q.id, i) ∈ closestOrder dht target :=
      (mem_closestOrder dht target).mpr ⟨q, hq, halive, rfl⟩
    have hdrop : (dhtDistance target q.id, i) ∈ (closestOrder dht target).drop m := by
      rw [← List.take_append_drop m (closestOrder dht target)] at hentry
      refine (List.mem_append.mp hentry).resolve_left fun htake => hout ?_
      exact List.mem_map.mpr ⟨_, htake, rfl⟩
    rw [← (dist_of_mem_closestOrder (hmem ho) hp).2]
    exact UInt64.le_iff_toNat_le.mpr (le_of_cut (pairwise_closestOrder dht target) ho hdrop)

/-- **The closest peers.** -/
theorem dhtClosestPeers_nearest (dht : DhtTable) (target : UInt64) (outMax : Nat) :
    ∃ positions, Nearest dht target outMax (dhtClosestPeers dht target outMax) positions := by
  have hnearest := nearest_take dht target outMax
  rw [dhtClosestPeers]
  split
  · rename_i hzero
    rw [hzero, List.take_zero] at hnearest
    rw [hzero]
    exact ⟨_, hnearest⟩
  · simp only
    rw [Nat.min_comm, ← List.take_eq_take_min]
    exact ⟨_, hnearest⟩

end DsoBrowser

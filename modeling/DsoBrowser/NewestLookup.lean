import DsoBrowser.VersionFidelity
import DsoBrowser.LruEviction

/-!
# The newest version

`psirp_cs_lookup` on a name without version goes over the whole table and returns the entry of the
greatest version among those that have the components of the name and have not expired
(`psirpCsLookup_newest`). It touches the bookkeeping of that entry and nothing else.
-/

namespace DsoBrowser

/-- An entry with these components that may be returned at `now`. -/
def FreshUnder (comps : List CString) (now : UInt64) (e : PsirpCsEntry) : Prop :=
  FreshAt now e ∧ e.components = comps

/-- With a clock that has not gone back, these are the entries the scan considers. -/
theorem liveUnder_iff_freshUnder {comps : List CString} {now : UInt64} {e : PsirpCsEntry}
    (h : e.timestamp ≤ now) : LiveUnder comps now e ↔ FreshUnder comps now e := by
  have hlive : entryExpired e now = false ↔ FreshAt now e := by
    rw [← Bool.not_eq_true, entryExpired_iff h, not_not]
  rw [LiveUnder, FreshUnder, hlive]

/-- What a lookup of the newest version returns, and the store it leaves. -/
structure ReturnsNewest (cs : PsirpCs) (comps : List CString) (now : UInt64)
    (r : Option Nat × PsirpCs) : Prop where
  /-- `NULL` exactly if there is nothing to return -/
  null_iff : r.1 = none ↔ ∀ e ∈ cs.entries, ¬ FreshUnder comps now e
  /-- an entry of the greatest version -/
  newest : ∀ i, r.1 = some i → ∃ e, cs.entries[i]? = some e ∧ FreshUnder comps now e ∧
    ∀ e' ∈ cs.entries, FreshUnder comps now e' → e'.name.version ≤ e.name.version
  /-- a miss changes nothing -/
  miss : r.1 = none → r.2 = cs
  /-- a hit changes nothing but two fields of the entry returned -/
  hit : ∀ i, r.1 = some i → ∃ lastAccessNs accessCount, r.2 = { cs with
    entries := cs.entries.modify i fun e =>
      { e with lastAccessNs := lastAccessNs, accessCount := accessCount } }

/-- The bookkeeping of a hit, seen from the one entry it is done on. -/
theorem modify_touch {es : List PsirpCsEntry} {i : Nat} {e : PsirpCsEntry} (he : es[i]? = some e)
    (now : UInt64) :
    es.modify i (touch now) = es.modify i fun e' =>
      { e' with lastAccessNs := now, accessCount := e.accessCount + 1 } := by
  refine List.ext_getElem? fun j => ?_
  rw [List.getElem?_modify, List.getElem?_modify]
  split
  · rename_i hij
    rw [← hij, he]
    rfl
  · rfl

/-- **Unversioned lookups return the newest live version**, whatever is in the table. -/
theorem psirpCsLookup_newest {cs : PsirpCs} {name : PsirpName} {now : UInt64}
    (hv : name.hasVersion = false) (hclock : ∀ e ∈ cs.entries, e.timestamp ≤ now) :
    ReturnsNewest cs name.components now (psirpCsLookup cs name now) := by
  have hiff : ∀ e ∈ cs.entries, LiveUnder name.components now e ↔
      FreshUnder name.components now e :=
    fun e he => liveUnder_iff_freshUnder (hclock e he)
  rw [psirpCsLookup]
  cases hi : lookupIndex cs.entries name now with
  | none =>
    have hdead : ∀ e ∈ cs.entries, ¬ FreshUnder name.components now e := by
      intro e he hfresh
      obtain ⟨i, hi'⟩ := lookupIndex_isSome hv he ((hiff e he).mpr hfresh)
      rw [hi] at hi'
      cases hi'
    exact {
      null_iff := iff_of_true rfl hdead
      newest := fun i h => absurd h (Option.some_ne_none i).symm
      miss := fun _ => rfl
      hit := fun i h => absurd h (Option.some_ne_none i).symm }
  | some i =>
    obtain ⟨e, he, hnew⟩ := newestLive_of_lookupIndex hv hi
    have hmem := List.mem_of_getElem? he
    have hfresh := (hiff e hmem).mp hnew.live
    refine ⟨iff_of_false (Option.some_ne_none i) fun h => h e hmem hfresh, fun j hj => ?_,
      fun h => absurd h (Option.some_ne_none i), fun j hj => ?_⟩
    · obtain rfl := Option.some.inj hj
      refine ⟨e, he, hfresh, fun e' he' hfresh' => ?_⟩
      exact hnew.version_le he' ((hiff e' he').mpr hfresh')
    · obtain rfl := Option.some.inj hj
      refine ⟨now, e.accessCount + 1, ?_⟩
      rw [← modify_touch he]

/-- Of an entry without a version and two versions of `/x`, the greatest is returned. -/
theorem psirpCsLookup_newest_x :
    let x := (psirpNameInit (text ['/', 'x'])).2
    let x₁ := (psirpNameInit (text ['/', 'x', '@', '1'])).2
    let x₂ := (psirpNameInit (text ['/', 'x', '@', '2'])).2
    let cs := (psirpCsStore (psirpCsStore (psirpCsStore psirpCsInit x [0] 0 1).2 x₂ [2] 0 2).2
      x₁ [1] 0 3).2
    (psirpCsLookup cs x 4).1 = some 1 ∧
      ReturnsNewest cs x.components 4 (psirpCsLookup cs x 4) :=
  ⟨by decide +kernel, psirpCsLookup_newest (by decide) (by decide +kernel)⟩

end DsoBrowser

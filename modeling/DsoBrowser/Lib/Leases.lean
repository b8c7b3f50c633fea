import DsoBrowser.Lib.Table
import Mathlib.Data.Finmap

/-!
# Maps whose values expire

A value is held under a key until a deadline, a *lease*. `fetch` reads the value of a lease that is
not over, `sweep` drops the leases that are. A lease that is over stays over, so a sweep is never
seen by a later read (`fetch_sweep`), and what is fetched is the last value inserted
(`fetch_insert`) as long as its lease runs.

The deadlines are taken from any linear order: with a greatest one, some leases never end.
-/

namespace Leases

open Table

universe u v w

variable {κ : Type u} {β : Type v} {τ : Type w}

/-- A value and the time at which it is gone. -/
structure Lease (β : Type v) (τ : Type w) where
  /-- the value -/
  value : β
  /-- the first time it is not there -/
  gone : τ

/-- A finite map from keys to leases. -/
abbrev LeaseMap (κ : Type u) (β : Type v) (τ : Type w) : Type (max u v w) :=
  Finmap fun _ : κ => Lease β τ

/-! ## The leases that pass a test -/

section Keep

/-- A part of a map has no key twice. -/
theorem nodupKeys_filter (m : LeaseMap κ β τ) (p : Lease β τ → Bool) :
    (m.entries.filter fun s => p s.2 = true).NodupKeys := by
  rw [← Multiset.nodup_keys]
  exact Multiset.nodup_of_le (Multiset.map_le_map (Multiset.filter_le _ _)) m.nodupKeys.nodup_keys

/-- The leases that pass a test. -/
def keep (m : LeaseMap κ β τ) (p : Lease β τ → Bool) : LeaseMap κ β τ :=
  ⟨m.entries.filter fun s => p s.2 = true, nodupKeys_filter m p⟩

variable [DecidableEq κ]

theorem lookup_keep (m : LeaseMap κ β τ) (p : Lease β τ → Bool) (k : κ) :
    (keep m p).lookup k = (m.lookup k).filter p := by
  apply Option.ext
  intro l
  rw [Option.filter_eq_some_iff]
  change l ∈ (keep m p).lookup k ↔ l ∈ m.lookup k ∧ p l = true
  rw [Finmap.mem_lookup_iff, Finmap.mem_lookup_iff, keep, Multiset.mem_filter]

/-- The rows of a table that pass stand for the leases that do. -/
theorem keep_represents {α : Type*} {key : α → κ} {val : α → Lease β τ} {l : List α}
    {m : LeaseMap κ β τ} (h : Represents key val l m) (p : Lease β τ → Bool) {l' : List α}
    (hl : l'.Perm (l.filter fun a => p (val a))) : Represents key val l' (keep m p) := by
  have hkeyed : Keyed key (l.filter fun a => p (val a)) :=
    h.keyed.subperm List.filter_sublist.subperm
  refine ⟨hkeyed.perm hl.symm, fun k => ?_⟩
  rw [lookup_keep, h.lookup_eq, (hkeyed.perm hl.symm).row_perm hl]
  apply Option.ext
  intro v
  rw [Option.filter_eq_some_iff, Option.map_eq_some_iff, Option.map_eq_some_iff]
  refine ⟨?_, ?_⟩
  · rintro ⟨⟨a, ha, rfl⟩, hp⟩
    exact ⟨a, row_filter ha hp, rfl⟩
  · rintro ⟨a, ha, rfl⟩
    obtain ⟨hmem, hk⟩ := hkeyed.row_eq_some.mp ha
    obtain ⟨hmem, hp⟩ := List.mem_filter.mp hmem
    exact ⟨⟨a, h.keyed.row_eq_some.mpr ⟨hmem, hk⟩, rfl⟩, hp⟩

end Keep

/-! ## Reading -/

section Reading

variable [LinearOrder τ]

/-- The lease is not over. -/
def Lease.live (now : τ) (l : Lease β τ) : Bool := decide (now < l.gone)

/-- A lease that is over stays over. -/
theorem Lease.live_of_le {now later : τ} (h : now ≤ later) {l : Lease β τ}
    (hl : l.live later = true) : l.live now = true :=
  decide_eq_true (h.trans_lt (of_decide_eq_true hl))

variable [DecidableEq κ]

/-- The value under a key, if its lease is not over. -/
def fetch (m : LeaseMap κ β τ) (k : κ) (now : τ) : Option β :=
  ((m.lookup k).filter (Lease.live now)).map Lease.value

/-- Drop the leases that are over. -/
def sweep (m : LeaseMap κ β τ) (now : τ) : LeaseMap κ β τ := keep m (Lease.live now)

theorem fetch_eq_some {m : LeaseMap κ β τ} {k : κ} {now : τ} {b : β} :
    fetch m k now = some b ↔ ∃ gone, m.lookup k = some ⟨b, gone⟩ ∧ now < gone := by
  rw [fetch, Option.map_eq_some_iff]
  refine ⟨?_, ?_⟩
  · rintro ⟨⟨_, gone⟩, hl, rfl⟩
    obtain ⟨hl, hlive⟩ := Option.filter_eq_some_iff.mp hl
    exact ⟨gone, hl, of_decide_eq_true hlive⟩
  · rintro ⟨gone, hl, hlive⟩
    exact ⟨⟨b, gone⟩, Option.filter_eq_some_iff.mpr ⟨hl, decide_eq_true hlive⟩, rfl⟩

@[simp] theorem fetch_empty (k : κ) (now : τ) : fetch (∅ : LeaseMap κ β τ) k now = none := by
  rw [fetch, Finmap.lookup_empty]
  rfl

/-- What was inserted last is fetched. -/
theorem fetch_insert (m : LeaseMap κ β τ) (k : κ) (l : Lease β τ) {now : τ} (h : now < l.gone) :
    fetch (m.insert k l) k now = some l.value :=
  fetch_eq_some.mpr ⟨l.gone, Finmap.lookup_insert m, h⟩

/-- **A sweep is not seen** by anything that is read later. -/
theorem fetch_sweep (m : LeaseMap κ β τ) (k : κ) {now later : τ} (h : now ≤ later) :
    fetch (sweep m now) k later = fetch m k later := by
  have hfilter : ((m.lookup k).filter (Lease.live now)).filter (Lease.live later) =
      (m.lookup k).filter (Lease.live later) := by
    rw [Option.filter_filter]
    congr 1
    funext l
    rw [Bool.eq_iff_iff, Bool.and_eq_true]
    exact ⟨fun hl => hl.2, fun hl => ⟨Lease.live_of_le h hl, hl⟩⟩
  rw [fetch, sweep, lookup_keep, hfilter, fetch]

end Reading

end Leases

import DsoBrowser.ChunkedContent
import DsoBrowser.Lib.Machine

/-!
# Runs of the chunked store

Chunks and manifests live in the same flat namespace as everything else, and nothing is ever
removed from it. So what was stored under a name is read back at the end of a run of chunked
stores (`lastWriterWins_of_storedApart`) as long as every call of the run **keeps apart** from the
names stored before:

* it stores small data only where no manifest was written before, because the reader prefers a
  manifest, however old (`stale_of_small_after_large`);
* it writes over nothing that belongs to another name.

The **invariant** of the run is `RunInvariant`: the content map has every name's last data where
the reader looks for it, and has no key that no call wrote.
-/

namespace DsoBrowser

open Heap Machine

/-! ## Runs -/

/-- A call of `psirp_cs_store_chunked` under the name of a canonical path of up to fourteen
components, which is at most 896 bytes long. -/
structure ChunkCall where
  /-- the name -/
  key : PlainKey
  /-- there is room for the derived names -/
  shallow : key.components.length ≤ 14
  /-- the data -/
  data : {d : List UInt8 // Storable d}
  /-- the clock as the call reads it -/
  now : Nat → UInt64

/-- The call itself; the data never expires. -/
def chunkStep (malloc : Allocator UInt64 CString) (s : ChunkState) (c : ChunkCall) :
    Bool × ChunkState :=
  psirpCsStoreChunked malloc s c.key.name c.data.val 0 c.now

/-- What a run stored last under a path. -/
def lastData (calls : List ChunkCall) (components : List CString) : Option (List UInt8) :=
  (calls.reverse.find? fun c => decide (c.key.components = components)).map fun c => c.data.val

/-- At the end of the run, every name that was stored reads back the data last stored under it. -/
def LastWriterWins (malloc : Allocator UInt64 CString) (heap : StringHeap)
    (calls : List ChunkCall) : Prop :=
  ∀ (k : PlainKey) (d : List UInt8), lastData calls k.components = some d →
    ∀ (outCap : Nat) (direct now : Nat → UInt64), d.length ≤ outCap →
      ∃ cs, psirpCsLookupChunked (exec (chunkStep malloc) ⟨psirpCsInit, heap⟩ calls) k.name outCap
        direct now = some (⟨true, d, some d.length⟩, cs)

/-- Every call of the run succeeds. -/
def AllStored (malloc : Allocator UInt64 CString) (heap : StringHeap) (calls : List ChunkCall) :
    Prop :=
  Along (chunkStep malloc) (fun s c => (chunkStep malloc s c).1 = true) ⟨psirpCsInit, heap⟩ calls

/-- The call keeps apart from what was stored before it. -/
structure StoredApart (before : List ChunkCall) (c : ChunkCall) : Prop where
  /-- small data does not come next to a manifest -/
  no_manifest : c.data.val.length ≤ psirpChunkSize →
    ∀ b ∈ before, manifestComponents c.key.name ∉ writes b.key.name b.data.val
  /-- a manifest does not come where the reader of another name looks -/
  manifest_apart : psirpChunkSize < c.data.val.length → ∀ (k : PlainKey) (d : List UInt8),
    lastData before k.components = some d → k.components ≠ c.key.components →
      manifestComponents c.key.name ∉ reads k.name d
  /-- and a piece does so only where it is a piece of the other data, too -/
  pieces_apart : ∀ (k : PlainKey) (d : List UInt8), lastData before k.components = some d →
    k.components ≠ c.key.components → ∀ p ∈ pieces c.key.name c.data.val,
      p.1 ∈ reads k.name d → p ∈ pieces k.name d

theorem lastData_concat (calls : List ChunkCall) (c : ChunkCall) (k : List CString) :
    lastData (calls ++ [c]) k =
      if c.key.components = k then some c.data.val else lastData calls k := by
  rw [lastData, List.reverse_append, List.reverse_singleton, List.singleton_append,
    List.find?_cons]
  by_cases h : c.key.components = k
  · simp [h]
  · simp [h, lastData]

/-- What a run stored, it stored in one of its calls. -/
theorem mem_of_lastData {calls : List ChunkCall} {k : List CString} {d : List UInt8}
    (h : lastData calls k = some d) : ∃ c ∈ calls, c.key.components = k ∧ c.data.val = d := by
  obtain ⟨c, hc, rfl⟩ := Option.map_eq_some_iff.mp h
  exact ⟨c, List.mem_reverse.mp (List.mem_of_find?_eq_some hc), by simpa using List.find?_some hc,
    rfl⟩

/-! ## The invariant -/

/-- The state after the calls, and the map it stands for. -/
structure RunInvariant (calls : List ChunkCall) (s : ChunkState) (m : ContentMap) : Prop where
  /-- the store stands for the map -/
  stands : StandsFor s.cs m
  /-- every key was written -/
  written : ∀ k, (∀ c ∈ calls, k ∉ writes c.key.name c.data.val) → m.lookup k = none
  /-- every name has its last data where the reader looks for it -/
  readable : ∀ (k : PlainKey) (d : List UInt8), lastData calls k.components = some d →
    Readable s.heap m k.name d

theorem runInvariant_init (heap : StringHeap) : RunInvariant [] ⟨psirpCsInit, heap⟩ ∅ :=
  ⟨standsFor_init, fun _ _ => Finmap.lookup_empty _, fun _ _ h => by cases h⟩

theorem ChunkCall.path (c : ChunkCall) : ∀ x ∈ c.key.name.components, PathComponent x := by
  rw [c.key.components_name]
  exact c.key.path

theorem ChunkCall.shallow_name (c : ChunkCall) : Shallow c.key.name := by
  rw [Shallow, c.key.components_name]
  exact Nat.add_le_add_right c.shallow 2

theorem ChunkCall.data_le (c : ChunkCall) :
    c.data.val.length ≤ psirpMaxChunks * psirpChunkSize :=
  c.data.property.2.trans (by decide)

/-- What a call that succeeds does to the map, if there is no manifest where small data goes. -/
theorem ChunkCall.stored {malloc : Allocator UInt64 CString} {s s' : ChunkState}
    {m : ContentMap} {c : ChunkCall} (h : StandsFor s.cs m)
    (hmanifest : c.data.val.length ≤ psirpChunkSize →
      m.lookup (manifestComponents c.key.name) = none)
    (hok : chunkStep malloc s c = (true, s')) :
    ∃ m', StandsFor s'.cs m' ∧ Extends s.heap s'.heap ∧ Readable s'.heap m' c.key.name c.data.val ∧
      ∀ k ∉ writes c.key.name c.data.val, m'.lookup k = m.lookup k := by
  rcases Nat.lt_or_ge psirpChunkSize c.data.val.length with hlarge | hsmall
  · exact h.storeChunked_large c.key.hasVersion_name c.path c.shallow_name hlarge c.data_le hok
  · obtain ⟨hs, hheap⟩ := h.storeChunked_small hsmall hok
    refine ⟨_, hs, hheap ▸ Extends.refl _, ⟨?_, fun _ => ?_, ?_⟩, ?_⟩
    · intro p hp
      rw [pieces, if_pos hsmall, List.mem_singleton] at hp
      rw [hp, c.key.components_name]
      exact Finmap.lookup_insert _
    · rw [Finmap.lookup_insert_of_ne, hmanifest hsmall]
      rw [manifestComponents, c.key.components_name]
      exact fun he => absurd (congrArg List.length he) (by simp)
    · intro hlarge
      exact absurd hlarge (Nat.not_lt.mpr hsmall)
    · intro k hk
      rw [writes, if_pos hsmall, pieces, if_pos hsmall, List.map_singleton, List.mem_singleton,
        c.key.components_name] at hk
      exact Finmap.lookup_insert_of_ne _ hk

/-- Data stays readable if what is written over it is the same. -/
theorem Readable.after_write {heap heap' : StringHeap} {m m' : ContentMap} {name other : PsirpName}
    {d d' : List UInt8} (h : Readable heap m name d) (hext : Extends heap heap')
    (hframe : ∀ k ∉ writes other d', m'.lookup k = m.lookup k)
    (hpieces : ∀ p ∈ pieces other d', m'.lookup p.1 = some p.2)
    (hmanifest : psirpChunkSize < d'.length → manifestComponents other ∉ reads name d)
    (hsame : ∀ p ∈ pieces other d', p.1 ∈ reads name d → p ∈ pieces name d) :
    Readable heap' m' name d := by
  refine h.congr hext fun k hk => ?_
  by_cases hw : k ∈ writes other d'
  · have hpiece : k ∈ (pieces other d').map Prod.fst := by
      simp only [writes] at hw
      split at hw
      · exact hw
      · rename_i hlarge
        rcases List.mem_cons.mp hw with rfl | hw
        · exact absurd hk (hmanifest (Nat.not_le.mp hlarge))
        · exact hw
    obtain ⟨p, hp, rfl⟩ := List.mem_map.mp hpiece
    rw [hpieces p hp, h.pieces_lookup p (hsame p hp hk)]
  · exact hframe k hw

/-- **Step.** A call that keeps apart and succeeds keeps the invariant. -/
theorem RunInvariant.step {malloc : Allocator UInt64 CString} {calls : List ChunkCall}
    {s s' : ChunkState} {m : ContentMap} {c : ChunkCall} (h : RunInvariant calls s m)
    (hapart : StoredApart calls c) (hok : chunkStep malloc s c = (true, s')) :
    ∃ m', RunInvariant (calls ++ [c]) s' m' := by
  obtain ⟨m', hs, hext, hreadable, hframe⟩ :=
    ChunkCall.stored h.stands (fun hsmall => h.written _ (hapart.no_manifest hsmall)) hok
  refine ⟨m', hs, ?_, ?_⟩
  · intro k hk
    rw [hframe k (hk c (by simp))]
    exact h.written k fun b hb => hk b (List.mem_append_left _ hb)
  · intro k d hd
    rw [lastData_concat] at hd
    split at hd
    · rename_i hkey
      obtain rfl := Option.some.inj hd
      rw [PlainKey.name, ← hkey]
      exact hreadable
    · rename_i hkey
      exact (h.readable k d hd).after_write hext hframe hreadable.pieces_lookup
        (fun hlarge => hapart.manifest_apart hlarge k d hd (Ne.symm hkey))
        (hapart.pieces_apart k d hd (Ne.symm hkey))

/-- **Run.** A run whose calls keep apart and succeed ends in the invariant. -/
theorem runInvariant_of_storedApart {malloc : Allocator UInt64 CString} {heap : StringHeap}
    {calls : List ChunkCall} (hok : AllStored malloc heap calls)
    (hapart : ∀ before c after, calls = before ++ c :: after → StoredApart before c) :
    ∃ m, RunInvariant calls (exec (chunkStep malloc) ⟨psirpCsInit, heap⟩ calls) m := by
  induction calls using List.reverseRecOn with
  | nil => exact ⟨∅, runInvariant_init heap⟩
  | append_singleton calls c ih =>
    obtain ⟨hok, hlast, -⟩ := (along_append _ _ _ _).mp hok
    obtain ⟨m, hm⟩ := ih hok fun before b after hsplit =>
      hapart before b (after ++ [c]) (by rw [hsplit, List.append_assoc, List.cons_append])
    rw [exec_append, exec_cons, exec_nil]
    exact hm.step (hapart calls c [] rfl) (Prod.ext hlast rfl)

/-- **Last writer wins**, in every run of chunked stores that succeed and keep apart. -/
theorem lastWriterWins_of_storedApart {malloc : Allocator UInt64 CString} {heap : StringHeap}
    {calls : List ChunkCall} (hok : AllStored malloc heap calls)
    (hapart : ∀ before c after, calls = before ++ c :: after → StoredApart before c) :
    LastWriterWins malloc heap calls := by
  intro k d hd outCap direct now hcap
  obtain ⟨m, hm⟩ := runInvariant_of_storedApart hok hapart
  obtain ⟨c, -, hkey, rfl⟩ := mem_of_lastData hd
  have hname : k.name = c.key.name := by
    rw [PlainKey.name, ← hkey]
    rfl
  have hreadable := hm.readable k _ hd
  rw [hname] at hreadable ⊢
  exact hreadable.lookupChunked c.key.hasVersion_name c.path c.shallow_name hm.stands c.data_le hcap
    direct now

/-- A store of one byte under `/a`. -/
def callA (b : UInt8) : ChunkCall :=
  ⟨keyA, by decide, ⟨[b], by simp [Storable, psirpMaxData]⟩, fun _ => 0⟩

theorem lastWriterWins_of_storedApart_a : LastWriterWins countUp [] [callA 1, callA 2] := by
  refine lastWriterWins_of_storedApart ⟨by decide +kernel, by decide +kernel, trivial⟩ ?_
  have hsame : ∀ k d b, lastData [callA b] k = some d → k = keyA.components := by
    intro k d b hd
    obtain ⟨c, hc, hk, -⟩ := mem_of_lastData hd
    rw [List.mem_singleton.mp hc] at hk
    exact hk.symm
  intro before c after hsplit
  rcases before with _ | ⟨b, _ | ⟨b', before⟩⟩
  · exact ⟨nofun, nofun, nofun⟩
  · obtain ⟨rfl, hrest⟩ := List.cons.inj hsplit
    obtain ⟨rfl, -⟩ := List.cons.inj hrest
    refine ⟨?_, ?_, ?_⟩
    · intro _ b hb
      rw [List.mem_singleton.mp hb]
      decide +kernel
    · intro _ k d hd hne
      exact absurd (hsame _ _ _ hd) hne
    · intro k d hd hne
      exact absurd (hsame _ _ _ hd) hne
  · have hlen := congrArg List.length hsplit
    simp at hlen

/-- A byte stored under `/a` is not read back once a byte is stored under `/a/chunks`. -/
theorem not_lastWriterWins_a :
    let calls : List ChunkCall := [callA 7, ⟨⟨[text ['a'], chunksWord], by decide, by decide,
      by decide⟩, by decide, ⟨[1], by simp [Storable, psirpMaxData]⟩, fun _ => 0⟩]
    AllStored countUp [] calls ∧ ¬ LastWriterWins countUp [] calls := by
  refine ⟨⟨by decide +kernel, by decide +kernel, trivial⟩, fun h => ?_⟩
  obtain ⟨cs, hread⟩ := h keyA [7] (by decide +kernel) 1 (fun _ => 0) (fun _ => 0) (by decide)
  have hok := (congrArg (Option.map fun r => r.1.ok) hread).trans (Option.map_some ..)
  dsimp only at hok
  exact absurd hok (by decide +kernel)

/-! ## Small data after large data -/

/-- **Stale data.** Small data stored where large data was stored before is not seen: the reader
still returns the large data. -/
theorem stale_of_small_after_large {malloc : Allocator UInt64 CString} {s s' : ChunkState}
    {m : ContentMap} {c : ChunkCall} {d : List UInt8} {now : Nat → UInt64}
    (h : StandsFor s.cs m) (hr : Readable s.heap m c.key.name c.data.val)
    (hlarge : psirpChunkSize < c.data.val.length) (hsmall : d.length ≤ psirpChunkSize)
    (hstore : psirpCsStoreChunked malloc s c.key.name d 0 now = (true, s')) {outCap : Nat}
    (hcap : c.data.val.length ≤ outCap) (direct now' : Nat → UInt64) :
    ∃ cs, psirpCsLookupChunked s' c.key.name outCap direct now' =
      some (⟨true, c.data.val, some c.data.val.length⟩, cs) := by
  obtain ⟨hs, hheap⟩ := h.storeChunked_small hsmall hstore
  -- the reader of the large data never looks at the name itself
  have hother : ∀ k ∈ reads c.key.name c.data.val, k ≠ c.key.components := by
    rintro k hk rfl
    rw [reads, pieces, if_neg (Nat.not_le.mpr hlarge), List.map_map] at hk
    rcases List.mem_cons.mp hk with hk | hk
    · rw [manifestComponents, c.key.components_name] at hk
      exact absurd (congrArg List.length hk) (by simp)
    · obtain ⟨i, -, hi⟩ := List.mem_map.mp hk
      rw [Function.comp_apply, chunkComponents, c.key.components_name] at hi
      exact absurd (congrArg List.length hi) (by simp)
  have hreadable : Readable s'.heap (m.insert c.key.components d) c.key.name c.data.val :=
    hr.congr (hheap ▸ Extends.refl _) fun k hk => Finmap.lookup_insert_of_ne _ (hother k hk)
  exact hreadable.lookupChunked c.key.hasVersion_name c.path c.shallow_name hs c.data_le hcap
    direct now'

end DsoBrowser

import DsoBrowser.Mesh
import DsoBrowser.Lib.FirstMax
import DsoBrowser.Lib.Machine

/-!
# Longest-prefix match

`psirp_fib_lookup` and `mesh_fib_lookup` both look for the longest prefix of a name in a table, and
take the first of several. Both start with a best length of `0` and move on only to a longer
prefix, so they never choose the prefix without components that `/` is parsed into, although
`psirp_name_is_prefix` accepts it for every name. They agree with each other on every table
(`longestPrefixMatch_iff`), and with a longest-prefix match on all but those where the empty prefix is
the only one that matches.
-/

namespace DsoBrowser

open FirstMax Machine

/-! ## The forwarding table of a node -/

/-- The size of `psirp_fib.entries` -/
def psirpFibMaxEntries : Nat := 256

/-- `psirp_fib_add` -/
def psirpFibAdd (fib : List PsirpFibEntry) (pfx : CString) (ip : UInt32) (port : UInt16) :
    Bool × List PsirpFibEntry :=
  if psirpFibMaxEntries ≤ fib.length then (false, fib)
  else
    match psirpNameInit pfx with
    | (false, _) => (false, fib)
    | (true, name) => (true, fib ++ [⟨name, ⟨ip, htons port⟩, name.components.length⟩])

/-- The scan of `psirp_fib_lookup` from position `i` on, as it returns a pointer: `best` is the
position of the entry chosen so far. -/
def fibLookupIndexLoop (name : PsirpName) : List PsirpFibEntry → Nat → Option Nat → Nat → Option Nat
  | [], _, best, _ => best
  | e :: es, i, best, bestLen =>
    if psirpNameIsPrefix e.pfx name && bestLen < e.prefixLen then
      fibLookupIndexLoop name es (i + 1) (some i) e.prefixLen
    else fibLookupIndexLoop name es (i + 1) best bestLen

/-- The position of the entry `psirp_fib_lookup` returns a pointer to the peer of. -/
def psirpFibLookupIndex (fib : List PsirpFibEntry) (name : PsirpName) : Option Nat :=
  fibLookupIndexLoop name fib 0 none 0

/-- What is found at the pointer is the peer chosen. -/
theorem fibLookupLoop_eq {fib : List PsirpFibEntry} {name : PsirpName} (es : List PsirpFibEntry) :
    ∀ (i : Nat) (best : Option Nat) (bestLen : Nat), fib.drop i = es →
      fibLookupLoop name es (best.bind fun j => (fib[j]?).map PsirpFibEntry.peer) bestLen =
        (fibLookupIndexLoop name es i best bestLen).bind
          fun j => (fib[j]?).map PsirpFibEntry.peer := by
  induction es with
  | nil => exact fun _ _ _ _ => rfl
  | cons e es ih =>
    intro i best bestLen hdrop
    have hrest : fib.drop (i + 1) = es := by
      rw [← List.drop_drop, hdrop]
      rfl
    have hrow : fib[i]? = some e := by
      rw [← List.head?_drop, hdrop]
      rfl
    rw [fibLookupLoop, fibLookupIndexLoop]
    split
    · rw [← ih (i + 1) (some i) _ hrest, Option.bind_some, hrow]
      rfl
    · exact ih (i + 1) best bestLen hrest

theorem psirpFibLookup_eq (fib : List PsirpFibEntry) (name : PsirpName) :
    psirpFibLookup fib name =
      (psirpFibLookupIndex fib name).bind fun j => (fib[j]?).map PsirpFibEntry.peer :=
  fibLookupLoop_eq fib 0 none 0 rfl

/-! ## Both lookups are one scan -/

/-- What the lookups compare: the length of a prefix, if the name has it. -/
def prefixWeight (name pfx : PsirpName) : WithBot Nat :=
  if psirpNameIsPrefix pfx name then WithBot.some pfx.components.length else ⊥

theorem bot_lt_prefixWeight {name pfx : PsirpName} :
    ⊥ < prefixWeight name pfx ↔ psirpNameIsPrefix pfx name = true := by
  rw [prefixWeight]
  split
  · rename_i h
    exact iff_of_true (WithBot.bot_lt_coe _) h
  · rename_i h
    exact iff_of_false (lt_irrefl _) h

theorem prefixWeight_of_isPrefix {name pfx : PsirpName} (h : psirpNameIsPrefix pfx name = true) :
    prefixWeight name pfx = WithBot.some pfx.components.length :=
  if_pos h

/-- The test both loops make. -/
theorem coe_lt_prefixWeight {name pfx : PsirpName} {n : Nat} :
    WithBot.some n < prefixWeight name pfx ↔
      psirpNameIsPrefix pfx name = true ∧ n < pfx.components.length := by
  rw [prefixWeight]
  split
  · rename_i h
    rw [WithBot.coe_lt_coe, and_iff_right h]
  · rename_i h
    exact iff_of_false not_lt_bot fun hn => h hn.1

theorem meshFibLookupLoop_eq_scan (name : PsirpName) (es : List MeshFibEntry) :
    ∀ (i : Nat) (best : Option Nat) (bestLen : Nat),
      meshFibLookupLoop name es i best bestLen =
        scan (prefixWeight name) (es.map MeshFibEntry.pfx) i best (WithBot.some bestLen) := by
  induction es with
  | nil => exact fun _ _ _ => rfl
  | cons e es ih =>
    intro i best bestLen
    rw [meshFibLookupLoop, List.map_cons, scan]
    simp only [Bool.and_eq_true, decide_eq_true_eq, coe_lt_prefixWeight]
    split
    · rename_i h
      rw [ih, prefixWeight_of_isPrefix h.1]
    · exact ih _ _ _

/-- The lengths kept beside the prefixes are theirs. -/
def PrefixLens (fib : List PsirpFibEntry) : Prop :=
  ∀ e ∈ fib, e.prefixLen = e.pfx.components.length

theorem fibLookupIndexLoop_eq_scan (name : PsirpName) {es : List PsirpFibEntry}
    (h : PrefixLens es) : ∀ (i : Nat) (best : Option Nat) (bestLen : Nat),
      fibLookupIndexLoop name es i best bestLen =
        scan (prefixWeight name) (es.map PsirpFibEntry.pfx) i best (WithBot.some bestLen) := by
  induction es with
  | nil => exact fun _ _ _ => rfl
  | cons e es ih =>
    obtain ⟨hlen, hlens⟩ := List.forall_mem_cons.mp h
    intro i best bestLen
    rw [fibLookupIndexLoop, List.map_cons, scan, hlen]
    simp only [Bool.and_eq_true, decide_eq_true_eq, coe_lt_prefixWeight]
    split
    · rename_i hbetter
      rw [ih hlens, prefixWeight_of_isPrefix hbetter.1]
    · exact ih hlens _ _ _

/-! ## Runs -/

/-- A call of `psirp_fib_add`. -/
structure FibAddCall where
  /-- the prefix as text -/
  pfx : CString
  /-- the address of the peer -/
  ip : UInt32
  /-- its port -/
  port : UInt16

/-- The call itself. -/
def fibAddStep (fib : List PsirpFibEntry) (c : FibAddCall) : Bool × List PsirpFibEntry :=
  psirpFibAdd fib c.pfx c.ip c.port

/-- The table some calls lead to. -/
def fibAfter (calls : List FibAddCall) : List PsirpFibEntry := exec fibAddStep [] calls

/-- **Step.** The length kept is that of the prefix added. -/
theorem PrefixLens.psirpFibAdd {fib : List PsirpFibEntry} (h : PrefixLens fib) (pfx : CString)
    (ip : UInt32) (port : UInt16) : PrefixLens (psirpFibAdd fib pfx ip port).2 := by
  rw [DsoBrowser.psirpFibAdd]
  split
  · exact h
  · split
    · exact h
    · intro e he
      rcases List.mem_append.mp he with he | he
      · exact h e he
      · rw [List.mem_singleton.mp he]

theorem prefixLens_of_run (calls : List FibAddCall) : PrefixLens (fibAfter calls) :=
  exec_inv (P := fun _ _ => True) (fun _ c h _ => h.psirpFibAdd c.pfx c.ip c.port) (by simp [PrefixLens])
    (along_input.mpr fun _ _ => trivial)

/-! ## What they choose -/

/-- `r` is the position of the longest prefix of the name, and of the first such. -/
structure LongestPrefixMatch (prefixes : List PsirpName) (name : PsirpName) (r : Option Nat) :
    Prop where
  /-- no answer exactly if there is no match -/
  none_iff : r = none ↔ ∀ p ∈ prefixes, psirpNameIsPrefix p name = false
  /-- an answer matches, no match is longer, and those before it are shorter -/
  longest : ∀ i, r = some i → ∃ p, prefixes[i]? = some p ∧ psirpNameIsPrefix p name = true ∧
    (∀ q ∈ prefixes, psirpNameIsPrefix q name = true →
      q.components.length ≤ p.components.length) ∧
    ∀ j < i, ∀ q, prefixes[j]? = some q → psirpNameIsPrefix q name = true →
      q.components.length < p.components.length

/-- A longest-prefix match that is not missing is the first row of the greatest weight. -/
theorem isFirstMax_prefixWeight_iff {prefixes : List PsirpName} {name p : PsirpName} {i : Nat}
    (hp : psirpNameIsPrefix p name = true) :
    IsFirstMax (prefixWeight name) prefixes i p ↔ prefixes[i]? = some p ∧
      (∀ q ∈ prefixes, psirpNameIsPrefix q name = true →
        q.components.length ≤ p.components.length) ∧
      ∀ j < i, ∀ q, prefixes[j]? = some q → psirpNameIsPrefix q name = true →
        q.components.length < p.components.length := by
  have hle : ∀ q, prefixWeight name q ≤ prefixWeight name p ↔
      (psirpNameIsPrefix q name = true → q.components.length ≤ p.components.length) := by
    intro q
    rw [prefixWeight_of_isPrefix hp, ← not_lt, coe_lt_prefixWeight, not_and, Nat.not_lt]
  have hlt : ∀ q, prefixWeight name q < prefixWeight name p ↔
      (psirpNameIsPrefix q name = true → q.components.length < p.components.length) := by
    intro q
    rw [prefixWeight_of_isPrefix hp, prefixWeight]
    split
    · rename_i hq
      rw [WithBot.coe_lt_coe, imp_iff_right hq]
    · rename_i hq
      exact iff_of_true (WithBot.bot_lt_coe _) fun h => absurd h hq
  refine ⟨?_, ?_⟩
  · intro h
    exact ⟨h.row, fun q hq => (hle q).mp (h.greatest q hq),
      fun j hj q hq => (hlt q).mp (h.first j hj q hq)⟩
  · rintro ⟨hrow, hgreatest, hfirst⟩
    exact ⟨hrow, fun q hq => (hle q).mpr (hgreatest q hq),
      fun j hj q hq => (hlt q).mpr (hfirst j hj q hq)⟩

/-- There is one longest-prefix match, and a scan that starts below every length finds it. -/
theorem longestPrefixMatch_iff_scan {prefixes : List PsirpName} {name : PsirpName}
    {r : Option Nat} :
    LongestPrefixMatch prefixes name r ↔ scan (prefixWeight name) prefixes 0 none ⊥ = r := by
  have hnone : scan (prefixWeight name) prefixes 0 none ⊥ = none ↔
      ∀ p ∈ prefixes, psirpNameIsPrefix p name = false := by
    rw [scan_bot_eq_none]
    refine forall₂_congr fun p _ => ?_
    rw [← not_bot_lt_iff, bot_lt_prefixWeight, Bool.not_eq_true]
  have hsome : ∀ i, scan (prefixWeight name) prefixes 0 none ⊥ = some i ↔ ∃ p,
      prefixes[i]? = some p ∧ psirpNameIsPrefix p name = true ∧
        (∀ q ∈ prefixes, psirpNameIsPrefix q name = true →
          q.components.length ≤ p.components.length) ∧
        ∀ j < i, ∀ q, prefixes[j]? = some q → psirpNameIsPrefix q name = true →
          q.components.length < p.components.length := by
    intro i
    rw [scan_eq_some]
    refine exists_congr fun p => ?_
    rw [bot_lt_prefixWeight, and_left_comm, and_comm]
    exact and_congr_right fun hp => isFirstMax_prefixWeight_iff hp
  refine ⟨?_, ?_⟩
  · intro h
    cases r with
    | none => exact hnone.mpr (h.none_iff.mp rfl)
    | some i => exact (hsome i).mpr (h.longest i rfl)
  · rintro rfl
    exact ⟨hnone, fun i => (hsome i).mp⟩

/-- Some prefix that is not empty matches the name, or no prefix is empty. -/
def NoEmptyPrefixWins (prefixes : List PsirpName) (name : PsirpName) : Prop :=
  (∃ p ∈ prefixes, p.components ≠ [] ∧ psirpNameIsPrefix p name = true) ∨
    ∀ p ∈ prefixes, p.components ≠ []

/-- **A scan that starts at `0`** finds the longest-prefix match exactly if that is not an empty
prefix. -/
theorem longestPrefixMatch_scan_iff (prefixes : List PsirpName) (name : PsirpName) :
    LongestPrefixMatch prefixes name
        (scan (prefixWeight name) prefixes 0 none (WithBot.some 0)) ↔
      NoEmptyPrefixWins prefixes name := by
  have hempty : ∀ p : PsirpName, p.components = [] → psirpNameIsPrefix p name = true := by
    intro p hp
    rw [psirpNameIsPrefix, hp]
    rfl
  have hpos : (∃ p ∈ prefixes, WithBot.some 0 < prefixWeight name p) ↔
      ∃ p ∈ prefixes, p.components ≠ [] ∧ psirpNameIsPrefix p name = true := by
    refine exists_congr fun p => and_congr_right fun _ => ?_
    rw [coe_lt_prefixWeight, and_comm, List.length_pos_iff]
  have hbot : ∀ p, prefixWeight name p = ⊥ ↔ psirpNameIsPrefix p name = false := by
    intro p
    rw [← not_bot_lt_iff, bot_lt_prefixWeight, Bool.not_eq_true]
  rw [longestPrefixMatch_iff_scan, eq_comm, scan_eq_scan_bot_iff, hpos, NoEmptyPrefixWins]
  refine ⟨?_, ?_⟩
  · refine Or.imp_right fun hall p hp he => ?_
    have hmatch := hempty p he
    rw [(hbot p).mp (hall p hp)] at hmatch
    cases hmatch
  · rintro (hlong | hne)
    · exact Or.inl hlong
    · by_cases hlong : ∃ p ∈ prefixes, p.components ≠ [] ∧ psirpNameIsPrefix p name = true
      · exact Or.inl hlong
      · refine Or.inr fun p hp => (hbot p).mpr (Bool.eq_false_iff.mpr fun hmatch => ?_)
        exact hlong ⟨p, hp, hne p hp, hmatch⟩

/-- Prefixes are compared by their components. -/
theorem scan_prefixWeight_congr {ps qs : List PsirpName}
    (h : ps.map PsirpName.components = qs.map PsirpName.components) (name : PsirpName)
    (least : WithBot Nat) :
    scan (prefixWeight name) ps 0 none least = scan (prefixWeight name) qs 0 none least := by
  have hcomps : ∀ l : List PsirpName, scan (prefixWeight name) l 0 none least =
      scan (fun cs : List CString => if cs.isPrefixOf name.components then WithBot.some cs.length
        else ⊥) (l.map PsirpName.components) 0 none least := by
    intro l
    rw [scan_map]
    rfl
  rw [hcomps, hcomps, h]

/-- **Both tables are matched exactly when** the empty prefix is not the only one that matches, and
on the same prefixes both lookups choose the same position. -/
theorem longestPrefixMatch_iff (calls : List FibAddCall) (ctx : MeshCtx) (name : PsirpName) :
    let fib := fibAfter calls
    let prefixes := fib.map PsirpFibEntry.pfx
    let meshPrefixes := ctx.fib.map MeshFibEntry.pfx
    (LongestPrefixMatch prefixes name (psirpFibLookupIndex fib name) ↔
        NoEmptyPrefixWins prefixes name) ∧
      (LongestPrefixMatch meshPrefixes name (meshFibLookup ctx name) ↔
        NoEmptyPrefixWins meshPrefixes name) ∧
      (prefixes.map PsirpName.components = meshPrefixes.map PsirpName.components →
        psirpFibLookupIndex fib name = meshFibLookup ctx name) := by
  intro fib prefixes meshPrefixes
  have hnode : psirpFibLookupIndex fib name =
      scan (prefixWeight name) prefixes 0 none (WithBot.some 0) :=
    fibLookupIndexLoop_eq_scan name (prefixLens_of_run calls) 0 none 0
  have hmesh : meshFibLookup ctx name =
      scan (prefixWeight name) meshPrefixes 0 none (WithBot.some 0) :=
    meshFibLookupLoop_eq_scan name ctx.fib 0 none 0
  rw [hnode, hmesh]
  exact ⟨longestPrefixMatch_scan_iff _ _, longestPrefixMatch_scan_iff _ _,
    fun h => scan_prefixWeight_congr h name _⟩

/-- A table with a route for `/`, which is a prefix of every name, answers that there is none. -/
theorem not_longestPrefixMatch_slash :
    let fib := fibAfter [⟨text ['/'], 1, 1⟩]
    let x := (psirpNameInit (text ['/', 'x'])).2
    let ctx := (meshAddFib (meshAddPeer (meshInit none .null) (text ['/', 'a']) ⟨1, 1⟩ 0).2
      (psirpNameInit (text ['/'])).2 0 0 0).2
    (∃ e ∈ fib, psirpNameIsPrefix e.pfx x = true) ∧
      ¬ LongestPrefixMatch (fib.map PsirpFibEntry.pfx) x (psirpFibLookupIndex fib x) ∧
      ¬ LongestPrefixMatch (ctx.fib.map MeshFibEntry.pfx) x (meshFibLookup ctx x) := by
  refine ⟨by decide, fun h => ?_, fun h => ?_⟩
  · exact absurd (h.none_iff.mp (by decide)) (by decide)
  · exact absurd (h.none_iff.mp (by decide +kernel)) (by decide +kernel)

end DsoBrowser

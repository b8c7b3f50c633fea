import DsoBrowser.Accounting

/-!
# The byte budget

A store that inserts and a gc evict until the bytes held are within the budget; a store that
replaces the data of an entry returns before the eviction loop. So the budget is kept after
every successful store and every gc of a run exactly when every replacement in it fits
(`budgetEnforced_iff`).

The stores inside a chunked store count as stores, too: `storeCalls` lists the calls of
`psirp_cs_store` that a call of the interface makes, and `storeCalls_chained` says that these are
what it does to the content store.
-/

namespace DsoBrowser

open Table Machine Heap

/-! ## The stores a call makes -/

/-- A call of `psirp_cs_store`, with the store it finds. -/
structure CsStoreCall where
  /-- the content store before -/
  before : PsirpCs
  /-- content name -/
  name : PsirpName
  /-- content data -/
  data : List UInt8
  /-- validity period -/
  freshnessMs : UInt32
  /-- the clock -/
  now : UInt64

/-- What it returns and leaves behind. -/
def CsStoreCall.result (c : CsStoreCall) : Bool × PsirpCs :=
  psirpCsStore c.before c.name c.data c.freshnessMs c.now

/-- The calls of the chunk loop of `psirp_cs_store_chunked`, from the `i`-th chunk on. -/
def chunkStores (malloc : Allocator UInt64 CString) (name : PsirpName) (freshnessMs : UInt32)
    (now : Nat → UInt64) : (slots : Nat) → (rest : List UInt8) → (i : Nat) → ChunkState →
    List CsStoreCall
  | 0, _, _, _ => []
  | slots + 1, rest, i, s =>
    if rest = [] then []
    else
      match nameInitOwned malloc s.heap (chunkPath name i) with
      | none => []
      | some (cn, _, heap) =>
        let c : CsStoreCall := ⟨s.cs, cn, rest.take psirpChunkSize, freshnessMs, now i⟩
        match c.result with
        | (false, _) => [c]
        | (true, cs) =>
          c :: chunkStores malloc name freshnessMs now slots (rest.drop psirpChunkSize) (i + 1)
            ⟨cs, heap⟩

/-- The call that stores the manifest, when the chunk loop ended in `s`. -/
def manifestStores (name : PsirpName) (data : List UInt8) (freshnessMs : UInt32)
    (now : Nat → UInt64) : Bool × List PsirpChunkRef × ChunkState → List CsStoreCall
  | (false, _, _) => []
  | (true, refs, s) =>
    match psirpNameInit (manifestPath name) with
    | (false, _) => []
    | (true, mn) =>
      [⟨s.cs, mn, (PsirpManifest.of data.length refs).bytes, freshnessMs, now refs.length⟩]

/-- The calls of `psirp_cs_store` a call of the interface makes, in order. -/
def storeCalls (malloc : Allocator UInt64 CString) (s : ChunkState) : ContentOp → List CsStoreCall
  | .plain (.store name data freshnessMs now) => [⟨s.cs, name, data, freshnessMs, now⟩]
  | .storeChunked name data freshnessMs now =>
    if data.length ≤ psirpChunkSize then [⟨s.cs, name, data, freshnessMs, now 0⟩]
    else
      chunkStores malloc name freshnessMs now psirpMaxChunks data 0 s ++
        manifestStores name data freshnessMs now
          (storeChunksLoop malloc name freshnessMs now psirpMaxChunks data [] s)
  | _ => []

/-- Calls that find what the one before left, from `cs` to `cs'`. -/
def Chained : PsirpCs → List CsStoreCall → PsirpCs → Prop
  | cs, [], cs' => cs = cs'
  | cs, c :: calls, cs' => c.before = cs ∧ Chained c.result.2 calls cs'

theorem Chained.append {calls₂ : List CsStoreCall} {cs₂ cs₃ : PsirpCs}
    (h₂ : Chained cs₂ calls₂ cs₃) : ∀ {calls₁ : List CsStoreCall} {cs₁ : PsirpCs},
      Chained cs₁ calls₁ cs₂ → Chained cs₁ (calls₁ ++ calls₂) cs₃ := by
  intro calls₁
  induction calls₁ with
  | nil =>
    rintro cs₁ rfl
    exact h₂
  | cons c calls₁ ih => exact fun h => ⟨h.1, ih h.2⟩

/-- The chunk loop does to the content store what its calls do. -/
theorem chunkStores_chained (malloc : Allocator UInt64 CString) (name : PsirpName)
    (freshnessMs : UInt32) (now : Nat → UInt64) :
    ∀ (slots : Nat) (rest : List UInt8) (refs : List PsirpChunkRef) (s : ChunkState),
      Chained s.cs (chunkStores malloc name freshnessMs now slots rest refs.length s)
        (storeChunksLoop malloc name freshnessMs now slots rest refs s).2.2.cs := by
  intro slots
  induction slots with
  | zero => exact fun _ _ _ => rfl
  | succ slots ih =>
    intro rest refs s
    rw [chunkStores, storeChunksLoop]
    split
    · rfl
    · cases nameInitOwned malloc s.heap (chunkPath name refs.length) with
      | none => rfl
      | some r =>
        obtain ⟨cn, raw, heap⟩ := r
        simp only [CsStoreCall.result]
        rcases hs : psirpCsStore s.cs cn (rest.take psirpChunkSize) freshnessMs
          (now refs.length) with ⟨ok, cs⟩
        cases ok with
        | false => exact ⟨rfl, congrArg Prod.snd hs⟩
        | true =>
          -- the next round finds what this call left
          have hrest := ih (rest.drop psirpChunkSize)
            (refs ++ [⟨raw, UInt64.ofNat (rest.take psirpChunkSize).length⟩]) ⟨cs, heap⟩
          rw [List.length_append, List.length_singleton] at hrest
          refine ⟨rfl, ?_⟩
          rw [CsStoreCall.result, hs]
          exact hrest

/-- **The calls of `psirp_cs_store` are all that a store does to the content store**, chunked or
not. -/
theorem storeCalls_chained (malloc : Allocator UInt64 CString) (s : ChunkState) {op : ContentOp}
    (h : storeCalls malloc s op ≠ []) :
    Chained s.cs (storeCalls malloc s op) (contentStep malloc s op).2.cs := by
  cases op with
  | plain op =>
    cases op with
    | store name data freshnessMs now => exact ⟨rfl, rfl⟩
    | _ => exact absurd rfl h
  | lookupChunked name outCap direct now => exact absurd rfl h
  | storeChunked name data freshnessMs now =>
    rw [storeCalls, contentStep, psirpCsStoreChunked]
    split
    · exact ⟨rfl, rfl⟩
    · apply Chained.append _ (chunkStores_chained malloc name freshnessMs now psirpMaxChunks data [] s)
      generalize storeChunksLoop malloc name freshnessMs now psirpMaxChunks data [] s = r
      obtain ⟨ok, refs, s'⟩ := r
      cases ok with
      | false => rfl
      | true =>
        rw [manifestStores]
        generalize psirpNameInit (manifestPath name) = r
        obtain ⟨ok, mn⟩ := r
        cases ok with
        | false => rfl
        | true =>
          refine ⟨rfl, ?_⟩
          simp only [CsStoreCall.result]
          generalize psirpCsStore s'.cs mn (PsirpManifest.of data.length refs).bytes freshnessMs
            (now refs.length) = r
          obtain ⟨ok, cs⟩ := r
          cases ok with
          | false => rfl
          | true => rfl

/-- Every call of a chain finds an exact counter if the first one does. -/
theorem Chained.accounts : ∀ {calls : List CsStoreCall} {cs cs' : PsirpCs},
    Chained cs calls cs' → Accounts cs → ∀ c ∈ calls, Accounts c.before := by
  intro calls
  induction calls with
  | nil => exact fun _ _ c hc => absurd hc List.not_mem_nil
  | cons c calls ih =>
    rintro cs cs' ⟨rfl, hrest⟩ hacc c' hc'
    rcases List.mem_cons.mp hc' with rfl | hc'
    · exact hacc
    · exact ih hrest (hacc.store _ _ _ _).2 c' hc'

/-! ## Eviction -/

/-- The byte budget is kept. -/
def WithinBudget (cs : PsirpCs) : Prop := 0 < cs.maxBytes → cs.bytesUsed ≤ cs.maxBytes

theorem lruLoop_lt {es : List PsirpCsEntry} {i lru : Nat} {least : UInt64} {n : Nat}
    (hlru : lru < n) (hlen : i + es.length ≤ n) : lruLoop es i lru least < n := by
  induction es generalizing i lru least with
  | nil => exact hlru
  | cons e es ih =>
    rw [List.length_cons] at hlen
    rw [lruLoop]
    split
    · exact ih (by omega) (by omega)
    · exact ih hlru (by omega)

/-- The victim is an entry. -/
theorem lruIndex_lt {es : List PsirpCsEntry} (h : es ≠ []) : lruIndex es < es.length := by
  cases es with
  | nil => exact absurd rfl h
  | cons e es => exact lruLoop_lt (Nat.succ_pos _) (by rw [List.length_cons]; omega)

/-- Freeing an entry makes the table shorter. -/
theorem length_removeAt {cs : PsirpCs} {i : Nat} (hi : i < cs.entries.length) :
    (removeAt cs i).entries.length + 1 = cs.entries.length := by
  rw [entries_removeAt (List.getElem?_eq_getElem hi)]
  exact length_swapRemove hi

/-- With enough fuel the eviction loop ends within the budget. -/
theorem budgetLoop_within {cs : PsirpCs} (h : Accounts cs) {fuel : Nat}
    (hfuel : cs.entries.length ≤ fuel) :
    (budgetLoop fuel cs).2.bytesUsed ≤ (budgetLoop fuel cs).2.maxBytes := by
  -- a store without entries holds no bytes
  have hempty : cs.entries = [] → cs.bytesUsed ≤ cs.maxBytes := by
    intro hnil
    have hzero := h.bytes_eq
    rw [hnil] at hzero
    rw [UInt64.le_iff_toNat_le, hzero]
    exact Nat.zero_le _
  induction fuel generalizing cs with
  | zero => exact hempty (List.length_eq_zero_iff.mp (Nat.le_zero.mp hfuel))
  | succ fuel ih =>
    rw [budgetLoop]
    split
    · rename_i hcond
      have hlen := length_removeAt (lruIndex_lt hcond.2)
      have hacc := (h.removeAt (lruIndex cs.entries)).2
      apply ih hacc (by omega)
      intro hnil
      have hzero := hacc.bytes_eq
      rw [hnil] at hzero
      rw [UInt64.le_iff_toNat_le, hzero]
      exact Nat.zero_le _
    · rename_i hcond
      by_cases hnil : cs.entries = []
      · exact hempty hnil
      · exact UInt64.not_lt.mp fun hlt => hcond ⟨hlt, hnil⟩

theorem enforceBudget_within {cs : PsirpCs} (h : Accounts cs) :
    WithinBudget (enforceBudget cs).2 := by
  intro hpos
  rw [(enforceBudget_frame cs).2.2] at hpos
  rw [enforceBudget, if_pos hpos]
  exact budgetLoop_within h le_rfl

/-! ## Replacements -/

/-- If the call replaces the data of an entry and there is a budget, the bytes held with the new
data in place of the old are within it. -/
def CsStoreCall.ReplacementFits (c : CsStoreCall) : Prop :=
  ∀ i e, c.before.entries.findIdx? (fun e => psirpNameEqual e.name c.name) = some i →
    c.before.entries[i]? = some e → Storable c.data → 0 < c.before.maxBytes →
    c.before.bytesUsed.toNat - e.data.length + c.data.length ≤ c.before.maxBytes.toNat

/-- **A store keeps the budget** unless it replaces data by too much. -/
theorem CsStoreCall.within_iff {c : CsStoreCall} (h : Accounts c.before) :
    (c.result.1 = true → WithinBudget c.result.2) ↔ c.ReplacementFits := by
  rw [CsStoreCall.result]
  rcases psirpCsStore_cases c.before c.name c.data c.freshnessMs c.now with
    ⟨hs, hrefused⟩ | ⟨hd, i, b, hidx, -⟩ | ⟨hd, hroom, hidx, hs⟩
  · refine iff_of_true (fun hok => ?_) fun i e hi _ hd _ => ?_
    · rw [hs] at hok
      cases hok
    · rw [(hrefused hd).2] at hi
      cases hi
  · obtain ⟨hi, -⟩ := List.findIdx?_eq_some_iff_getElem.mp hidx
    have he : c.before.entries[i]? = some c.before.entries[i] := List.getElem?_eq_getElem hi
    -- the counter a replacement leaves, as a number
    have hbytes := (h.overwrite he hd c.freshnessMs c.now).2.bytes_eq
    have hheld : c.before.entries[i].data.length + heldBytes (c.before.entries.modify i
        (overwrite c.data c.freshnessMs c.now)) = c.data.length + heldBytes c.before.entries :=
      total_modify (w := fun e => e.data.length) he _
    have hold : c.before.entries[i].data.length + heldBytes (swapRemove c.before.entries i) =
        heldBytes c.before.entries := total_swapRemove (w := fun e => e.data.length) he
    have hused := h.bytes_eq
    rw [psirpCsStore_of_match hidx he hd]
    constructor
    · intro hwithin j e hj hej _ hpos
      obtain rfl : i = j := Option.some.inj (hidx.symm.trans hj)
      obtain rfl : c.before.entries[i] = e := Option.some.inj (he.symm.trans hej)
      have hle := UInt64.le_iff_toNat_le.mp (hwithin rfl hpos)
      dsimp only at hbytes hle
      omega
    · intro hfits _ hpos
      have hle := hfits i _ hidx he hd hpos
      rw [UInt64.le_iff_toNat_le]
      dsimp only at hbytes ⊢
      omega
  · refine iff_of_true (fun _ => ?_) fun i e hi _ _ _ => ?_
    · rw [hs]
      exact enforceBudget_within (h.append hroom c.name hd c.freshnessMs c.now).2
    · rw [hidx] at hi
      cases hi

/-- A gc always ends within the budget. -/
theorem psirpCsGc_within {cs : PsirpCs} (h : Accounts cs) (now : UInt64) :
    WithinBudget (psirpCsGc cs now).2 :=
  enforceBudget_within (h.gcLoop now cs.entries.length).2

/-! ## Runs -/

/-- Right after every successful `psirp_cs_store` of the call, and after the call if it is a gc,
the budget is kept. -/
structure BudgetEnforced (malloc : Allocator UInt64 CString) (s : ChunkState) (op : ContentOp) :
    Prop where
  /-- after every store -/
  store : ∀ c ∈ storeCalls malloc s op, c.result.1 = true → WithinBudget c.result.2
  /-- after a gc -/
  gc : ∀ now, op = .plain (.gc now) → WithinBudget (contentStep malloc s op).2.cs

/-- **The budget is enforced after every write** of a run exactly when every replacement of the run
fits. -/
theorem budgetEnforced_iff (malloc : Allocator UInt64 CString) (heap : StringHeap)
    (ops : List ContentOp) :
    Along (contentStep malloc) (BudgetEnforced malloc) ⟨psirpCsInit, heap⟩ ops ↔
      Along (contentStep malloc) (fun s op => ∀ c ∈ storeCalls malloc s op, c.ReplacementFits)
        ⟨psirpCsInit, heap⟩ ops := by
  refine along_congr (I := fun s : ChunkState => Accounts s.cs)
    (fun s op h => (h.contentStep op).2) ?_ accounts_init
  intro s op h
  have hcalls : ∀ c ∈ storeCalls malloc s op,
      ((c.result.1 = true → WithinBudget c.result.2) ↔ c.ReplacementFits) := by
    intro c hc
    have hchain := storeCalls_chained malloc s (List.ne_nil_of_mem hc)
    exact CsStoreCall.within_iff (hchain.accounts h c hc)
  constructor
  · intro hb c hc
    exact (hcalls c hc).mp (hb.store c hc)
  · intro hfits
    refine ⟨fun c hc => (hcalls c hc).mpr (hfits c hc), ?_⟩
    rintro now rfl
    exact psirpCsGc_within h now

/-- With a budget of one byte, two bytes stored over one byte stay. -/
theorem not_budgetEnforced_a :
    let n := (psirpNameInit (text ['/', 'a'])).2
    ¬ Along (contentStep countUp) (BudgetEnforced countUp) ⟨psirpCsInit, []⟩
      [.plain (.setBudget 1), .plain (.store n [1] 0 0), .plain (.store n [1, 2] 0 1)] := by
  rintro n ⟨-, -, hb, -⟩
  have hwithin := hb.store _ List.mem_cons_self (by decide +kernel) (by decide +kernel)
  exact absurd hwithin (by decide +kernel)

end DsoBrowser

import DsoBrowser.Versions

/-!
# What a sequence of stores leaves

The entries that calls of `psirp_cs_store` leave, told from the calls. Of the accepted calls under
given components the first makes an entry. Of the others, one whose name has the hash of its
components goes into that entry, whatever version it names, and one with another hash makes an
entry of its own (`slots`). A call is accepted if it goes into an entry, or if fewer than 4096 have
been made (`acceptStep`). `leftBy_of_calls` says that the content store does just that.
-/

namespace DsoBrowser

open Machine Table

/-! ## Calls -/

/-- A call of `psirp_cs_store` under a name `psirp_name_init` built. -/
structure StoreCall where
  /-- the name -/
  name : PsirpName
  /-- how it was built -/
  parsed : Parsed name
  /-- the data -/
  data : List UInt8
  /-- its validity period -/
  freshnessMs : UInt32
  /-- the clock as the call reads it -/
  now : UInt64

/-- The call itself. -/
def storeStep (cs : PsirpCs) (c : StoreCall) : Bool × PsirpCs :=
  psirpCsStore cs c.name c.data c.freshnessMs c.now

/-- The content store after a sequence of calls. -/
def responderStore (calls : List StoreCall) : PsirpCs := exec storeStep psirpCsInit calls

/-- What the call stored is past its validity period. -/
def StoreCall.expired (c : StoreCall) (now : UInt64) : Bool :=
  if c.freshnessMs = 0 then false else c.freshnessMs.toUInt64 < (now - c.now) / 1000000

/-- The calls under these components. -/
def under (comps : List CString) (calls : List StoreCall) : List StoreCall :=
  calls.filter fun c => c.name.components = comps

/-! ## Entries -/

/-- An entry: the call that made it, and the call whose content it holds. -/
structure Slot where
  maker : StoreCall
  content : StoreCall

/-- The entries that accepted calls under the same components leave. -/
def slots : List StoreCall → List Slot
  | [] => []
  | c :: rest =>
    ⟨c, (rest.filter fun c => c.name.SelfHashed).getLast?.getD c⟩ ::
      (rest.filter fun c => ¬ c.name.SelfHashed).map fun c => ⟨c, c⟩

/-- The call goes into an entry that is there. -/
def GoesInto (calls : List StoreCall) (c : StoreCall) : Prop :=
  c.name.SelfHashed ∧ ∃ a ∈ calls, a.name.components = c.name.components

instance (calls : List StoreCall) (c : StoreCall) : Decidable (GoesInto calls c) :=
  inferInstanceAs (Decidable (_ ∧ _))

/-- One more call, with the calls accepted before and the number of entries they made. -/
def acceptStep (a : List StoreCall × Nat) (c : StoreCall) : Bool × (List StoreCall × Nat) :=
  if ¬ Storable c.data then (false, a)
  else if GoesInto a.1 c then (true, (a.1 ++ [c], a.2))
  else if a.2 < psirpCsMaxEntries then (true, (a.1 ++ [c], a.2 + 1))
  else (false, a)

/-- The calls that are accepted. -/
def acceptedCalls (calls : List StoreCall) : List StoreCall := (exec acceptStep ([], 0) calls).1

/-- The entries that calls leave under these components. -/
def slotsUnder (comps : List CString) (calls : List StoreCall) : List Slot :=
  slots (under comps (acceptedCalls calls))

/-- The last accepted call under a key. -/
def lastAccepted (k : List CString × UInt64) (calls : List StoreCall) : Option StoreCall :=
  (acceptedCalls calls).reverse.find? fun c => c.name.key = k

/-! ## One more call -/

theorem mem_under {comps : List CString} {calls : List StoreCall} {c : StoreCall} :
    c ∈ under comps calls ↔ c ∈ calls ∧ c.name.components = comps := by
  rw [under, List.mem_filter, decide_eq_true_eq]

theorem under_concat (comps : List CString) (calls : List StoreCall) (c : StoreCall) :
    under comps (calls ++ [c]) =
      under comps calls ++ if c.name.components = comps then [c] else [] := by
  rw [under, List.filter_append, List.filter_singleton]
  by_cases h : c.name.components = comps
  · rw [if_pos h, decide_eq_true h]
    rfl
  · rw [if_neg h, decide_eq_false h]
    rfl

/-- A call that goes into the first entry. -/
theorem slots_concat_of_selfHashed {c : StoreCall} (h : c.name.SelfHashed) (c₀ : StoreCall)
    (rest : List StoreCall) : ∃ last later, slots (c₀ :: rest) = ⟨c₀, last⟩ :: later ∧
      slots (c₀ :: rest ++ [c]) = ⟨c₀, c⟩ :: later := by
  refine ⟨_, _, rfl, ?_⟩
  rw [List.cons_append, slots, List.filter_append, List.filter_append, List.filter_singleton,
    List.filter_singleton, decide_eq_true h, decide_eq_false (not_not.mpr h), List.getLast?_append]
  simp

/-- A call that makes an entry of its own. -/
theorem slots_concat {c : StoreCall} {calls : List StoreCall}
    (h : c.name.SelfHashed → calls = []) : slots (calls ++ [c]) = slots calls ++ [⟨c, c⟩] := by
  cases calls with
  | nil => rfl
  | cons c₀ rest =>
    have hno : ¬ c.name.SelfHashed := fun hself => List.cons_ne_nil _ _ (h hself)
    rw [List.cons_append, slots, List.filter_append, List.filter_append, List.filter_singleton,
      List.filter_singleton, decide_eq_false hno, decide_eq_true hno, slots]
    simp

/-! ## The content store -/

/-- The entry in the table. -/
def Slot.entry (s : Slot) : PsirpCsEntry :=
  newEntry s.maker.name s.content.data s.content.freshnessMs s.content.now

theorem Slot.components_entry (s : Slot) : s.entry.components = s.maker.name.components :=
  congrArg Prod.fst
    (key_newEntry s.maker.parsed s.content.data s.content.freshnessMs s.content.now)

theorem Slot.version_entry (s : Slot) : s.entry.name.version = s.maker.name.version := rfl

/-- The entries with these components, in table order. -/
def entriesUnder (comps : List CString) (es : List PsirpCsEntry) : List PsirpCsEntry :=
  es.filter fun e => e.components = comps

/-- The store holds what accepted calls leave. -/
structure LeftBy (cs : PsirpCs) (a : List StoreCall × Nat) : Prop where
  /-- there is no budget -/
  maxBytes_eq : cs.maxBytes = 0
  /-- the room for entries -/
  capacity_eq : cs.capacity = psirpCsMaxEntries
  /-- so many entries were made -/
  length_eq : cs.entries.length = a.2
  /-- and these -/
  entries_eq : ∀ comps, entriesUnder comps cs.entries = (slots (under comps a.1)).map Slot.entry

section Leaving

variable {cs : PsirpCs} {a : List StoreCall × Nat} {c : StoreCall}

/-- An entry is one of the slots of its components. -/
theorem LeftBy.exists_slot (h : LeftBy cs a) {e : PsirpCsEntry} (he : e ∈ cs.entries) :
    ∃ s ∈ slots (under e.components a.1), s.entry = e := by
  have hmem : e ∈ entriesUnder e.components cs.entries :=
    List.mem_filter.mpr ⟨he, decide_eq_true rfl⟩
  rw [h.entries_eq] at hmem
  exact List.mem_map.mp hmem

/-- So its name has the hash of its components. -/
theorem LeftBy.selfHashed (h : LeftBy cs a) {e : PsirpCsEntry} (he : e ∈ cs.entries) :
    e.name.SelfHashed := by
  obtain ⟨s, -, rfl⟩ := h.exists_slot he
  exact s.maker.parsed.selfHashed_entryName

/-- There is an entry for a call exactly if it goes into one. -/
theorem LeftBy.goesInto_iff (h : LeftBy cs a) :
    GoesInto a.1 c ↔ ∃ e ∈ cs.entries, psirpNameEqual e.name c.name = true := by
  have hcalls : (∃ b ∈ a.1, b.name.components = c.name.components) ↔
      ∃ e ∈ cs.entries, e.components = c.name.components := by
    have hsome := congrArg List.length (h.entries_eq c.name.components)
    rw [List.length_map] at hsome
    constructor
    · rintro ⟨b, hb, hcomps⟩
      obtain ⟨b', rest, hunder⟩ :=
        List.exists_cons_of_ne_nil (List.ne_nil_of_mem (mem_under.mpr ⟨hb, hcomps⟩))
      rw [hunder] at hsome
      have hpos : 0 < (entriesUnder c.name.components cs.entries).length := by
        rw [hsome]
        exact Nat.succ_pos _
      obtain ⟨e, he⟩ := List.exists_mem_of_length_pos hpos
      obtain ⟨hmem, hcomps'⟩ := List.mem_filter.mp he
      exact ⟨e, hmem, of_decide_eq_true hcomps'⟩
    · rintro ⟨e, he, hcomps⟩
      obtain ⟨s, hs, -⟩ := h.exists_slot he
      rw [hcomps] at hs
      cases hunder : under c.name.components a.1 with
      | nil =>
        rw [hunder] at hs
        cases hs
      | cons b rest =>
        exact ⟨b, mem_under.mp (hunder ▸ List.mem_cons_self)⟩
  rw [GoesInto, hcalls]
  constructor
  · rintro ⟨hself, e, he, hcomps⟩
    exact ⟨e, he, (psirpNameEqual_of_selfHashed (h.selfHashed he)).mpr ⟨hself, hcomps⟩⟩
  · rintro ⟨e, he, heq⟩
    obtain ⟨hself, hcomps⟩ := (psirpNameEqual_of_selfHashed (h.selfHashed he)).mp heq
    exact ⟨hself, e, he, hcomps⟩

theorem entriesUnder_append (comps : List CString) (es es' : List PsirpCsEntry) :
    entriesUnder comps (es ++ es') = entriesUnder comps es ++ entriesUnder comps es' :=
  List.filter_append _ _

theorem entriesUnder_cons (comps : List CString) (e : PsirpCsEntry) (es : List PsirpCsEntry) :
    entriesUnder comps (e :: es) =
      if e.components = comps then e :: entriesUnder comps es else entriesUnder comps es := by
  rw [entriesUnder, List.filter_cons]
  simp only [decide_eq_true_eq]
  rfl

/-- **A call that makes an entry** puts it behind the others. -/
theorem LeftBy.make (h : LeftBy cs a) (hno : ¬ GoesInto a.1 c) {bytes : UInt64} :
    LeftBy { cs with
      entries := cs.entries ++ [newEntry c.name c.data c.freshnessMs c.now]
      bytesUsed := bytes } (a.1 ++ [c], a.2 + 1) := by
  refine ⟨h.maxBytes_eq, h.capacity_eq, ?_, fun comps => ?_⟩
  · change (_ ++ [_]).length = _
    rw [List.length_append, h.length_eq, List.length_singleton]
  · have hcomps : (newEntry c.name c.data c.freshnessMs c.now).components = c.name.components :=
      (⟨c, c⟩ : Slot).components_entry
    change entriesUnder comps (cs.entries ++ [_]) = _
    rw [entriesUnder_append, h.entries_eq, entriesUnder_cons, hcomps, under_concat]
    by_cases hsame : c.name.components = comps
    · rw [if_pos hsame, if_pos hsame, slots_concat, List.map_append]
      · rfl
      · intro hself
        by_contra hne
        obtain ⟨b, hb⟩ := List.exists_mem_of_ne_nil _ hne
        obtain ⟨hmem, hcomps'⟩ := mem_under.mp hb
        exact hno ⟨hself, b, hmem, hcomps'.trans hsame.symm⟩
    · rw [if_neg hsame, if_neg hsame, List.append_nil]
      exact List.append_nil _

/-- **A call that goes into an entry** goes into the first of its components. -/
theorem LeftBy.replace (h : LeftBy cs a) {l₁ l₂ : List PsirpCsEntry} {e : PsirpCsEntry}
    (hl : cs.entries = l₁ ++ e :: l₂) (h₁ : ∀ b ∈ l₁, psirpNameEqual b.name c.name = false)
    (he : psirpNameEqual e.name c.name = true) {bytes : UInt64} :
    LeftBy { cs with
      entries := l₁ ++ overwrite c.data c.freshnessMs c.now e :: l₂
      bytesUsed := bytes } (a.1 ++ [c], a.2) := by
  have hmem : e ∈ cs.entries := hl ▸ List.mem_append_right l₁ List.mem_cons_self
  obtain ⟨hself, hcomps⟩ := (psirpNameEqual_of_selfHashed (h.selfHashed hmem)).mp he
  change e.components = c.name.components at hcomps
  refine ⟨h.maxBytes_eq, h.capacity_eq, ?_, fun comps => ?_⟩
  · rw [← h.length_eq, hl, List.length_append, List.length_append]
    rfl
  · have hold := h.entries_eq comps
    have hcomps' : (overwrite c.data c.freshnessMs c.now e).components = c.name.components := hcomps
    change entriesUnder comps (l₁ ++ _ :: l₂) = _
    rw [hl, entriesUnder_append, entriesUnder_cons, hcomps] at hold
    rw [entriesUnder_append, entriesUnder_cons, hcomps', under_concat]
    by_cases hsame : c.name.components = comps
    · -- none of the entries before has the components
      have hfront : entriesUnder comps l₁ = [] := by
        refine List.filter_eq_nil_iff.mpr fun b hb hb' => ?_
        have hb'' := h.selfHashed (hl ▸ List.mem_append_left _ hb)
        have hno := h₁ b hb
        rw [(psirpNameEqual_of_selfHashed hb'').mpr
          ⟨hself, (of_decide_eq_true hb').trans hsame.symm⟩] at hno
        cases hno
      rw [if_pos hsame, hfront, List.nil_append] at hold
      rw [if_pos hsame, if_pos hsame, hfront, List.nil_append]
      cases hunder : under comps a.1 with
      | nil =>
        rw [hunder] at hold
        cases hold
      | cons c₀ rest =>
        obtain ⟨last, later, hbefore, hafter⟩ := slots_concat_of_selfHashed hself c₀ rest
        rw [hunder, hbefore, List.map_cons, List.cons_eq_cons] at hold
        rw [hafter, List.map_cons, ← hold.2, hold.1]
        rfl
    · rw [if_neg hsame] at hold
      rw [if_neg hsame, if_neg hsame, List.append_nil]
      exact hold

/-- **One call** is accepted as said, and leaves what is said. -/
theorem LeftBy.step (h : LeftBy cs a) (c : StoreCall) :
    (storeStep cs c).1 = (acceptStep a c).1 ∧ LeftBy (storeStep cs c).2 (acceptStep a c).2 := by
  rw [storeStep, acceptStep]
  by_cases hd : Storable c.data
  swap
  · rw [if_pos hd]
    rcases psirpCsStore_cases_of_unlimited h.maxBytes_eq c.name c.data c.freshnessMs c.now with
      ⟨hs, -⟩ | ⟨hd', -⟩ | ⟨hd', -⟩
    · rw [hs]
      exact ⟨rfl, h⟩
    · exact absurd hd' hd
    · exact absurd hd' hd
  rw [if_neg (not_not.mpr hd)]
  rcases actsOn_cut cs c.name with ⟨-, hfresh⟩ | ⟨l₁, e, l₂, -, hl, h₁, he⟩
  · have hno : ¬ GoesInto a.1 c := by
      rw [h.goesInto_iff]
      rintro ⟨e, he, heq⟩
      rw [hfresh e he] at heq
      cases heq
    rw [if_neg hno]
    by_cases hroom : a.2 < psirpCsMaxEntries
    · rw [if_pos hroom]
      obtain ⟨bytes, hs⟩ := psirpCsStore_fresh h.maxBytes_eq
        (by rw [h.length_eq, h.capacity_eq]; exact hroom) hfresh hd c.freshnessMs c.now
      rw [hs]
      exact ⟨rfl, h.make hno⟩
    · rw [if_neg hroom]
      rcases psirpCsStore_cases_of_unlimited h.maxBytes_eq c.name c.data c.freshnessMs c.now with
        ⟨hs, -⟩ | ⟨-, i, b, hi, -⟩ | ⟨-, hroom', -⟩
      · rw [hs]
        exact ⟨rfl, h⟩
      · rw [List.findIdx?_eq_none_iff.mpr hfresh] at hi
        cases hi
      · rw [h.length_eq, h.capacity_eq] at hroom'
        exact absurd hroom' hroom
  · have hmem : e ∈ cs.entries := hl ▸ List.mem_append_right l₁ List.mem_cons_self
    rw [if_pos (h.goesInto_iff.mpr ⟨e, hmem, he⟩)]
    obtain ⟨bytes, hs⟩ := psirpCsStore_cut hl h₁ he hd c.freshnessMs c.now
    rw [hs]
    exact ⟨rfl, h.replace hl h₁ he⟩

end Leaving

theorem leftBy_init : LeftBy psirpCsInit ([], 0) := ⟨rfl, rfl, rfl, fun _ => rfl⟩

/-- **The content store** accepts the calls that are said to be accepted, and holds what they are
said to leave. -/
theorem leftBy_of_calls (calls : List StoreCall) :
    outs storeStep psirpCsInit calls = outs acceptStep ([], 0) calls ∧
      LeftBy (responderStore calls) (exec acceptStep ([], 0) calls) :=
  outs_eq_of_simulates (P := fun _ _ => True) (fun _ _ c h _ => h.step c) leftBy_init
    (along_input.mpr fun _ _ => trivial)

/-- The accepted calls are those that return `true`. -/
theorem acceptedCalls_eq (calls : List StoreCall) : ∀ a : List StoreCall × Nat,
    (exec acceptStep a calls).1 =
      a.1 ++ ((calls.zip (outs acceptStep a calls)).filter Prod.snd).map Prod.fst := by
  induction calls with
  | nil => exact fun a => (List.append_nil _).symm
  | cons c calls ih =>
    intro a
    have hstep : (acceptStep a c).2.1 = a.1 ++ if (acceptStep a c).1 then [c] else [] := by
      rw [acceptStep]
      split
      · exact (List.append_nil _).symm
      split
      · rfl
      split
      · rfl
      · exact (List.append_nil _).symm
    rw [exec_cons, ih, hstep, outs, List.zip_cons_cons, List.filter_cons, List.append_assoc]
    cases (acceptStep a c).1 <;> rfl

end DsoBrowser

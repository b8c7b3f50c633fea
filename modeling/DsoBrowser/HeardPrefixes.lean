import DsoBrowser.BeaconText

/-!
# Names read from a beacon

What `mesh_process_beacon` makes of a prefix as `mesh_send_beacon` writes it.

* A prefix that fits the receiver's buffer is read as the name of its own path
  (`heardPrefix_writtenPrefix`).
* One that is cut at the end of the sender's buffer ends in a slash, and the hash of a path
  changes its parity with one more slash (`heardPrefix_cut`).
* The first prefix string may have the end of the sender's name in front; then its first
  component is another one (`head_heardPrefix`).
-/

namespace DsoBrowser

open Segments Table

/-! ## Local prefixes -/

/-- An unversioned name that `psirp_name_init` accepts from a canonical path with a component. -/
def Canonical (p : PsirpName) : Prop :=
  ∃ path : List CString, path ≠ [] ∧ (∀ c ∈ path, c ≠ [] ∧ slash ∉ c) ∧
    psirpNameInit (pathOf path) = (true, p) ∧ p.hasVersion = false

/-- One to sixteen local prefixes. -/
structure LocalPrefixes where
  /-- the first -/
  first : PsirpName
  /-- the others -/
  rest : List PsirpName
  /-- the table's size -/
  count_le : (first :: rest).length ≤ meshMaxPrefixes
  /-- each is canonical -/
  canonical : ∀ p ∈ first :: rest, Canonical p

/-- The prefixes, in order. -/
def LocalPrefixes.all (ps : LocalPrefixes) : List PsirpName := ps.first :: ps.rest

section Canonical

variable {p : PsirpName}

theorem Canonical.pathComponent (h : Canonical p) : ∀ c ∈ p.components, PathComponent c := by
  obtain ⟨path, -, -, hpath, hver⟩ := h
  have hw : p.WellFormed := Parsed.wellFormed ⟨_, hpath⟩
  exact fun c hc => ⟨hw.plain c hc, hw.ne_nil hver c hc⟩

/-- The components of the path, as many as a name has room for. -/
theorem Canonical.components_eq (h : Canonical p) : ∃ path : List CString, path ≠ [] ∧
    p.hash = pathHash path ∧ p.components = path.take psirpMaxComponents := by
  obtain ⟨path, hne, hsegs, hpath, hver⟩ := h
  have hcomps := (@psirpNameInit_unversioned (pathOf path) (Or.inr (by rwa [hpath]))).2
    (by rw [hpath])
  rw [hpath] at hcomps
  refine ⟨path, hne, ?_, ?_⟩
  · rw [hash_of_psirpNameInit hpath, hashText_pathOf hne]
    rfl
  · rw [hcomps, pathOf, segments_flatMap_cons hsegs]

theorem Canonical.components_ne (h : Canonical p) : p.components ≠ [] := by
  obtain ⟨path, hne, -, hcomps⟩ := h.components_eq
  obtain ⟨c, cs, rfl⟩ := List.exists_cons_of_ne_nil hne
  rw [hcomps]
  exact List.cons_ne_nil _ _

/-- A path that fits the name is what the name is hashed over. -/
theorem Canonical.selfHashed (h : Canonical p) (hlt : p.components.length < psirpMaxComponents) :
    p.SelfHashed := by
  obtain ⟨path, -, hhash, hcomps⟩ := h.components_eq
  have hfit : path.length ≤ psirpMaxComponents := by
    rw [hcomps, List.length_take] at hlt
    omega
  rw [List.take_of_length_le hfit] at hcomps
  rw [PsirpName.SelfHashed, hhash, hcomps]

/-- A canonical name is written without semicolons exactly when its components have none. -/
theorem Canonical.mem_writtenPrefix (h : Canonical p) {x : CChar} (hx : x ∈ writtenPrefix p) :
    x = slash ∨ ∃ c ∈ p.components, x ∈ c := by
  have hmem : x ∈ pathOf p.components := by
    rw [← cons_writtenPrefix h.components_ne]
    exact List.mem_cons_of_mem _ hx
  obtain ⟨c, hc, hxc⟩ := List.mem_flatMap.mp hmem
  rcases List.mem_cons.mp hxc with rfl | hxc
  · exact Or.inl rfl
  · exact Or.inr ⟨c, hc, hxc⟩

theorem Canonical.writtenPrefix_ne_nil (h : Canonical p) : writtenPrefix p ≠ [] := by
  obtain ⟨c, cs, hcs⟩ := List.exists_cons_of_ne_nil h.components_ne
  have hc : c ≠ [] := (h.pathComponent c (by rw [hcs]; exact List.mem_cons_self)).ne_nil
  rw [writtenPrefix_of_cons hcs]
  exact List.append_ne_nil_of_left_ne_nil hc _

/-- A beacon calls its sender by the first component of the first prefix. -/
theorem LocalPrefixes.first_eq (ps : LocalPrefixes) :
    ∃ cs, ps.first.components = beaconName ps.all :: cs := by
  obtain ⟨c, cs, hcs⟩ :=
    List.exists_cons_of_ne_nil (ps.canonical _ List.mem_cons_self).components_ne
  refine ⟨cs, ?_⟩
  rw [LocalPrefixes.all, beaconName_of_cons hcs, hcs]

end Canonical

/-! ## Names read from a beacon -/

/-- The constructor starts after the slash a path starts with. -/
theorem psirpNameInit_slash {s : CString} (hs : s.head? ≠ some slash) :
    psirpNameInit (slash :: s) = psirpNameInit s := by
  apply psirpNameInit_congr
  rw [skipSlash, if_pos (by rfl), skipSlash, if_neg hs, List.tail_cons]

theorem head?_writtenPrefix {p : PsirpName} (h : Canonical p) :
    (writtenPrefix p).head? ≠ some slash := by
  obtain ⟨c, cs, hcs⟩ := List.exists_cons_of_ne_nil h.components_ne
  have hc : PathComponent c := h.pathComponent c (by rw [hcs]; exact List.mem_cons_self)
  obtain ⟨x, xs, rfl⟩ := List.exists_cons_of_ne_nil hc.ne_nil
  rw [writtenPrefix_of_cons hcs, List.cons_append, List.head?_cons]
  rintro he
  exact hc.noSlash (Option.some.inj he ▸ List.mem_cons_self)

/-- **A prefix that fits the buffer** is read as the name of its own path. -/
theorem heardPrefix_writtenPrefix {p : PsirpName} (h : Canonical p)
    (hlen : (writtenPrefix p).length < peerNameBufSize) :
    (heardPrefix (writtenPrefix p)).components = p.components ∧
      (heardPrefix (writtenPrefix p)).SelfHashed := by
  rw [heardPrefix, List.take_of_length_le (Nat.le_sub_one_of_lt hlen),
    ← psirpNameInit_slash (head?_writtenPrefix h), cons_writtenPrefix h.components_ne,
    psirpNameInit_pathOf h.pathComponent h.components_ne p.count_le]
  exact ⟨rfl, rfl⟩

/-- One more slash changes the hash. -/
theorem fnv1aHash_concat_slash_ne (bs : List UInt8) : fnv1aHash (bs ++ [47]) ≠ fnv1aHash bs := by
  rw [fnv1aHash, fnv1aHash, List.foldl_append]
  generalize bs.foldl (fun hash b => (hash ^^^ b.toUInt64) * 1099511628211) 14695981039346656037 = h
  intro he
  have hodd : ((h ^^^ 47) * 1099511628211 : UInt64).toNat % 2 = (h.toNat ^^^ 47) % 2 := by
    rw [UInt64.toNat_mul, UInt64.toNat_xor]
    have h47 : (47 : UInt64).toNat = 47 := rfl
    have hprime : (1099511628211 : UInt64).toNat = 1099511628211 := rfl
    rw [h47, hprime]
    omega
  have hflip : (h.toNat ^^^ 47) % 2 = 1 ↔ ¬ (h.toNat % 2 = 1 ↔ 47 % 2 = 1) :=
    Nat.xor_mod_two_eq_one
  have hsame : ((h ^^^ 47) * 1099511628211 : UInt64).toNat = h.toNat := congrArg UInt64.toNat he
  rw [hsame] at hodd
  omega

/-- A prefix that was cut is read as a name that is not hashed over its own path. -/
theorem heardPrefix_cut {c : CString} {cs : List CString} (h : ∀ d ∈ c :: cs, PathComponent d)
    (hle : (c :: cs).length ≤ psirpMaxComponents)
    (hlen : (c ++ pathOf cs ++ [slash]).length < peerNameBufSize) :
    (heardPrefix (c ++ pathOf cs ++ [slash])).components = c :: cs ∧
      ¬ (heardPrefix (c ++ pathOf cs ++ [slash])).SelfHashed := by
  have hc := h c List.mem_cons_self
  obtain ⟨x, xs, rfl⟩ := List.exists_cons_of_ne_nil hc.ne_nil
  have hx : slash ≠ x := fun he => hc.noSlash (he ▸ List.mem_cons_self)
  have htext : slash :: (x :: xs ++ pathOf cs ++ [slash]) = pathOf ((x :: xs) :: cs) ++ [slash] := by
    simp
  have hsegs : (segments slash (pathOf ((x :: xs) :: cs) ++ [slash])).take psirpMaxComponents =
      (x :: xs) :: cs := by
    rw [segments_append_cons, segments_nil, List.append_nil, segments_pathOf h,
      List.take_of_length_le hle]
  have hat : atSign ∉ pathOf ((x :: xs) :: cs) ++ [slash] := by
    rw [List.mem_append, List.mem_singleton, not_or]
    exact ⟨atSign_notMem_pathOf fun d hd => (h d hd).noAt, atSign_ne_slash⟩
  rw [heardPrefix, List.take_of_length_le (Nat.le_sub_one_of_lt hlen),
    ← psirpNameInit_slash (by simpa using hx.symm), htext, psirpNameInit_of_noAt hat
      (by rw [hsegs]; exact fun d hd => (h d hd).length_lt)]
  refine ⟨hsegs, fun hself => ?_⟩
  have hhash : fnv1aHash ((pathOf ((x :: xs) :: cs)).bytes ++ [47]) =
      pathHash ((segments slash (pathOf ((x :: xs) :: cs) ++ [slash])).take psirpMaxComponents) := by
    rw [← hself]
    simp [hashText, skipSlash, CString.bytes, slash]
    rfl
  rw [hsegs] at hhash
  exact fnv1aHash_concat_slash_ne _ hhash

/-- The beginning of a path is a path, or one with a slash after it and a component less. -/
theorem initial_pathOf {cs : List CString} (h : ∀ c ∈ cs, c ≠ [] ∧ slash ∉ c) :
    ∀ {u : CString}, u <+: pathOf cs → ∃ ds : List CString, (∀ d ∈ ds, d ≠ [] ∧ slash ∉ d) ∧
      (u = pathOf ds ∧ ds.length ≤ cs.length ∨
        u = pathOf ds ++ [slash] ∧ ds.length < cs.length) := by
  induction cs with
  | nil =>
    intro u hu
    exact ⟨[], by simp, Or.inl ⟨List.prefix_nil.mp hu, le_rfl⟩⟩
  | cons c cs ih =>
    intro u hu
    cases u with
    | nil => exact ⟨[], by simp, Or.inl ⟨rfl, Nat.zero_le _⟩⟩
    | cons x u =>
      rw [pathOf_cons, List.cons_append, List.cons_prefix_cons] at hu
      obtain ⟨rfl, hu⟩ := hu
      obtain ⟨hc, hcs⟩ := List.forall_mem_cons.mp h
      rcases List.prefix_or_prefix_of_prefix hu (List.prefix_append c (pathOf cs)) with
        hu | ⟨v, rfl⟩
      · -- the beginning ends in the first component
        cases u with
        | nil => exact ⟨[], by simp, Or.inr ⟨rfl, Nat.succ_pos _⟩⟩
        | cons y u =>
          refine ⟨[y :: u], ?_, Or.inl ⟨by simp, by simp⟩⟩
          intro d hd
          rw [List.mem_singleton.mp hd]
          exact ⟨List.cons_ne_nil _ _, fun hs => hc.2 (hu.subset hs)⟩
      · obtain ⟨ds, hds, hpath⟩ := ih hcs ((List.prefix_append_right_inj c).mp hu)
        refine ⟨c :: ds, List.forall_mem_cons.mpr ⟨hc, hds⟩, ?_⟩
        rcases hpath with ⟨rfl, hlen⟩ | ⟨rfl, hlen⟩
        · exact Or.inl ⟨rfl, Nat.succ_le_succ hlen⟩
        · exact Or.inr ⟨by simp, Nat.succ_lt_succ hlen⟩

section Spoilt

variable {d : CString} {cs : List CString}

theorem atSign_notMem_spoilt (hat : atSign ∉ d) (hcs : ∀ c ∈ cs, PathComponent c) (n : Nat) :
    atSign ∉ (d ++ pathOf cs).take n := by
  intro hm
  rcases List.mem_append.mp (List.mem_of_mem_take hm) with h | h
  · exact hat h
  · exact atSign_notMem_pathOf (fun c hc => (hcs c hc).noAt) h

/-- A spoilt string is read as a name of its own path if the name is full. -/
theorem selfHashed_heardPrefix (hd : d ≠ [] ∧ slash ∉ d) (hat : atSign ∉ d)
    (hcs : ∀ c ∈ cs, PathComponent c) (hle : (d :: cs).length ≤ psirpMaxComponents)
    (hfull : (heardPrefix (d ++ pathOf cs)).components.length = psirpMaxComponents) :
    (heardPrefix (d ++ pathOf cs)).SelfHashed := by
  have hpre : slash :: (d ++ pathOf cs).take (peerNameBufSize - 1) <+: pathOf (d :: cs) := by
    rw [pathOf_cons, List.cons_append, List.cons_prefix_cons]
    exact ⟨rfl, List.take_prefix _ _⟩
  obtain ⟨x, xs, rfl⟩ := List.exists_cons_of_ne_nil hd.1
  have hhead : ((x :: xs ++ pathOf cs).take (peerNameBufSize - 1)).head? ≠ some slash := by
    rw [peerNameBufSize, List.cons_append, List.take_succ_cons, List.head?_cons]
    exact fun he => hd.2 (Option.some.inj he ▸ List.mem_cons_self)
  have hatt : atSign ∉ (x :: xs ++ pathOf cs).take (peerNameBufSize - 1) :=
    atSign_notMem_spoilt hat hcs _
  rw [heardPrefix] at hfull ⊢
  generalize (x :: xs ++ pathOf cs).take (peerNameBufSize - 1) = t at *
  obtain ⟨ds, hds, hpath⟩ := initial_pathOf (fun c hc => by
    rcases List.mem_cons.mp hc with rfl | hc
    · exact hd
    · exact ⟨(hcs c hc).ne_nil, (hcs c hc).noSlash⟩) hpre
  have hsegs : segments slash t = ds := by
    rw [← segments_cons]
    rcases hpath with ⟨hpath, -⟩ | ⟨hpath, -⟩
    · rw [hpath, pathOf, segments_flatMap_cons hds]
    · rw [hpath, segments_append_cons, segments_nil, List.append_nil, pathOf,
        segments_flatMap_cons hds]
  have hcomps : (psirpNameInit t).2.components <+: ds := by
    rw [← hsegs]
    exact (psirpNameInit_unversioned (Or.inl hatt)).1
  have hlen := hcomps.length_le
  rw [hfull] at hlen
  obtain ⟨hpath, hds'⟩ | ⟨-, hshort⟩ := hpath
  · have heq : (psirpNameInit t).2.components = ds :=
      hcomps.eq_of_length_le ((hds'.trans hle).trans hfull.ge)
    have hplain : ∀ s ∈ (segments slash t).take psirpMaxComponents,
        s.length < psirpMaxComponent := by
      intro s hs
      have hs' := List.mem_of_mem_take hs
      rw [hsegs, ← heq] at hs'
      exact ((psirpNameInit_wellFormed t).plain s hs').length_lt
    rw [PsirpName.SelfHashed, heq, pathHash, ← hpath, psirpNameInit_of_noAt hatt hplain, hashText,
      skipSlash, if_neg hhead]
  · omega

/-- Its first component is the beginning of what comes before the first slash. -/
theorem head_heardPrefix (hd : d ≠ [] ∧ slash ∉ d) (hat : atSign ∉ d)
    (hcs : ∀ c ∈ cs, PathComponent c) {c : CString} {rest : List CString}
    (h : (heardPrefix (d ++ pathOf cs)).components = c :: rest) :
    c = d.take (peerNameBufSize - 1) := by
  have hcomps : c :: rest <+: segments slash ((d ++ pathOf cs).take (peerNameBufSize - 1)) := by
    rw [← h]
    exact (psirpNameInit_unversioned (Or.inl (atSign_notMem_spoilt hat hcs _))).1
  have hne : d.take (peerNameBufSize - 1) ≠ [] := by
    rw [Ne, List.take_eq_nil_iff, not_or]
    exact ⟨by decide, hd.1⟩
  have hslash : slash ∉ d.take (peerNameBufSize - 1) := fun hm => hd.2 (List.mem_of_mem_take hm)
  rw [List.take_append] at hcomps
  generalize d.take (peerNameBufSize - 1) = e at *
  rcases hrest : (pathOf cs).take (peerNameBufSize - 1 - d.length) with _ | ⟨y, ys⟩
  · rw [hrest, List.append_nil, segments_of_notMem hslash hne] at hcomps
    exact (List.cons_prefix_cons.mp hcomps).1
  · obtain rfl : y = slash := by
      have hpre : y :: ys <+: pathOf cs := hrest ▸ List.take_prefix _ _
      cases cs with
      | nil => exact absurd (List.prefix_nil.mp hpre) (List.cons_ne_nil _ _)
      | cons c' cs' => exact (List.cons_prefix_cons.mp hpre).1
    rw [hrest, segments_append_cons, segments_of_notMem hslash hne, List.singleton_append] at hcomps
    exact (List.cons_prefix_cons.mp hcomps).1

end Spoilt

end DsoBrowser

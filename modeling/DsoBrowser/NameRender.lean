import DsoBrowser.NameParse

/-!
# Names as text

What `psirp_name_to_string` writes for the names the parser builds, and what the parser makes of
it:

* a name that fits is rendered as its canonical path and its version (`psirpNameToString_eq`);
* an unversioned name is rendered component by component as far as the buffer goes; in the
  buffers of `PSIRP_MAX_NAME` bytes only a sixteenth component can be too much, and its slash is
  written all the same (`psirpNameToString_rendered`).
-/

namespace DsoBrowser

open Segments

/-- The text of a name's version. -/
def versionText (n : PsirpName) : CString :=
  if n.hasVersion then atSign :: decimal n.version.toNat else []

theorem length_decimal_version_le (v : UInt64) : (decimal v.toNat).length ≤ 20 :=
  length_decimal_le (by decide) (v.toNat_lt.trans (by decide))

/-- The loop, when what is left fits. -/
theorem nameToStringLoop_of_fits (name : PsirpName) (bufLen : Nat) :
    ∀ (cs : List CString) (out : CString), cs ≠ [] → out.length + (pathOf cs).length + 2 < bufLen →
      nameToStringLoop name bufLen cs out = out ++ pathOf cs ++ versionText name := by
  intro cs
  induction cs with
  | nil =>
    intro out hne
    exact absurd rfl hne
  | cons c cs ih =>
    intro out _ hfit
    simp only [pathOf_cons, List.length_append, List.length_cons] at hfit
    rw [nameToStringLoop, if_pos (by omega), if_neg (by simp; omega)]
    simp only
    split
    · -- the last component of a versioned name
      rename_i hlast
      obtain ⟨hv, rfl, -⟩ := hlast
      rw [nameToStringLoop, versionText, if_pos hv]
      simp
    · rename_i hlast
      cases cs with
      | nil =>
        have hv : name.hasVersion = false := by
          by_contra hv
          exact hlast ⟨by simpa using hv, rfl, by simp at hfit ⊢; omega⟩
        rw [nameToStringLoop, versionText, hv]
        simp
      | cons c' cs =>
        rw [ih _ (List.cons_ne_nil _ _) (by simp at hfit ⊢; omega)]
        simp

/-- **Rendering.** A name that fits is written as its canonical path and its version. -/
theorem psirpNameToString_eq {name : PsirpName} {bufLen : Nat} (hne : name.components ≠ [])
    (hfit : (pathOf name.components).length + 2 < bufLen) :
    psirpNameToString name bufLen = pathOf name.components ++ versionText name := by
  rw [psirpNameToString, if_neg (by omega), nameToStringLoop_of_fits name bufLen _ _ hne (by simpa)]
  rfl

/-- The loop on an unversioned name, when what is left fits. -/
theorem nameToStringLoop_unversioned {name : PsirpName} (hv : name.hasVersion = false)
    (bufLen : Nat) :
    ∀ (cs more : List CString) (out : CString), out.length + (pathOf cs).length + 1 < bufLen →
      nameToStringLoop name bufLen (cs ++ more) out =
        nameToStringLoop name bufLen more (out ++ pathOf cs) := by
  intro cs
  induction cs with
  | nil =>
    intro more out _
    simp
  | cons c cs ih =>
    intro more out hfit
    simp only [pathOf_cons, List.length_append, List.length_cons] at hfit
    rw [List.cons_append, nameToStringLoop, if_pos (by omega), if_neg (by simp; omega)]
    simp only [hv, Bool.false_eq_true, false_and, if_false]
    rw [ih more _ (by simp; omega)]
    simp

/-- The components of a name that are rendered in full into a buffer of `PSIRP_MAX_NAME` bytes. -/
def renderedComponents (name : PsirpName) : List CString :=
  if (pathOf name.components).length + 1 < psirpMaxName then name.components
  else name.components.dropLast

theorem length_pathOf_le {cs : List CString} {k : Nat} (h : ∀ c ∈ cs, c.length < k) :
    (pathOf cs).length ≤ k * cs.length := by
  induction cs with
  | nil => exact Nat.zero_le _
  | cons c cs ih =>
    have hc := h c List.mem_cons_self
    have hcs := ih fun d hd => h d (List.mem_cons_of_mem _ hd)
    rw [pathOf_cons, List.length_append, List.length_cons, List.length_cons, Nat.mul_succ]
    omega

/-- An unversioned name that leaves a character of the buffer free is rendered as its path. -/
theorem psirpNameToString_path {name : PsirpName} (hv : name.hasVersion = false)
    (hfit : (pathOf name.components).length + 1 < psirpMaxName) :
    psirpNameToString name psirpMaxName = pathOf name.components := by
  have hloop := nameToStringLoop_unversioned hv psirpMaxName name.components [] [] (by simpa)
  rw [List.append_nil] at hloop
  rw [psirpNameToString, if_neg (by decide), hloop]
  rfl

/-- Otherwise only the slash of its last component is, which is the sixteenth. -/
theorem psirpNameToString_cut {name : PsirpName} (hv : name.hasVersion = false)
    (hplain : ∀ c ∈ name.components, PlainComponent c)
    (hlong : ¬ (pathOf name.components).length + 1 < psirpMaxName) :
    ∃ init last, name.components = init ++ [last] ∧ init.length + 1 = psirpMaxComponents ∧
      psirpNameToString name psirpMaxName = pathOf init ++ [slash] := by
  have hne : name.components ≠ [] := by
    intro he
    rw [he] at hlong
    exact hlong (by decide)
  obtain ⟨init, last, hsplit⟩ : ∃ init last, name.components = init ++ [last] :=
    ⟨_, _, (List.dropLast_append_getLast hne).symm⟩
  have hlen : init.length + 1 ≤ psirpMaxComponents := by
    have := name.count_le
    rwa [hsplit, List.length_append] at this
  have hinit : (pathOf init).length ≤ psirpMaxComponent * init.length :=
    length_pathOf_le fun c hc => (hplain c (by rw [hsplit]; simp [hc])).length_lt
  have hlast := (hplain last (by rw [hsplit]; simp)).length_lt
  rw [hsplit, pathOf_append, List.length_append, pathOf_cons, List.length_append,
    List.length_cons, pathOf_nil, List.length_nil] at hlong
  -- the components before the last one fit, and the loop stops inside the last
  simp only [psirpMaxName, psirpMaxComponents, psirpMaxComponent] at hlen hinit hlast hlong
  have hbound : (pathOf init).length + 1 < psirpMaxName := by
    simp only [psirpMaxName, psirpMaxComponents, psirpMaxComponent]
    omega
  refine ⟨init, last, hsplit, by simp only [psirpMaxComponents]; omega, ?_⟩
  rw [psirpNameToString, if_neg (by decide), hsplit,
    nameToStringLoop_unversioned hv psirpMaxName init [last] [] (by simpa), nameToStringLoop,
    if_pos (by simp; omega), if_pos]
  · rfl
  · simp only [List.nil_append, List.length_append, List.length_cons, List.length_nil,
      psirpMaxName, psirpMaxComponents, psirpMaxComponent]
    omega

/-- An unversioned name is rendered as the path of its rendered components, with the slash of
the last component left over if that one was too long. -/
theorem psirpNameToString_rendered {name : PsirpName} (hv : name.hasVersion = false)
    (hplain : ∀ c ∈ name.components, PlainComponent c) :
    psirpNameToString name psirpMaxName = pathOf (renderedComponents name) ∨
      (psirpNameToString name psirpMaxName = pathOf (renderedComponents name) ++ [slash] ∧
        (renderedComponents name).length < psirpMaxComponents) := by
  by_cases hfit : (pathOf name.components).length + 1 < psirpMaxName
  · rw [renderedComponents, if_pos hfit]
    exact Or.inl (psirpNameToString_path hv hfit)
  · obtain ⟨init, last, hsplit, hlen, hcut⟩ := psirpNameToString_cut hv hplain hfit
    rw [renderedComponents, if_neg hfit, hsplit, List.dropLast_concat]
    exact Or.inr ⟨hcut, Nat.lt_of_succ_le hlen.le⟩

theorem rendered_initial (name : PsirpName) :
    renderedComponents name <+: name.components := by
  rw [renderedComponents]
  split
  · exact List.prefix_rfl
  · exact List.dropLast_prefix _

theorem length_rendered {name : PsirpName} (hplain : ∀ c ∈ name.components, PlainComponent c)
    (h : (renderedComponents name).length < psirpMaxComponents) :
    (pathOf (renderedComponents name)).length ≤ 960 := by
  have hlen := length_pathOf_le fun c hc =>
    (hplain c ((rendered_initial name).subset hc)).length_lt
  apply hlen.trans
  simp only [psirpMaxComponents, psirpMaxComponent] at h ⊢
  omega

/-- The rendered components fit the buffer. -/
theorem length_rendered_lt {name : PsirpName} (hplain : ∀ c ∈ name.components, PlainComponent c) :
    (pathOf (renderedComponents name)).length + 1 < psirpMaxName := by
  by_cases hfit : (pathOf name.components).length + 1 < psirpMaxName
  · rwa [renderedComponents, if_pos hfit]
  · have hne : name.components ≠ [] := by
      intro he
      rw [he] at hfit
      exact hfit (by decide)
    have hlen : (renderedComponents name).length < psirpMaxComponents := by
      rw [renderedComponents, if_neg hfit, List.length_dropLast]
      have hpos := List.length_pos_of_ne_nil hne
      have hle := name.count_le
      omega
    exact lt_of_le_of_lt (Nat.succ_le_succ (length_rendered hplain hlen)) (by decide)

/-- At most fifteen components are always rendered. -/
theorem renderedComponents_eq {name : PsirpName} (hplain : ∀ c ∈ name.components, PlainComponent c)
    (h : name.components.length < psirpMaxComponents) :
    renderedComponents name = name.components := by
  have hlen := length_pathOf_le fun c hc => (hplain c hc).length_lt
  rw [renderedComponents, if_pos]
  apply lt_of_le_of_lt (Nat.succ_le_succ hlen)
  rw [psirpMaxName]
  simp only [psirpMaxComponents, psirpMaxComponent] at h ⊢
  omega

end DsoBrowser

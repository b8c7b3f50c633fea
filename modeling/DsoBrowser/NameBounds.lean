import DsoBrowser.NameRender
import DsoBrowser.TextBuffer

/-!
# Name rendering and its buffer

`psirp_name_to_string` once more, with every write of the caller's buffer through an accessor that
notices when it is outside (`psirpNameToStringChecked`). The call does nothing but append, so it
stays inside exactly if the text of `psirpNameToString` fits with its terminator
(`psirpNameToStringChecked_eq`).

A component is copied only if it leaves room for the terminator. The version is written as soon as
there is room for two characters, and it has up to twenty-one. So the call is safe unless there is
room for the path and two characters, and none for the version (`rendersInside_iff`).
-/

namespace DsoBrowser

open Bounded

/-- What `psirp_name_to_string` writes. -/
inductive RenderBuffer
  /-- `buf` -/
  | buf
  deriving DecidableEq, Repr

/-- A step of the rendering. -/
abbrev RenderStep (α : Type) : Type := Except (Stop RenderBuffer) α

/-- The size of `vbuf`. -/
def vbufSize : Nat := 24

/-- The loop of `psirp_name_to_string`, checked. -/
def nameToStringLoopChecked (name : PsirpName) (bufLen : Nat) :
    List CString → TextFront bufLen → RenderStep (TextFront bufLen)
  | [], out => .ok out
  | c :: cs, out =>
    if out.val.length < bufLen - 1 then do
      let out ← putText .buf out [slash]
      if bufLen - 1 ≤ out.val.length + c.length then return out
      else
        let out ← putText .buf out c
        if name.hasVersion ∧ cs = [] ∧ out.val.length + 1 < bufLen - 1 then
          -- `snprintf` writes only inside `vbuf`, and returns the length there would have been
          let vbuf := atSign :: decimal name.version.toNat
          if vbuf.length < vbufSize then
            let out ← putText .buf out vbuf
            nameToStringLoopChecked name bufLen cs out
          else nameToStringLoopChecked name bufLen cs out
        else nameToStringLoopChecked name bufLen cs out
    else .ok out

/-- `psirp_name_to_string`, checked: the length it returns and what it has written. -/
def psirpNameToStringChecked (name : PsirpName) (bufLen : Nat) : RenderStep (Nat × List UInt8) :=
  if bufLen = 0 then .ok (0, [])
  else do
    let out ← nameToStringLoopChecked name bufLen name.components TextFront.empty
    let buf ← append .buf bufLen out [0]
    return (out.val.length, buf.val)

/-! ## What the call does -/

/-- What a component adds comes behind what was there. -/
theorem nameToStringLoop_initial (name : PsirpName) (bufLen : Nat) (cs : List CString) :
    ∀ (out : CString), out <+: nameToStringLoop name bufLen cs out := by
  induction cs with
  | nil => exact fun _ => List.prefix_rfl
  | cons c cs ih =>
    intro out
    have hcomp : out <+: out ++ [slash] ++ c := by
      rw [List.append_assoc]
      exact List.prefix_append _ _
    rw [nameToStringLoop]
    split
    · simp only
      split
      · exact List.prefix_append _ _
      · split
        · exact (hcomp.trans (List.prefix_append _ _)).trans (ih _)
        · exact hcomp.trans (ih _)
    · exact List.prefix_rfl

/-- So does what follows a component. -/
theorem afterComponent_initial (name : PsirpName) (bufLen : Nat) (cs : List CString)
    (out : CString) :
    out <+: if name.hasVersion ∧ cs = [] ∧ out.length + 1 < bufLen - 1 then
        nameToStringLoop name bufLen cs (out ++ atSign :: decimal name.version.toNat)
      else nameToStringLoop name bufLen cs out := by
  split
  · exact (List.prefix_append _ _).trans (nameToStringLoop_initial _ _ _ _)
  · exact nameToStringLoop_initial _ _ _ _

/-- The version always fits `vbuf`. -/
theorem length_version_lt (v : UInt64) : (atSign :: decimal v.toNat).length < vbufSize := by
  rw [List.length_cons]
  exact lt_of_le_of_lt (Nat.succ_le_succ (length_decimal_version_le v)) (by decide)

/-- The checked loop writes what the other says, if that fits. -/
theorem nameToStringLoopChecked_eq (name : PsirpName) (bufLen : Nat) (cs : List CString) :
    ∀ (t : CString) (out : TextFront bufLen), out.val = t.bytes →
      nameToStringLoopChecked name bufLen cs out =
        filled .buf bufLen (nameToStringLoop name bufLen cs t).bytes := by
  induction cs with
  | nil => exact fun t out hout => ok_eq_filled hout
  | cons c cs ih =>
    intro t out hout
    rw [nameToStringLoopChecked, nameToStringLoop, hout, CString.length_bytes]
    by_cases hroom : t.length < bufLen - 1
    · rw [if_pos hroom, if_pos hroom]
      simp only
      by_cases hfull : bufLen - 1 ≤ (t ++ [slash]).length + c.length
      · rw [if_pos hfull]
        refine putText_bind hout List.prefix_rfl fun xs hxs => ?_
        rw [hxs, CString.length_bytes, if_pos hfull]
        exact ok_eq_filled hxs
      · rw [if_neg hfull]
        have hrest := afterComponent_initial name bufLen cs (t ++ [slash] ++ c)
        refine putText_bind hout ((List.prefix_append _ _).trans hrest) fun xs hxs => ?_
        rw [hxs, CString.length_bytes, if_neg hfull]
        refine putText_bind hxs hrest fun ys hys => ?_
        rw [hys, CString.length_bytes]
        split
        · rw [if_pos (length_version_lt _)]
          exact putText_bind hys (nameToStringLoop_initial _ _ _ _) fun zs hzs => ih _ zs hzs
        · exact ih _ ys hys
    · rw [if_neg hroom, if_neg hroom]
      exact ok_eq_filled hout

/-- **The checked function** writes what the other says and the terminator, if that fits. -/
theorem psirpNameToStringChecked_eq (name : PsirpName) {bufLen : Nat} (hpos : 0 < bufLen) :
    psirpNameToStringChecked name bufLen =
      if (psirpNameToString name bufLen).length < bufLen then
        .ok ((psirpNameToString name bufLen).length, (psirpNameToString name bufLen).bytes ++ [0])
      else .error (.outside .buf) := by
  rw [psirpNameToStringChecked, if_neg hpos.ne', psirpNameToString, if_neg hpos.ne',
    nameToStringLoopChecked_eq name bufLen name.components [] TextFront.empty rfl,
    filled_bind_terminator]
  split
  · simp only [pure, Except.pure, CString.length_bytes]
  · rfl

/-! ## When the text fits -/

/-- Where there is no room for a version, everything fits: a component leaves room for the
terminator. -/
theorem length_nameToStringLoop_lt (name : PsirpName) {bufLen : Nat} (cs : List CString) :
    ∀ (out : CString), out.length < bufLen → bufLen ≤ out.length + (pathOf cs).length + 2 →
      (nameToStringLoop name bufLen cs out).length < bufLen := by
  induction cs with
  | nil => exact fun _ h _ => h
  | cons c cs ih =>
    intro out hout hfull
    rw [pathOf_cons, List.length_append, List.length_cons] at hfull
    rw [nameToStringLoop]
    split
    · simp only
      split
      · rw [List.length_append, List.length_singleton]
        omega
      · rename_i hfits
        rw [List.length_append, List.length_singleton] at hfits
        rw [if_neg]
        · refine ih _ ?_ ?_
          · simp only [List.length_append, List.length_singleton]
            omega
          · simp only [List.length_append, List.length_singleton]
            omega
        · rintro ⟨-, rfl, hversion⟩
          simp only [List.length_append, List.length_singleton, pathOf_nil, List.length_nil]
            at hversion hfull
          omega
    · exact hout

/-- If there is room for the path and two characters, there is room for the version. -/
def RoomForVersion (name : PsirpName) (bufLen : Nat) : Prop :=
  name.hasVersion = true → name.components ≠ [] → (pathOf name.components).length + 2 < bufLen →
    (pathOf name.components ++ atSign :: decimal name.version.toNat).length < bufLen

instance (name : PsirpName) (bufLen : Nat) : Decidable (RoomForVersion name bufLen) := by
  unfold RoomForVersion
  infer_instance

theorem length_psirpNameToString_lt_iff (name : PsirpName) {bufLen : Nat} (hpos : 0 < bufLen) :
    (psirpNameToString name bufLen).length < bufLen ↔ RoomForVersion name bufLen := by
  by_cases hfits : name.components ≠ [] ∧ (pathOf name.components).length + 2 < bufLen
  · obtain ⟨hne, hfits⟩ := hfits
    rw [psirpNameToString_eq hne hfits, RoomForVersion, versionText]
    by_cases hv : name.hasVersion = true
    · rw [if_pos hv]
      exact ⟨fun h _ _ _ => h, fun h => h hv hne hfits⟩
    · rw [if_neg hv, List.append_nil]
      exact iff_of_true (by omega) fun h => absurd h hv
  · refine iff_of_true ?_ fun _ hne h => absurd ⟨hne, h⟩ hfits
    rw [psirpNameToString, if_neg hpos.ne']
    rcases eq_or_ne name.components [] with hnil | hne
    · rw [hnil]
      exact hpos
    · refine length_nameToStringLoop_lt name name.components [] hpos ?_
      rw [List.length_nil, Nat.zero_add]
      exact Nat.not_lt.mp fun h => hfits ⟨hne, h⟩

/-! ## What is to hold -/

/-- The call writes a text and its terminator inside the buffer, and returns the length of the
text. -/
def RendersInside (name : PsirpName) (bufLen : Nat) : Prop :=
  ∃ out : CString, psirpNameToStringChecked name bufLen = .ok (out.length, out.bytes ++ [0]) ∧
    out.length < bufLen

theorem rendersInside_iff_length (name : PsirpName) {bufLen : Nat} (hpos : 0 < bufLen) :
    RendersInside name bufLen ↔ (psirpNameToString name bufLen).length < bufLen := by
  have hchecked := psirpNameToStringChecked_eq name hpos
  refine ⟨?_, fun h => ⟨_, by rw [hchecked, if_pos h], h⟩⟩
  rintro ⟨out, hout, -⟩
  by_contra h
  rw [hchecked, if_neg h] at hout
  cases hout

/-- **Rendering stays inside the buffer** exactly if there is room for a version wherever there is
room for two characters. -/
theorem rendersInside_iff (name : PsirpName) {bufLen : Nat} (hpos : 0 < bufLen) :
    RendersInside name bufLen ↔ RoomForVersion name bufLen := by
  rw [rendersInside_iff_length name hpos]
  exact length_psirpNameToString_lt_iff name hpos

/-- The name the parser makes of `/abc@12345678`. -/
def versionedAbc : PsirpName :=
  (psirpNameInit
    (text ['/', 'a', 'b', 'c', '@', '1', '2', '3', '4', '5', '6', '7', '8'])).2

theorem rendersInside_iff_abc :
    0 < 16 ∧ (RendersInside versionedAbc 16 ↔ RoomForVersion versionedAbc 16) :=
  ⟨by decide, rendersInside_iff versionedAbc (by decide)⟩

/-- There is room for `/abc` and four characters more, but the version has nine. -/
theorem not_rendersInside_abc :
    (∀ c ∈ versionedAbc.components, c.length < psirpMaxComponent) ∧
      psirpNameToStringChecked versionedAbc 8 = .error (.outside .buf) ∧
      ¬ RendersInside versionedAbc 8 := by
  have hout : psirpNameToStringChecked versionedAbc 8 = .error (.outside .buf) := by
    decide +kernel
  refine ⟨by decide +kernel, hout, ?_⟩
  rintro ⟨out, h, -⟩
  rw [hout] at h
  cases h

end DsoBrowser

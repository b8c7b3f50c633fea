import DsoBrowser.BeaconText
import DsoBrowser.TextBuffer

/-!
# Beacons and their buffer

`mesh_send_beacon` once more, with every access to its buffer through an accessor that notices when
it is outside (`meshSendBeaconChecked`). It does what `meshSendBeacon` says
(`meshSendBeaconChecked_eq`).

The size check is made for the components, but for no separator, and where it fails only the inner
loop ends. So a prefix that does not fit is cut after a slash (`beaconRound`), and every further one
puts a semicolon behind a buffer that is full already (`beaconPrefixesLoop_of_full`). The beacon is
as it should be exactly if each prefix fits or is left out from its first component on, and all that
leaves room for the terminator (`beaconComplete_iff`).
-/

namespace DsoBrowser

open Bounded

/-- What `mesh_send_beacon` writes. -/
inductive BeaconBuffer
  /-- `buf` -/
  | buf
  deriving DecidableEq, Repr

/-- A step of the construction. -/
abbrev BeaconStep (α : Type) : Type := Except (Stop BeaconBuffer) α

/-- The part of `buf` that is written. -/
abbrev BeaconBytes : Type := TextFront beaconBufSize

/-! ## The construction -/

/-- A separator before all but the first: `if (i > 0) buf[pos++] = sep;` -/
def putSeparator (i : Nat) (sep : CChar) (out : BeaconBytes) : BeaconStep BeaconBytes :=
  if 0 < i then putText .buf out [sep] else .ok out

/-- The name loop of `mesh_send_beacon`, checked. -/
def beaconNameLoopChecked : List PsirpName → Nat → BeaconBytes → BeaconStep BeaconBytes
  | [], _, out => .ok out
  | p :: ps, i, out => do
    let out ← putSeparator i slash out
    match p.components with
    | c :: _ => putText .buf out c
    | [] => beaconNameLoopChecked ps (i + 1) out

/-- The component loop of `mesh_send_beacon`, checked. -/
def beaconComponentsLoopChecked : List CString → Nat → BeaconBytes → BeaconStep BeaconBytes
  | [], _, out => .ok out
  | c :: cs, j, out => do
    let out ← putSeparator j slash out
    if beaconBufSize - 2 ≤ out.val.length + c.length then return out
    else
      let out ← putText .buf out c
      beaconComponentsLoopChecked cs (j + 1) out

/-- The prefix loop of `mesh_send_beacon`, checked. -/
def beaconPrefixesLoopChecked : List PsirpName → Nat → BeaconBytes → BeaconStep BeaconBytes
  | [], _, out => .ok out
  | p :: ps, i, out => do
    let out ← putSeparator i semicolon out
    let out ← beaconComponentsLoopChecked p.components 0 out
    beaconPrefixesLoopChecked ps (i + 1) out

/-- The part of `buf` in front of the terminator. -/
def beaconBytesChecked (localPrefixes : List PsirpName) : BeaconStep BeaconBytes := do
  let out ← putText .buf TextFront.empty beaconHeader
  let out ← beaconNameLoopChecked localPrefixes 0 out
  let out ← putText .buf out [bar]
  beaconPrefixesLoopChecked localPrefixes 0 out

/-- The datagram `mesh_send_beacon` builds: `sendto` reads it from `buf`. -/
def beaconDatagramChecked (localPrefixes : List PsirpName) : BeaconStep (List UInt8) := do
  let out ← beaconBytesChecked localPrefixes
  let buf ← append .buf beaconBufSize out [0]
  let datagram ← readRange .buf buf.val 0 out.val.length
  return datagram.val

/-- `mesh_send_beacon`, checked: the verdict, the context and what is sent where. -/
def meshSendBeaconChecked (ctx : MeshCtx) :
    BeaconStep (Bool × MeshCtx × List (PsirpPeer × List UInt8)) :=
  match ctx.node with
  | none => .ok (false, ctx, [])
  | some _ => do
    let out ← beaconDatagramChecked ctx.localPrefixes
    return (true, { ctx with beaconsSent := ctx.beaconsSent + 1 },
      ((ctx.peers.filter (·.state = .connected)).map (·.addr, out)) ++ [(ctx.mcastAddr, out)])

/-! ## What the loops do -/

/-- A text with a separator, unless it comes first. -/
def separated (i : Nat) (sep : CChar) (out : CString) : CString :=
  if 0 < i then out ++ [sep] else out

theorem separated_eq (i : Nat) (sep : CChar) (out : CString) :
    separated i sep out = out ++ if 0 < i then [sep] else [] := by
  rw [separated]
  split
  · rfl
  · rw [List.append_nil]

theorem length_separated (i : Nat) (sep : CChar) (out : CString) :
    (separated i sep out).length = if 0 < i then out.length + 1 else out.length := by
  rw [separated]
  split
  · exact List.length_append
  · rfl

theorem putSeparator_eq (i : Nat) (sep : CChar) {out : BeaconBytes} {t : CString}
    (h : out.val = t.bytes) :
    putSeparator i sep out = filled .buf beaconBufSize (separated i sep t).bytes := by
  rw [putSeparator, separated]
  split
  · exact putText_eq h [sep]
  · exact ok_eq_filled h

theorem beaconNameLoopChecked_eq (ps : List PsirpName) :
    ∀ (i : Nat) (t : CString) (out : BeaconBytes), out.val = t.bytes →
      beaconNameLoopChecked ps i out =
        filled .buf beaconBufSize (CString.bytes (t ++ beaconNameLoop ps i)) := by
  induction ps with
  | nil =>
    intro i t out h
    rw [beaconNameLoop, List.append_nil]
    exact ok_eq_filled h
  | cons p ps ih =>
    intro i t out h
    rw [beaconNameLoopChecked, putSeparator_eq i slash h, beaconNameLoop, ← List.append_assoc,
      ← separated_eq]
    refine filled_bind_text (List.prefix_append _ _) fun next hnext => ?_
    cases p.components with
    | nil => exact ih (i + 1) _ next hnext
    | cons c cs => exact putText_eq hnext c

theorem beaconComponentsLoop_cons (c : CString) (cs : List CString) (j : Nat) (out : CString) :
    beaconComponentsLoop (c :: cs) j out =
      if beaconLimit ≤ (separated j slash out).length + c.length then separated j slash out
      else beaconComponentsLoop cs (j + 1) (separated j slash out ++ c) := rfl

theorem beaconComponentsLoopChecked_eq (cs : List CString) :
    ∀ (j : Nat) (t : CString) (out : BeaconBytes), out.val = t.bytes →
      beaconComponentsLoopChecked cs j out =
        filled .buf beaconBufSize (beaconComponentsLoop cs j t).bytes := by
  induction cs with
  | nil => exact fun j t out h => ok_eq_filled h
  | cons c cs ih =>
    intro j t out h
    rw [beaconComponentsLoopChecked, putSeparator_eq j slash h, beaconComponentsLoop_cons]
    by_cases hfull : beaconLimit ≤ (separated j slash t).length + c.length
    · rw [if_pos hfull]
      refine filled_bind_text List.prefix_rfl fun xs hxs => ?_
      rw [hxs, CString.length_bytes, ← beaconLimit, if_pos hfull]
      exact ok_eq_filled hxs
    · rw [if_neg hfull]
      have hrest := beaconComponentsLoop_initial cs (j + 1) (separated j slash t ++ c)
      refine filled_bind_text ((List.prefix_append _ _).trans hrest) fun xs hxs => ?_
      rw [hxs, CString.length_bytes, ← beaconLimit, if_neg hfull]
      exact putText_bind hxs hrest fun ys hys => ih _ _ ys hys

theorem beaconPrefixesLoop_cons (p : PsirpName) (ps : List PsirpName) (i : Nat) (out : CString) :
    beaconPrefixesLoop (p :: ps) i out =
      beaconPrefixesLoop ps (i + 1)
        (beaconComponentsLoop p.components 0 (separated i semicolon out)) := rfl

theorem beaconPrefixesLoopChecked_eq (ps : List PsirpName) :
    ∀ (i : Nat) (t : CString) (out : BeaconBytes), out.val = t.bytes →
      beaconPrefixesLoopChecked ps i out =
        filled .buf beaconBufSize (beaconPrefixesLoop ps i t).bytes := by
  induction ps with
  | nil => exact fun i t out h => ok_eq_filled h
  | cons p ps ih =>
    intro i t out h
    have hrest := beaconPrefixesLoop_initial ps (i + 1)
      (beaconComponentsLoop p.components 0 (separated i semicolon t))
    have hcomps := beaconComponentsLoop_initial p.components 0 (separated i semicolon t)
    rw [beaconPrefixesLoopChecked, putSeparator_eq i semicolon h, beaconPrefixesLoop_cons]
    refine filled_bind_text (hcomps.trans hrest) fun xs hxs => ?_
    rw [beaconComponentsLoopChecked_eq _ _ _ xs hxs]
    exact filled_bind_text hrest fun ys hys => ih _ _ ys hys

/-! ## What is sent -/

/-- What `mesh_send_beacon` writes in front of the terminator. -/
def beaconWritten (ps : List PsirpName) : CString :=
  beaconPrefixesLoop ps 0 (beaconStart (beaconName ps))

theorem beaconText_eq (ps : List PsirpName) :
    beaconText ps =
      if (beaconWritten ps).length < beaconBufSize then some (beaconWritten ps) else none := rfl

theorem beaconBytesChecked_eq (ps : List PsirpName) :
    beaconBytesChecked ps = filled .buf beaconBufSize (beaconWritten ps).bytes := by
  have hrest := beaconPrefixesLoop_initial ps 0 (beaconStart (beaconName ps))
  have hbar : beaconHeader ++ beaconName ps <+: beaconStart (beaconName ps) :=
    List.prefix_append _ _
  have hname : [] ++ beaconHeader <+: beaconHeader ++ beaconName ps := List.prefix_append _ _
  rw [beaconBytesChecked]
  refine putText_bind rfl (hname.trans (hbar.trans hrest)) fun xs hxs => ?_
  rw [beaconNameLoopChecked_eq ps 0 _ xs hxs]
  refine filled_bind_text (hbar.trans hrest) fun ys hys => ?_
  exact putText_bind hys hrest fun zs hzs => beaconPrefixesLoopChecked_eq ps 0 _ zs hzs

theorem beaconDatagramChecked_eq (ps : List PsirpName) :
    beaconDatagramChecked ps =
      (beaconText ps).elim (.error (.outside .buf)) fun t => .ok t.bytes := by
  rw [beaconDatagramChecked, beaconBytesChecked_eq, filled_bind_terminator, beaconText_eq]
  generalize beaconWritten ps = t
  split
  · rw [readRange, dif_pos (by rw [Nat.zero_add, List.length_append]; exact Nat.le_add_right _ _)]
    simp only [bind, Except.bind, pure, Except.pure, List.drop_zero, List.take_left,
      Option.elim_some]
  · rfl

/-- What is sent, byte by byte. -/
def sentBytes (r : Bool × MeshCtx × List (PsirpPeer × CString)) :
    Bool × MeshCtx × List (PsirpPeer × List UInt8) :=
  (r.1, r.2.1, r.2.2.map fun d => (d.1, d.2.bytes))

/-- **The checked function** does what the other says. -/
theorem meshSendBeaconChecked_eq (ctx : MeshCtx) :
    meshSendBeaconChecked ctx =
      (meshSendBeacon ctx).elim (.error (.outside .buf)) fun r => .ok (sentBytes r) := by
  rw [meshSendBeaconChecked, meshSendBeacon]
  cases ctx.node with
  | none => rfl
  | some node =>
    simp only [beaconDatagramChecked_eq]
    cases beaconText ctx.localPrefixes with
    | none => rfl
    | some t =>
      simp only [Option.map_some, Option.elim_some, sentBytes, List.map_append, List.map_map]
      rfl

/-! ## One prefix -/

/-- How much of a prefix is checked: all of it, but for a slash before an empty last component. -/
def checkedLength (p : PsirpName) : Nat :=
  if p.components.getLast? = some [] then (writtenPrefix p).length - 1 else (writtenPrefix p).length

/-- The first component, if there is one. -/
def firstComponent (p : PsirpName) : CString := p.components.headD []

theorem checkedLength_le (p : PsirpName) : checkedLength p ≤ (writtenPrefix p).length := by
  rw [checkedLength]
  split
  · exact Nat.sub_le _ _
  · exact le_rfl

theorem length_writtenPrefix_le (p : PsirpName) :
    (writtenPrefix p).length ≤ checkedLength p + 1 := by
  rw [checkedLength]
  split <;> omega

theorem checkedLength_of_nonempty {p : PsirpName} {cs : List CString} {c : CString}
    (h : p.components = cs ++ [c]) (hc : c ≠ []) : checkedLength p = (writtenPrefix p).length := by
  rw [checkedLength, h, List.getLast?_concat, if_neg fun he => hc (Option.some.inj he)]

theorem checkedLength_of_empty {p : PsirpName} {cs : List CString}
    (h : p.components = cs ++ [[]]) : checkedLength p = (writtenPrefix p).length - 1 := by
  rw [checkedLength, h, List.getLast?_concat, if_pos rfl]

theorem length_firstComponent_le (p : PsirpName) :
    (firstComponent p).length ≤ checkedLength p := by
  rw [firstComponent]
  cases hcs : p.components with
  | nil => exact Nat.zero_le _
  | cons c cs =>
    have hwritten := writtenPrefix_of_cons hcs
    rw [List.headD_cons]
    cases cs with
    | nil =>
      rcases eq_or_ne c [] with rfl | hc
      · exact Nat.zero_le _
      · rw [@checkedLength_of_nonempty p [] c hcs hc, hwritten, List.length_append]
        exact Nat.le_add_right _ _
    | cons d cs =>
      have hle := length_writtenPrefix_le p
      rw [hwritten, List.length_append, pathOf_cons, List.length_append, List.length_cons] at hle
      omega

/-- What the component loop writes for a prefix from a position on. -/
inductive BeaconRound (p : PsirpName) (pos : Nat) : CString → Prop
  /-- it fits -/
  | whole (h : pos + checkedLength p < beaconLimit) : BeaconRound p pos (writtenPrefix p)
  /-- not even the first component fits -/
  | leftOut (h : ¬ pos + checkedLength p < beaconLimit)
      (hfirst : beaconLimit ≤ pos + (firstComponent p).length) : BeaconRound p pos []
  /-- a later component does not fit -/
  | cut {s : CString} (h : ¬ pos + checkedLength p < beaconLimit)
      (hfirst : ¬ beaconLimit ≤ pos + (firstComponent p).length) (hne : s ≠ [])
      (hcut : s ≠ writtenPrefix p) : BeaconRound p pos s

/-- Where the loop stops at `d`, the prefix is cut, unless there is nothing more of it. -/
theorem beaconRound_of_stop {p : PsirpName} {pos : Nat} {c d : CString} {kept lost : List CString}
    (hcs : p.components = c :: (kept ++ d :: lost))
    (hkept : pos + c.length + (pathOf kept).length < beaconLimit)
    (hfull : beaconLimit ≤ pos + c.length + (pathOf kept).length + 1 + d.length) :
    BeaconRound p pos (c ++ (pathOf kept ++ [slash])) := by
  have hwritten : writtenPrefix p = c ++ (pathOf kept ++ [slash]) ++ (d ++ pathOf lost) := by
    rw [writtenPrefix_of_cons hcs, pathOf_append, pathOf_cons]
    simp
  have hlen : (writtenPrefix p).length =
      c.length + (pathOf kept).length + 1 + d.length + (pathOf lost).length := by
    rw [hwritten]
    simp only [List.length_append, List.length_singleton]
    omega
  have hcons : p.components = c :: kept ++ d :: lost := hcs
  by_cases hend : d = [] ∧ lost = []
  · obtain ⟨rfl, rfl⟩ := hend
    have hchecked := checkedLength_of_empty hcons
    rw [hlen] at hchecked
    have hwhole : BeaconRound p pos (writtenPrefix p) := .whole (by
      rw [hchecked, List.length_nil, pathOf_nil, List.length_nil]
      omega)
    rwa [hwritten, pathOf_nil, List.append_nil, List.append_nil] at hwhole
  · have hchecked : c.length + (pathOf kept).length + 1 + d.length ≤ checkedLength p := by
      cases lost with
      | nil =>
        rw [checkedLength_of_nonempty hcons fun hd => hend ⟨hd, rfl⟩, hlen]
        exact Nat.le_add_right _ _
      | cons e lost =>
        have hle := length_writtenPrefix_le p
        rw [hlen, pathOf_cons, List.length_append, List.length_cons] at hle
        omega
    refine .cut (by omega) ?_ (by simp) fun hs => hend ?_
    · rw [firstComponent, hcs, List.headD_cons]
      omega
    · rw [hwritten, List.self_eq_append_right, List.append_eq_nil_iff] at hs
      refine ⟨hs.1, ?_⟩
      cases lost with
      | nil => rfl
      | cons e lost => cases hs.2

/-- **A prefix** is written whole, left out, or cut. -/
theorem beaconRound (p : PsirpName) (out : CString) :
    ∃ s, beaconComponentsLoop p.components 0 out = out ++ s ∧ BeaconRound p out.length s := by
  have hfirst := length_firstComponent_le p
  have hchecked := checkedLength_le p
  cases hcs : p.components with
  | nil =>
    have hnone : writtenPrefix p = [] := by rw [writtenPrefix, hcs]; rfl
    refine ⟨[], (List.append_nil out).symm, ?_⟩
    by_cases h : out.length + checkedLength p < beaconLimit
    · have hwhole := BeaconRound.whole h
      rwa [hnone] at hwhole
    · rw [hnone, List.length_nil] at hchecked
      exact .leftOut h (by omega)
  | cons c cs =>
    have hwritten := writtenPrefix_of_cons hcs
    have hhead : firstComponent p = c := by rw [firstComponent, hcs]; rfl
    rw [hhead] at hfirst
    rw [beaconComponentsLoop_zero]
    split
    · rename_i hfull
      exact ⟨[], (List.append_nil out).symm, .leftOut (by omega) (by rwa [hhead])⟩
    · rename_i hc
      have hlt : (out ++ c).length < beaconLimit := by
        rw [List.length_append]
        omega
      rcases @beaconComponentsLoop_rest cs (0 + 1) (out ++ c) (Nat.succ_pos 0) hlt with
        ⟨h, hloop⟩ | ⟨kept, d, lost, hsplit, hloop, hkept, hfull⟩
      · rw [hwritten, List.length_append] at hchecked
        rw [List.length_append] at h
        refine ⟨writtenPrefix p, ?_, .whole (by omega)⟩
        rw [hloop, List.append_assoc, hwritten]
      · rw [List.length_append] at hkept hfull
        refine ⟨c ++ (pathOf kept ++ [slash]), ?_, beaconRound_of_stop (hsplit ▸ hcs) hkept hfull⟩
        rw [hloop, List.append_assoc]

/-! ## All prefixes -/

/-- What is written for each prefix, its separator not included. -/
def beaconPieces : List PsirpName → Nat → CString → List CString
  | [], _, _ => []
  | p :: ps, i, out =>
    let start := separated i semicolon out
    let next := beaconComponentsLoop p.components 0 start
    next.drop start.length :: beaconPieces ps (i + 1) next

/-- The pieces of a prefix field, with a semicolon before all but the first. -/
def prefixField (pieces : List CString) : CString := (pieces.flatMap (semicolon :: ·)).tail

theorem beaconPieces_cons {p : PsirpName} {i : Nat} {out s : CString} (ps : List PsirpName)
    (h : beaconComponentsLoop p.components 0 (separated i semicolon out) =
      separated i semicolon out ++ s) :
    beaconPieces (p :: ps) i out =
      s :: beaconPieces ps (i + 1) (separated i semicolon out ++ s) := by
  rw [beaconPieces]
  simp only [h, List.drop_left]

theorem beaconPrefixesLoop_succ (ps : List PsirpName) :
    ∀ (i : Nat) (out : CString), beaconPrefixesLoop ps (i + 1) out =
      out ++ (beaconPieces ps (i + 1) out).flatMap (semicolon :: ·) := by
  induction ps with
  | nil => exact fun i out => (List.append_nil out).symm
  | cons p ps ih =>
    intro i out
    obtain ⟨s, hs⟩ := beaconComponentsLoop_initial p.components 0 (separated (i + 1) semicolon out)
    rw [beaconPrefixesLoop_cons, beaconPieces_cons ps hs.symm, ← hs, ih, List.flatMap_cons,
      separated_eq, if_pos (Nat.succ_pos i)]
    simp only [List.append_assoc, List.cons_append, List.nil_append]

/-- What is written for each local prefix. -/
def sentPieces (ps : List PsirpName) : List CString :=
  beaconPieces ps 0 (beaconStart (beaconName ps))

/-- **The prefix field** is made of the pieces. -/
theorem beaconWritten_eq (ps : List PsirpName) :
    beaconWritten ps = beaconStart (beaconName ps) ++ prefixField (sentPieces ps) := by
  rw [beaconWritten, sentPieces]
  generalize beaconStart (beaconName ps) = out
  cases ps with
  | nil => exact (List.append_nil out).symm
  | cons p ps =>
    have hfirst : separated 0 semicolon out = out := rfl
    obtain ⟨s, hs⟩ := beaconComponentsLoop_initial p.components 0 out
    rw [← hfirst] at hs
    rw [beaconPrefixesLoop_cons, beaconPieces_cons ps hs.symm, ← hs, beaconPrefixesLoop_succ,
      hfirst, prefixField, List.flatMap_cons, List.append_assoc]
    rfl

/-- In a buffer that is full, every further prefix leaves its semicolon. -/
theorem beaconPrefixesLoop_of_full (ps : List PsirpName) :
    ∀ (i : Nat) (out : CString), beaconLimit ≤ out.length + 1 →
      beaconPrefixesLoop ps (i + 1) out = out ++ List.replicate ps.length semicolon := by
  induction ps with
  | nil => exact fun i out _ => (List.append_nil out).symm
  | cons p ps ih =>
    intro i out hfull
    have hsep : separated (i + 1) semicolon out = out ++ [semicolon] := if_pos (Nat.succ_pos i)
    have hlen : beaconLimit ≤ (out ++ [semicolon]).length := by
      rwa [List.length_append, List.length_singleton]
    have hround : beaconComponentsLoop p.components 0 (out ++ [semicolon]) =
        out ++ [semicolon] := by
      cases p.components with
      | nil => rfl
      | cons c cs => rw [beaconComponentsLoop_zero, if_pos (Nat.le_add_right_of_le hlen)]
    rw [beaconPrefixesLoop_cons, hsep, hround, ih _ _ (Nat.le_add_right_of_le hlen),
      List.length_cons, List.replicate_succ, List.append_assoc, List.singleton_append]

/-- From a position on, in order and with a semicolon before all but the first, each prefix ends
before the limit, or not even its first component does and it is left out; and in the end there is
room for the terminator. -/
def RoomForPrefixes : Nat → Nat → List PsirpName → Prop
  | _, pos, [] => pos < beaconBufSize
  | i, pos, p :: ps =>
    let pos := if 0 < i then pos + 1 else pos
    if pos + checkedLength p < beaconLimit then
      RoomForPrefixes (i + 1) (pos + (writtenPrefix p).length) ps
    else
      beaconLimit ≤ pos + (firstComponent p).length ∧ RoomForPrefixes (i + 1) pos ps

/-- All of a prefix, or nothing. -/
def WholeOrNothing (p : PsirpName) (s : CString) : Prop := s = writtenPrefix p ∨ s = []

/-- By induction on the prefixes: the rounds are those of the positions. -/
theorem roomForPrefixes_iff (ps : List PsirpName) :
    ∀ (i : Nat) (out : CString), RoomForPrefixes i out.length ps ↔
      (beaconPrefixesLoop ps i out).length < beaconBufSize ∧
        List.Forall₂ WholeOrNothing ps (beaconPieces ps i out) := by
  induction ps with
  | nil => exact fun i out => (and_iff_left List.Forall₂.nil).symm
  | cons p ps ih =>
    intro i out
    obtain ⟨s, hs, hround⟩ := beaconRound p (separated i semicolon out)
    rw [RoomForPrefixes, ← length_separated i semicolon out, beaconPrefixesLoop_cons,
      beaconPieces_cons ps hs, hs, List.forall₂_cons]
    cases hround with
    | whole h =>
      rw [if_pos h, ← List.length_append, ih, and_left_comm]
      exact (and_iff_right (Or.inl rfl)).symm
    | leftOut h hfirst =>
      rw [if_neg h, and_iff_right hfirst, List.append_nil, ih, and_left_comm]
      exact (and_iff_right (Or.inr rfl)).symm
    | cut h hfirst hne hcut =>
      rw [if_neg h]
      refine iff_of_false (fun hroom => hfirst hroom.1) ?_
      rintro ⟨-, hwhole | hnone, -⟩
      · exact hcut hwhole
      · exact hne hnone

theorem roomForPrefixes_succ_of_fits (ps : List PsirpName) :
    ∀ (i pos : Nat),
      pos + (ps.flatMap fun p => semicolon :: writtenPrefix p).length < beaconLimit →
        RoomForPrefixes (i + 1) pos ps := by
  induction ps with
  | nil =>
    intro i pos h
    exact Nat.lt_of_lt_of_le (Nat.lt_of_le_of_lt (Nat.le_add_right _ _) h) (Nat.sub_le _ _)
  | cons p ps ih =>
    intro i pos h
    have hchecked := checkedLength_le p
    rw [List.flatMap_cons, List.length_append, List.length_cons] at h
    rw [RoomForPrefixes, if_pos (Nat.succ_pos i), if_pos (by omega)]
    exact ih _ _ (by omega)

/-- **There is room** if all prefixes together end before the limit. -/
theorem roomForPrefixes_of_fits {ps : List PsirpName} {pos : Nat}
    (h : pos + (writtenPrefixes ps).length < beaconLimit) : RoomForPrefixes 0 pos ps := by
  cases ps with
  | nil => exact roomForPrefixes_succ_of_fits [] 0 pos h
  | cons p ps =>
    have hchecked := checkedLength_le p
    rw [writtenPrefixes, List.flatMap_cons, List.cons_append, List.tail_cons,
      List.length_append] at h
    rw [RoomForPrefixes, if_neg (Nat.lt_irrefl 0), if_pos (by omega)]
    exact roomForPrefixes_succ_of_fits ps _ _ (by omega)

/-- **Three prefixes too many** run over a buffer that is full but for one character. -/
theorem beaconText_of_crowded {ps qs : List PsirpName} (hne : ps ≠ [])
    (hps : ∀ p ∈ ps, p.components ≠ [])
    (hfits : (beaconStart (beaconName (ps ++ qs))).length + (writtenPrefixes ps).length + 1 =
      beaconLimit) (hqs : 3 ≤ qs.length) : beaconText (ps ++ qs) = none := by
  obtain ⟨n, hn⟩ : ∃ n, ps.length = n + 1 := ⟨ps.length - 1, by
    have hpos := List.length_pos_of_ne_nil hne
    omega⟩
  have hlimit : beaconBufSize = beaconLimit + 2 := rfl
  rw [beaconText_eq, beaconWritten, beaconPrefixesLoop_append, hn, Nat.zero_add,
    beaconPrefixesLoop_of_fits hps (by omega), beaconPrefixesLoop_of_full _ _ _
      (by rw [List.length_append]; omega), if_neg]
  rw [List.length_append, List.length_append, List.length_replicate]
  omega

/-! ## What is to hold -/

/-- A beacon is built inside its buffer, and its prefix field has complete prefixes only. -/
structure BeaconComplete (ctx : MeshCtx) : Prop where
  /-- no access is outside -/
  inside : ∀ buffer, meshSendBeaconChecked ctx ≠ .error (.outside buffer)
  /-- what is sent has, for each prefix, all of it or nothing -/
  complete : ∀ ok ctx' sent, meshSendBeaconChecked ctx = .ok (ok, ctx', sent) → ∀ d ∈ sent,
    d.2 = CString.bytes (beaconStart (beaconName ctx.localPrefixes) ++
        prefixField (sentPieces ctx.localPrefixes)) ∧
      List.Forall₂ WholeOrNothing ctx.localPrefixes (sentPieces ctx.localPrefixes)

theorem datagram_eq {ctx : MeshCtx} {r : Bool × MeshCtx × List (PsirpPeer × CString)}
    (h : meshSendBeacon ctx = some r) : ∀ d ∈ r.2.2, d.2 = beaconWritten ctx.localPrefixes := by
  rw [meshSendBeacon] at h
  cases hnode : ctx.node with
  | none =>
    rw [hnode] at h
    cases h
    exact nofun
  | some node =>
    simp only [hnode, beaconText_eq, Option.map_eq_some_iff, Option.ite_none_right_eq_some] at h
    obtain ⟨t, ⟨-, ht⟩, rfl⟩ := h
    obtain rfl := Option.some.inj ht
    intro d hd
    rcases List.mem_append.mp hd with hd | hd
    · obtain ⟨peer, -, rfl⟩ := List.mem_map.mp hd
      rfl
    · rw [List.mem_singleton.mp hd]

/-- What is sent is inside the buffer, so that only the prefixes are in question. -/
theorem beaconComplete_of_some {ctx : MeshCtx} {r : Bool × MeshCtx × List (PsirpPeer × CString)}
    (h : meshSendBeacon ctx = some r) :
    BeaconComplete ctx ↔
      (r.2.2 ≠ [] →
        List.Forall₂ WholeOrNothing ctx.localPrefixes (sentPieces ctx.localPrefixes)) := by
  have hchecked := meshSendBeaconChecked_eq ctx
  rw [h, Option.elim_some] at hchecked
  refine ⟨fun hcomplete hne => ?_, fun hpieces => ⟨?_, ?_⟩⟩
  · obtain ⟨d, hd⟩ := List.exists_mem_of_ne_nil _ hne
    have hsent : (d.1, d.2.bytes) ∈ (sentBytes r).2.2 := List.mem_map_of_mem hd
    exact (hcomplete.complete _ _ _ hchecked _ hsent).2
  · intro buffer
    rw [hchecked]
    exact nofun
  · intro ok ctx' sent hsent d hd
    rw [hchecked] at hsent
    obtain rfl : (sentBytes r).2.2 = sent := congrArg (·.2.2) (Except.ok.inj hsent)
    obtain ⟨e, he, rfl⟩ := List.mem_map.mp hd
    refine ⟨?_, hpieces (List.ne_nil_of_mem he)⟩
    rw [datagram_eq h e he, beaconWritten_eq]

/-- **A beacon is as it should be** exactly if none is sent, or there is room for the prefixes. -/
theorem beaconComplete_iff (ctx : MeshCtx) :
    BeaconComplete ctx ↔ ctx.node = none ∨
      RoomForPrefixes 0 (beaconStart (beaconName ctx.localPrefixes)).length ctx.localPrefixes := by
  rw [roomForPrefixes_iff, ← beaconWritten, ← sentPieces]
  cases hnode : ctx.node with
  | none =>
    have hsend : meshSendBeacon ctx = some (false, ctx, []) := by rw [meshSendBeacon, hnode]
    rw [beaconComplete_of_some hsend]
    exact iff_of_true (fun h => absurd rfl h) (Or.inl rfl)
  | some node =>
    by_cases hlen : (beaconWritten ctx.localPrefixes).length < beaconBufSize
    · obtain ⟨r, hsend, hne⟩ : ∃ r, meshSendBeacon ctx = some r ∧ r.2.2 ≠ [] := by
        simp only [meshSendBeacon, hnode, beaconText_eq, if_pos hlen, Option.map_some]
        exact ⟨_, rfl, List.append_ne_nil_of_right_ne_nil _ (List.cons_ne_nil _ _)⟩
      rw [beaconComplete_of_some hsend]
      refine ⟨fun h => Or.inr ⟨hlen, h hne⟩, ?_⟩
      rintro (h | ⟨-, h⟩)
      · cases h
      · exact fun _ => h
    · have hchecked := meshSendBeaconChecked_eq ctx
      simp only [meshSendBeacon, hnode, beaconText_eq, if_neg hlen, Option.map_none,
        Option.elim_none] at hchecked
      refine iff_of_false (fun h => h.inside .buf hchecked) ?_
      rintro (h | ⟨h, -⟩)
      · cases h
      · exact hlen h

/-! ## A beacon that runs over -/

/-- Four paths that fill the buffer but for one character. -/
def fillingPaths : List (List CString) :=
  List.replicate 3 (List.replicate 16 (List.replicate 63 (ch 'a'))) ++
    [List.replicate 14 (List.replicate 63 (ch 'a')) ++ [List.replicate 49 (ch 'a')]]

/-- Three more. -/
def furtherPaths : List (List CString) := List.replicate 3 [[ch 'a']]

/-- The names of these paths. -/
def crowdedPrefixes : List PsirpName :=
  (fillingPaths ++ furtherPaths).map fun cs => (psirpNameInit (pathOf cs)).2

/-- A peer that publishes them. -/
def crowdedMesh : MeshCtx :=
  crowdedPrefixes.foldl meshAddLocalPrefix
    (meshInit (some ⟨psirpCsInit, false, [], [], [], 0, 0, 0, 0⟩) .null)

/-- The parser takes the paths as they are. -/
theorem psirpNameInit_crowded : ∀ cs ∈ fillingPaths ++ furtherPaths,
    ∃ h, psirpNameInit (pathOf cs) = (true, ⟨cs, fnv1aHash (pathOf cs).bytes, 0, false, h⟩) := by
  have hvalid : ∀ cs ∈ fillingPaths ++ furtherPaths,
      (∀ c ∈ cs, PathComponent c) ∧ cs ≠ [] ∧ cs.length ≤ psirpMaxComponents := by
    decide +kernel
  intro cs hcs
  obtain ⟨hcomps, hne, hle⟩ := hvalid cs hcs
  exact ⟨hle, psirpNameInit_pathOf hcomps hne hle⟩

theorem beaconText_crowded : beaconText crowdedPrefixes = none := by
  have hcomps : ∀ cs ∈ fillingPaths, (psirpNameInit (pathOf cs)).2.components = cs := by
    intro cs hcs
    obtain ⟨_, hinit⟩ := psirpNameInit_crowded cs (List.mem_append_left _ hcs)
    rw [hinit]
  have hwritten : writtenPrefixes (fillingPaths.map fun cs => (psirpNameInit (pathOf cs)).2) =
      (fillingPaths.flatMap fun cs => semicolon :: (pathOf cs).tail).tail := by
    rw [writtenPrefixes, List.flatMap_map]
    refine congrArg List.tail (List.flatMap_congr fun cs hcs => ?_)
    rw [writtenPrefix, hcomps cs hcs]
  have hname : beaconName crowdedPrefixes = List.replicate 63 (ch 'a') :=
    beaconName_of_cons (hcomps _ List.mem_cons_self)
  rw [crowdedPrefixes, List.map_append] at hname ⊢
  refine beaconText_of_crowded (List.cons_ne_nil _ _) ?_ ?_ (by decide)
  · intro p hp
    obtain ⟨cs, hcs, rfl⟩ := List.mem_map.mp hp
    rw [hcomps cs hcs]
    rintro rfl
    exact absurd hcs (by decide)
  · rw [hname, hwritten, length_beaconStart]
    decide +kernel

/-- The terminator is the first byte behind the buffer. -/
theorem not_beaconComplete_crowded :
    (∀ p ∈ crowdedMesh.localPrefixes, Parsed p) ∧
      crowdedMesh.localPrefixes.length ≤ meshMaxPrefixes ∧
      meshSendBeaconChecked crowdedMesh = .error (.outside .buf) ∧
      ¬ BeaconComplete crowdedMesh := by
  have hprefixes : crowdedMesh.localPrefixes = crowdedPrefixes := rfl
  have hout : meshSendBeaconChecked crowdedMesh = .error (.outside .buf) := by
    have hsend : meshSendBeacon crowdedMesh =
        (beaconText crowdedPrefixes).map fun out =>
          (true, { crowdedMesh with beaconsSent := crowdedMesh.beaconsSent + 1 },
            ((crowdedMesh.peers.filter (·.state = .connected)).map (·.addr, out)) ++
              [(crowdedMesh.mcastAddr, out)]) := rfl
    rw [meshSendBeaconChecked_eq, hsend, beaconText_crowded]
    rfl
  rw [hprefixes]
  refine ⟨fun p hp => ?_, by decide, hout, fun h => h.inside .buf hout⟩
  obtain ⟨cs, hcs, rfl⟩ := List.mem_map.mp hp
  obtain ⟨_, hinit⟩ := psirpNameInit_crowded cs hcs
  exact ⟨pathOf cs, by rw [hinit]⟩

end DsoBrowser

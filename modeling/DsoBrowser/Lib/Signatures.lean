import Mathlib.Data.List.Basic

/-!
# Signature schemes

A scheme signs messages `M` with secret keys `SK` and checks signatures `S` against public keys
`PK`. Nothing is assumed of a scheme; two conditions on a pair of keys are named instead.

* `Matches` — what the secret key signs, the public key accepts.
* `Ideal` — the ideal functionality after the messages `signed` were signed: what the public key
  accepts was signed, and for no other message.

`recorded` is a scheme that checks against a record of what was signed, and is ideal for it
(`ideal_recorded`).
-/

namespace Signatures

universe u v w x

variable {SK : Type u} {PK : Type v} {M : Type w} {S : Type x}

/-- A signature scheme. -/
structure Scheme (SK : Type u) (PK : Type v) (M : Type w) (S : Type x) where
  /-- the signature of a message -/
  sign : SK → M → S
  /-- whether a signature is one of the message -/
  verify : PK → M → S → Bool

/-- The public key accepts every signature the secret key makes. -/
def Matches (scheme : Scheme SK PK M S) (pk : PK) (sk : SK) : Prop :=
  ∀ m, scheme.verify pk m (scheme.sign sk m) = true

/-- The keys have signed the messages `signed`, and signatures are unforgeable. -/
structure Ideal (scheme : Scheme SK PK M S) (pk : PK) (sk : SK) (signed : List M) : Prop where
  /-- an accepted signature is one that was made -/
  made : ∀ {m s}, scheme.verify pk m s = true → ∃ m' ∈ signed, s = scheme.sign sk m'
  /-- a signature that was made is accepted only for the message it was made over -/
  exact : ∀ {m m'}, m' ∈ signed → scheme.verify pk m (scheme.sign sk m') = true → m = m'

variable {scheme : Scheme SK PK M S} {pk : PK} {sk : SK} {signed : List M}

/-- **What an ideal scheme accepts was signed.** -/
theorem Ideal.mem_of_verify (h : Ideal scheme pk sk signed) {m : M} {s : S}
    (hv : scheme.verify pk m s = true) : m ∈ signed ∧ s = scheme.sign sk m := by
  obtain ⟨m', hm', rfl⟩ := h.made hv
  obtain rfl := h.exact hm' hv
  exact ⟨hm', rfl⟩

/-! ## A scheme with a record -/

variable [DecidableEq PK] [DecidableEq M] [DecidableEq S]

/-- The scheme that signs as `tag` says and accepts, under `pk`, the tags of the messages in
`record`. -/
def recorded (pk : PK) (tag : M → S) (record : List M) : Scheme SK PK M S where
  sign _ m := tag m
  verify pk' m s := pk' = pk && m ∈ record && s = tag m

theorem verify_recorded {tag : M → S} {record : List M} {pk pk' : PK} {m : M} {s : S} :
    (recorded pk tag record : Scheme SK PK M S).verify pk' m s = true ↔
      pk' = pk ∧ m ∈ record ∧ s = tag m := by
  simp [recorded, and_assoc]

/-- **A record is ideal** for what it holds, if no two of its messages have one tag. -/
theorem ideal_recorded {tag : M → S} {record : List M} (pk : PK) (sk : SK)
    (h : ∀ m ∈ record, ∀ m' ∈ record, tag m = tag m' → m = m') :
    Ideal (recorded pk tag record) pk sk record where
  made hv := by
    obtain ⟨-, hm, rfl⟩ := verify_recorded.mp hv
    exact ⟨_, hm, rfl⟩
  exact hm' hv := by
    obtain ⟨-, hm, htag⟩ := verify_recorded.mp hv
    exact (h _ hm' _ hm htag).symm

end Signatures

import Mathlib.Data.List.Basic
import Mathlib.Data.List.Induction

/-!
# Runs of a deterministic machine

A machine over states `σ` takes inputs `ι` and answers outputs `ο`; its whole behaviour is
one function `step : σ → ι → ο × σ`. This file has the things every run-level result needs:

* `exec` and `outs` — the state a run ends in and the answers it gives on the way;
* `Along` — a condition that every step of a run meets, in the state that step starts from;
* `Happened` — an event some step of a run is, in the state that step starts from;
* `Throughout` — a condition that every input of a run meets, given the inputs before it;
* the **rules**: an invariant kept by every step holds at the end (`exec_inv`), and two machines
  related step by step answer alike (`outs_eq_of_simulates`).
-/

namespace Machine

universe u v w x

variable {σ : Type u} {ι : Type v} {ο : Type w} {τ : Type x}

/-- The state a run ends in. -/
def exec (step : σ → ι → ο × σ) : σ → List ι → σ
  | s, [] => s
  | s, i :: is => exec step (step s i).2 is

/-- The answers a run gives, in order. -/
def outs (step : σ → ι → ο × σ) : σ → List ι → List ο
  | _, [] => []
  | s, i :: is => (step s i).1 :: outs step (step s i).2 is

/-- Every step of the run meets `P`, in the state it starts from. -/
def Along (step : σ → ι → ο × σ) (P : σ → ι → Prop) : σ → List ι → Prop
  | _, [] => True
  | s, i :: is => P s i ∧ Along step P (step s i).2 is

variable {step : σ → ι → ο × σ}

@[simp] theorem exec_nil (s : σ) : exec step s [] = s := rfl

@[simp] theorem exec_cons (s : σ) (i : ι) (is : List ι) :
    exec step s (i :: is) = exec step (step s i).2 is := rfl

@[simp] theorem along_nil (P : σ → ι → Prop) (s : σ) : Along step P s [] := trivial

@[simp] theorem along_cons (P : σ → ι → Prop) (s : σ) (i : ι) (is : List ι) :
    Along step P s (i :: is) ↔ P s i ∧ Along step P (step s i).2 is := Iff.rfl

theorem exec_append (s : σ) (is js : List ι) :
    exec step s (is ++ js) = exec step (exec step s is) js := by
  induction is generalizing s with
  | nil => rfl
  | cons i is ih => exact ih _

theorem outs_append (s : σ) (is js : List ι) :
    outs step s (is ++ js) = outs step s is ++ outs step (exec step s is) js := by
  induction is generalizing s with
  | nil => rfl
  | cons i is ih => exact congrArg ((step s i).1 :: ·) (ih _)

theorem along_append (P : σ → ι → Prop) (s : σ) (is js : List ι) :
    Along step P s (is ++ js) ↔ Along step P s is ∧ Along step P (exec step s is) js := by
  induction is generalizing s with
  | nil => simp
  | cons i is ih => simp [ih, and_assoc]

/-- A condition on the inputs alone holds along a run exactly when all its inputs meet it. -/
theorem along_input {P : ι → Prop} {s : σ} {is : List ι} :
    Along step (fun _ i => P i) s is ↔ ∀ i ∈ is, P i := by
  induction is generalizing s with
  | nil => simp
  | cons i is ih => simp [ih]

theorem Along.and {P Q : σ → ι → Prop} {s : σ} {is : List ι} (hP : Along step P s is)
    (hQ : Along step Q s is) : Along step (fun s i => P s i ∧ Q s i) s is := by
  induction is generalizing s with
  | nil => exact trivial
  | cons i is ih => exact ⟨⟨hP.1, hQ.1⟩, ih hP.2 hQ.2⟩

/-- **Invariant rule.** What holds at the start and is kept by every step that meets `P`
holds at the end of every run whose steps all meet `P`. -/
theorem exec_inv {I : σ → Prop} {P : σ → ι → Prop}
    (hstep : ∀ s i, I s → P s i → I (step s i).2) {s : σ} {is : List ι}
    (hI : I s) (hP : Along step P s is) : I (exec step s is) := by
  induction is generalizing s with
  | nil => exact hI
  | cons i is ih => exact ih (hstep s i hI hP.1) hP.2

/-- What the invariant gives at every step that meets `P` holds along every run whose steps all
meet `P`. -/
theorem along_of_inv {I : σ → Prop} {P Q : σ → ι → Prop}
    (hstep : ∀ s i, I s → P s i → I (step s i).2) (hQ : ∀ s i, I s → P s i → Q s i) {s : σ}
    {is : List ι} (hI : I s) (hP : Along step P s is) : Along step Q s is := by
  induction is generalizing s with
  | nil => exact trivial
  | cons i is ih => exact ⟨hQ s i hI hP.1, ih (hstep s i hI hP.1) hP.2⟩

/-- Conditions that agree wherever the invariant holds are met along the same runs. -/
theorem along_congr {I : σ → Prop} {P Q : σ → ι → Prop} (hstep : ∀ s i, I s → I (step s i).2)
    (hPQ : ∀ s i, I s → (P s i ↔ Q s i)) {s : σ} {is : List ι} (hI : I s) :
    Along step P s is ↔ Along step Q s is := by
  induction is generalizing s with
  | nil => exact Iff.rfl
  | cons i is ih => exact and_congr (hPQ s i hI) (ih (hstep s i hI))

/-- Some step of the run is a `P` step, in the state it starts from. -/
def Happened (step : σ → ι → ο × σ) (P : σ → ι → Prop) : σ → List ι → Prop
  | _, [] => False
  | s, i :: is => P s i ∨ Happened step P (step s i).2 is

theorem happened_append (P : σ → ι → Prop) (s : σ) (is js : List ι) :
    Happened step P s (is ++ js) ↔ Happened step P s is ∨ Happened step P (exec step s is) js := by
  induction is generalizing s with
  | nil => simp [Happened]
  | cons i is ih => simp [Happened, ih, or_assoc]

theorem happened_concat (P : σ → ι → Prop) (s : σ) (is : List ι) (i : ι) :
    Happened step P s (is ++ [i]) ↔ Happened step P s is ∨ P (exec step s is) i := by
  simp [happened_append, Happened]

/-- Events that agree in every state happen along the same runs. -/
theorem happened_congr {P Q : σ → ι → Prop} (h : ∀ s i, P s i ↔ Q s i) (s : σ) (is : List ι) :
    Happened step P s is ↔ Happened step Q s is := by
  induction is generalizing s with
  | nil => exact Iff.rfl
  | cons i is ih => exact or_congr (h s i) (ih _)

/-- An answer of a run is that of one of its steps. -/
theorem exists_mem_outs_iff {Q : ο → Prop} {s : σ} {is : List ι} :
    (∃ o ∈ outs step s is, Q o) ↔ Happened step (fun s i => Q (step s i).1) s is := by
  induction is generalizing s with
  | nil => simp [outs, Happened]
  | cons i is ih => simp [outs, Happened, ih]

/-- Every input of the run meets `P`, given the inputs before it. -/
def Throughout (P : List ι → ι → Prop) (is : List ι) : Prop :=
  ∀ before i after, is = before ++ i :: after → P before i

/-- **History rule.** Two conditions are met by the same runs if they agree wherever the invariant
holds, and inputs that meet them keep the invariant. -/
theorem throughout_congr {I : List ι → Prop} {P Q : List ι → ι → Prop} {is : List ι} (hnil : I [])
    (hstep : ∀ before i after, is = before ++ i :: after → I before → Q before i →
      I (before ++ [i]))
    (hPQ : ∀ before i after, is = before ++ i :: after → I before → (P before i ↔ Q before i)) :
    Throughout P is ↔ Throughout Q is := by
  -- the invariant is carried along a run of either kind, from the front
  have hcarry : ∀ R : List ι → ι → Prop, (∀ before i after, is = before ++ i :: after → I before →
      R before i → Q before i) → Throughout R is →
      ∀ after before, is = before ++ after → I before := by
    intro R hR hrun after before
    induction before using List.reverseRecOn generalizing after with
    | nil => exact fun _ => hnil
    | append_singleton before i ih =>
      intro hsplit
      have hsplit' : is = before ++ i :: after := by
        rw [hsplit, List.append_assoc, List.singleton_append]
      have hI := ih (i :: after) hsplit'
      exact hstep before i after hsplit' hI (hR before i after hsplit' hI (hrun _ _ _ hsplit'))
  constructor
  · intro hP before i after hsplit
    have hI := hcarry P (fun _ _ _ hs hI => (hPQ _ _ _ hs hI).mp) hP _ _ hsplit
    exact (hPQ before i after hsplit hI).mp (hP before i after hsplit)
  · intro hQ before i after hsplit
    have hI := hcarry Q (fun _ _ _ _ _ => id) hQ _ _ hsplit
    exact (hPQ before i after hsplit hI).mpr (hQ before i after hsplit)

/-- **Simulation rule.** If related states answer every step that meets `P` alike and step to
related states, the two machines answer every such run alike. -/
theorem outs_eq_of_simulates {R : σ → τ → Prop} {P : σ → ι → Prop} {astep : τ → ι → ο × τ}
    (hsim : ∀ s t i, R s t → P s i →
      (step s i).1 = (astep t i).1 ∧ R (step s i).2 (astep t i).2)
    {s : σ} {t : τ} {is : List ι} (hR : R s t) (hP : Along step P s is) :
    outs step s is = outs astep t is ∧ R (exec step s is) (exec astep t is) := by
  induction is generalizing s t with
  | nil => exact ⟨rfl, hR⟩
  | cons i is ih =>
    obtain ⟨hout, hR'⟩ := hsim s t i hR hP.1
    obtain ⟨houts, hend⟩ := ih hR' hP.2
    exact ⟨by rw [outs, outs, hout, houts], hend⟩

end Machine

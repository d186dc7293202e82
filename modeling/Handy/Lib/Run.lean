import Mathlib.Data.List.Basic

/-! # Machines driven by choices

A total step function takes one choice of the environment at a time. Nothing
here names a program: a run is the fold of the step over its choices, `Along`
says what every step of a run may assume, and the invariant rules turn a fact
about one step into a fact about every run. Streams of choices serve the
results that say a call returns whatever comes next.
-/

namespace Driven

variable {S C : Type*}

/-- The state after the choices, oldest first. -/
def run (step : S → C → S) (s : S) : List C → S
  | [] => s
  | c :: cs => run step (step s c) cs

/-- Every step of the run satisfies `P`, read at the state before the step. -/
def Along (step : S → C → S) (P : S → C → Prop) : S → List C → Prop
  | _, [] => True
  | s, c :: cs => P s c ∧ Along step P (step s c) cs

/-- What the steps of a run give out, in order. -/
def collect {A : Type*} (step : S → C → S) (out : S → C → List A) : S → List C → List A
  | _, [] => []
  | s, c :: cs => out s c ++ collect step out (step s c) cs

instance decidableAlong {step : S → C → S} {P : S → C → Prop} [∀ s c, Decidable (P s c)] :
    (s : S) → (cs : List C) → Decidable (Along step P s cs)
  | _, [] => isTrue trivial
  | s, c :: cs =>
      letI : Decidable (Along step P (step s c) cs) := decidableAlong (step s c) cs
      inferInstanceAs (Decidable (P s c ∧ Along step P (step s c) cs))

variable {step : S → C → S} {P Q : S → C → Prop} {I : S → Prop}

@[simp] theorem run_nil (s : S) : run step s [] = s := rfl

@[simp] theorem run_cons (s : S) (c : C) (cs : List C) :
    run step s (c :: cs) = run step (step s c) cs := rfl

theorem run_append (s : S) (cs ds : List C) :
    run step s (cs ++ ds) = run step (run step s cs) ds := by
  induction cs generalizing s with
  | nil => rfl
  | cons c cs ih => exact ih (step s c)

theorem along_append {s : S} {cs ds : List C} :
    Along step P s (cs ++ ds) ↔ Along step P s cs ∧ Along step P (run step s cs) ds := by
  induction cs generalizing s with
  | nil => exact ⟨fun h => ⟨trivial, h⟩, fun h => h.2⟩
  | cons c cs ih =>
      constructor
      · intro h
        obtain ⟨hcs, hds⟩ := ih.mp h.2
        exact ⟨⟨h.1, hcs⟩, hds⟩
      · intro h
        exact ⟨h.1.1, ih.mpr ⟨h.1.2, h.2⟩⟩

/-- What every step keeps, every run keeps. -/
theorem run_keeps (keep : ∀ s c, I s → I (step s c)) {s : S} (hs : I s) (cs : List C) :
    I (run step s cs) := by
  induction cs generalizing s with
  | nil => exact hs
  | cons c cs ih => exact ih (keep s c hs)

/-- What a step keeps under `P`, a run all of whose steps satisfy `P` keeps. -/
theorem run_invariant (keep : ∀ s c, I s → P s c → I (step s c)) {s : S} {cs : List C}
    (hs : I s) (hp : Along step P s cs) : I (run step s cs) := by
  induction cs generalizing s with
  | nil => exact hs
  | cons c cs ih => exact ih (keep s c hs hp.1) hp.2

/-- Where each step puts what it gets, added to `g`, behind what is held, `k`, and gives out
from the front, so does a run. -/
theorem run_conserves {A : Type*} {out : S → C → List A} {g k : S → List A}
    (keep : ∀ s c, I s → P s c → I (step s c) ∧
      ∃ new, g (step s c) = g s ++ new ∧ out s c ++ k (step s c) = k s ++ new)
    {s : S} {cs : List C} (hs : I s) (hp : Along step P s cs) :
    ∃ new, g (run step s cs) = g s ++ new ∧
      collect step out s cs ++ k (run step s cs) = k s ++ new := by
  induction cs generalizing s with
  | nil => exact ⟨[], (List.append_nil _).symm, (List.append_nil _).symm⟩
  | cons c cs ih =>
      obtain ⟨hnext, new, hgot, hheld⟩ := keep s c hs hp.1
      obtain ⟨rest, hgot', hheld'⟩ := ih hnext hp.2
      refine ⟨new ++ rest, ?_, ?_⟩
      · rw [run_cons, hgot', hgot, List.append_assoc]
      · rw [run_cons, collect, List.append_assoc, hheld', ← List.append_assoc, hheld,
          List.append_assoc]

theorem along_and {s : S} {cs : List C} :
    Along step (fun s c => P s c ∧ Q s c) s cs ↔ Along step P s cs ∧ Along step Q s cs := by
  induction cs generalizing s with
  | nil => exact ⟨fun _ => ⟨trivial, trivial⟩, fun _ => trivial⟩
  | cons c cs ih =>
      constructor
      · intro h
        obtain ⟨hp, hq⟩ := ih.mp h.2
        exact ⟨⟨h.1.1, hp⟩, h.1.2, hq⟩
      · intro h
        exact ⟨⟨h.1.1, h.2.1⟩, ih.mpr ⟨h.1.2, h.2.2⟩⟩

theorem Along.imp (h : ∀ s c, P s c → Q s c) {s : S} {cs : List C} (hp : Along step P s cs) :
    Along step Q s cs := by
  induction cs generalizing s with
  | nil => trivial
  | cons c cs ih => exact ⟨h s c hp.1, ih hp.2⟩

/-- A property that each step keeps just when `P` holds of it holds along a run just when
`P` does. -/
theorem along_iff (keep : ∀ s c, I s → (I (step s c) ↔ P s c)) {s : S} (hs : I s)
    {cs : List C} : Along step (fun s c => I (step s c)) s cs ↔ Along step P s cs := by
  induction cs generalizing s with
  | nil => exact Iff.rfl
  | cons c cs ih =>
      constructor
      · intro h
        exact ⟨(keep s c hs).mp h.1, (ih h.1).mp h.2⟩
      · intro h
        have hnext := (keep s c hs).mpr h.1
        exact ⟨hnext, (ih hnext).mpr h.2⟩

/-- Whatever choices satisfying `P` come next, a state in `Q` is reached. -/
inductive Inevitable (step : S → C → S) (P : S → C → Prop) (Q : S → Prop) : S → Prop
  | now {s : S} (h : Q s) : Inevitable step P Q s
  | later {s : S} (h : ∀ c, P s c → Inevitable step P Q (step s c)) : Inevitable step P Q s

theorem Inevitable.trans {Q R : S → Prop} {s : S} (h : Inevitable step P Q s)
    (hr : ∀ t, Q t → Inevitable step P R t) : Inevitable step P R s := by
  induction h with
  | now h => exact hr _ h
  | later _ ih => exact .later ih

end Driven

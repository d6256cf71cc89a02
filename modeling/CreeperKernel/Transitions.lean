import Mathlib.Logic.Relation

/- Runs of a labelled transition relation, with the two induction rules the
component proofs use: invariants, and simulation by an abstract machine that
reads the same labels. -/
namespace CreeperKernel.Transitions

variable {State Label : Type*}

/-- A finite run, with its labels in the order in which the steps were taken. -/
inductive Run (step : State → Label → State → Prop) : State → List Label → State → Prop where
  | nil (s : State) : Run step s [] s
  | cons {s middle finish : State} {label : Label} {labels : List Label}
      (first : step s label middle) (rest : Run step middle labels finish) :
      Run step s (label :: labels) finish

variable {step : State → Label → State → Prop}

variable {finish middle s : State}

theorem Run.append {first second : List Label} (front : Run step s first middle)
    (back : Run step middle second finish) : Run step s (first ++ second) finish := by
  induction front with
  | nil => exact back
  | cons taken _ ih => exact .cons taken (ih back)

variable {label : Label}

theorem Run.single (taken : step s label finish) : Run step s [label] finish :=
  .cons taken (.nil finish)

variable {labels : List Label}

theorem Run.snoc (front : Run step s labels middle) (last : step middle label finish) :
    Run step s (labels ++ [label]) finish :=
  front.append (.single last)

/-- A state relation kept by matching steps relates the ends of every run. The
abstract machine is deterministic and reads the labels of the concrete run. -/
theorem Run.simulation {Abstract : Type*} (related : State → Abstract → Prop) (absStep : Abstract → Label → Abstract)
    (matched : ∀ s label s' abs, related s abs → step s label s' → related s' (absStep abs label))
    (run : Run step s labels finish) {abs : Abstract} (start : related s abs) :
    related finish (labels.foldl absStep abs) := by
  induction run generalizing abs with
  | nil => exact start
  | cons taken _ ih => exact ih (matched _ _ _ _ start taken)

/-- A property kept by every step holds at the end of every run. -/
theorem Run.invariant (inv : State → Prop) (kept : ∀ s label s', inv s → step s label s' → inv s')
    (run : Run step s labels finish) (start : inv s) : inv finish := by
  induction run with
  | nil => exact start
  | cons taken _ ih => exact ih (kept _ _ _ start taken)

theorem Run.mono {wider : State → Label → State → Prop} (included : ∀ s label s', step s label s' → wider s label s')
    (run : Run step s labels finish) : Run wider s labels finish := by
  induction run with
  | nil s => exact .nil s
  | cons taken _ ih => exact .cons (included _ _ _ taken) ih

/-- A condition that its labels alone ensure holds along the whole run. -/
theorem Run.restrict {good : State → Label → Prop} (run : Run step s labels finish)
    (all : ∀ label ∈ labels, ∀ s, good s label) :
    Run (fun s label s' => step s label s' ∧ good s label) s labels finish := by
  induction run with
  | nil s => exact .nil s
  | cons taken _ ih =>
    exact .cons ⟨taken, all _ List.mem_cons_self _⟩ (ih fun label later => all label (List.mem_cons_of_mem _ later))

end CreeperKernel.Transitions

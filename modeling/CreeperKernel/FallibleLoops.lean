import CreeperKernel.Outcome
import CreeperKernel.Transitions
import Mathlib.Data.Set.Basic
import Mathlib.Algebra.GroupWithZero.Nat

/- Loops over a state whose rounds report success or failure; the first failure
ends the loop. A loop that succeeds is a run of the steps its rounds take, and it
succeeds when its budget covers the rounds one by one. -/
namespace CreeperKernel.FallibleLoops

open Transitions (Run)

variable {State α β Label : Type}

/-- Going on only after success. -/
def andThen (first : Outcome (Bool × State)) (next : State → Outcome (Bool × State)) :
    Outcome (Bool × State) := do
  let (done, s) ← first
  if done then next s else pure (false, s)

def forEach (xs : List α) (body : α → State → Outcome (Bool × State)) (s : State) :
    Outcome (Bool × State) :=
  match xs with
  | [] => pure (true, s)
  | x :: xs => andThen (body x s) (forEach xs body)

variable {s s' : State}

theorem andThen_eq_true {first : Outcome (Bool × State)} {next : State → Outcome (Bool × State)} :
    andThen first next = .ok (true, s) ↔ ∃ middle, first = .ok (true, middle) ∧ next middle = .ok (true, s) := by
  constructor
  · intro both
    obtain ⟨⟨done, middle⟩, front, back⟩ := Outcome.bind_eq_ok.mp both
    cases done with
    | true => exact ⟨middle, front, back⟩
    | false => cases back
  · rintro ⟨middle, front, back⟩
    rw [andThen, front, Outcome.ok_bind]
    exact back

/-- Going on only with a result. -/
def withSome (first : Outcome (Option α)) (next : α → Outcome (Option β)) : Outcome (Option β) := do
  match ← first with
  | none => pure none
  | some a => next a

theorem withSome_eq_some {first : Outcome (Option α)} {next : α → Outcome (Option β)} {b : β} :
    withSome first next = .ok (some b) ↔ ∃ a, first = .ok (some a) ∧ next a = .ok (some b) := by
  constructor
  · intro both
    obtain ⟨result, front, back⟩ := Outcome.bind_eq_ok.mp both
    cases result with
    | some a => exact ⟨a, front, back⟩
    | none => cases back
  · rintro ⟨a, front, back⟩
    rw [withSome, front, Outcome.ok_bind]
    exact back

variable {xs : List α}

/-- A successful loop takes, in order, the steps of its rounds, and so every step
that one of the rounds must take. -/
theorem forEach_run {step : State → Label → State → Prop} {inv : State → Prop} (wanted : α → Set Label)
    {body : α → State → Outcome (Bool × State)}
    (each : ∀ x ∈ xs, ∀ s s', inv s → body x s = .ok (true, s') → inv s' ∧ ∃ labels, Run step s labels s' ∧ ∀ label ∈ wanted x, label ∈ labels)
    (start : inv s) (done : forEach xs body s = .ok (true, s')) :
    inv s' ∧ ∃ labels, Run step s labels s' ∧ ∀ x ∈ xs, ∀ label ∈ wanted x, label ∈ labels := by
  induction xs generalizing s with
  | nil =>
    cases done
    exact ⟨start, [], .nil _, by simp⟩
  | cons x xs ih =>
    obtain ⟨middle, round, others⟩ := andThen_eq_true.mp done
    obtain ⟨kept, first, front, covers⟩ := each x List.mem_cons_self s middle start round
    obtain ⟨after, rest, back, later⟩ :=
      ih (fun y member => each y (List.mem_cons_of_mem x member)) kept others
    refine ⟨after, first ++ rest, front.append back, ?_⟩
    intro y member label want
    apply List.mem_append.mpr
    rcases List.mem_cons.mp member with rfl | member
    · exact .inl (covers label want)
    · exact .inr (later y member label want)

/-- A loop succeeds when each round does and takes no more than its share of the
budget. -/
theorem forEach_succeeds {ready : Nat → State → Prop} (cost : α → Nat) {body : α → State → Outcome (Bool × State)}
    (each : ∀ x ∈ xs, ∀ left s, ready (cost x + left) s → ∃ s', body x s = .ok (true, s') ∧ ready left s')
    {left : Nat} (start : ready ((xs.map cost).sum + left) s) :
    ∃ s', forEach xs body s = .ok (true, s') ∧ ready left s' := by
  induction xs generalizing s with
  | nil =>
    rw [List.map_nil, List.sum_nil, Nat.zero_add] at start
    exact ⟨s, rfl, start⟩
  | cons x xs ih =>
    rw [List.map_cons, List.sum_cons, Nat.add_assoc] at start
    obtain ⟨middle, round, rest⟩ := each x List.mem_cons_self _ s start
    obtain ⟨s', others, after⟩ :=
      ih (fun y member => each y (List.mem_cons_of_mem x member)) rest
    exact ⟨s', andThen_eq_true.mpr ⟨middle, round, others⟩, after⟩

variable {body : State → α → Outcome State} {count : Nat}

theorem foldlM_keeps (inv : State → Prop) (each : ∀ x ∈ xs, ∀ s s', inv s → body s x = .ok s' → inv s')
    (start : inv s) (done : xs.foldlM body s = .ok s') : inv s' := by
  induction xs generalizing s with
  | nil =>
    cases done
    exact start
  | cons x xs ih =>
    rw [List.foldlM_cons] at done
    obtain ⟨middle, round, others⟩ := Outcome.bind_eq_ok.mp done
    exact ih (fun y member => each y (List.mem_cons_of_mem x member))
      (each x List.mem_cons_self s middle start round) others

theorem foldlM_succeeds (inv : State → Prop) (each : ∀ x ∈ xs, ∀ s, inv s → ∃ s', body s x = .ok s' ∧ inv s')
    (start : inv s) : ∃ s', xs.foldlM body s = .ok s' ∧ inv s' := by
  induction xs generalizing s with
  | nil => exact ⟨s, rfl, start⟩
  | cons x xs ih =>
    obtain ⟨middle, round, kept⟩ := each x List.mem_cons_self s start
    obtain ⟨s', others, after⟩ :=
      ih (fun y member => each y (List.mem_cons_of_mem x member)) kept
    refine ⟨s', ?_, after⟩
    rw [List.foldlM_cons, round, Outcome.ok_bind, others]

theorem foldlM_concat {x : α} (done : (xs ++ [x]).foldlM body s = .ok s') :
    ∃ middle, xs.foldlM body s = .ok middle ∧ body middle x = .ok s' := by
  induction xs generalizing s with
  | nil =>
    rw [List.nil_append, List.foldlM_cons] at done
    obtain ⟨last, round, same⟩ := Outcome.bind_eq_ok.mp done
    cases same
    exact ⟨s, rfl, round⟩
  | cons y xs ih =>
    rw [List.cons_append, List.foldlM_cons] at done
    obtain ⟨next, round, others⟩ := Outcome.bind_eq_ok.mp done
    obtain ⟨middle, front, last⟩ := ih others
    refine ⟨middle, ?_, last⟩
    rw [List.foldlM_cons, round, Outcome.ok_bind]
    exact front

theorem foldlM_append_of {ys : List α} {middle : State} (front : xs.foldlM body s = .ok middle) :
    (xs ++ ys).foldlM body s = ys.foldlM body middle := by
  induction xs generalizing s with
  | nil =>
    cases front
    rfl
  | cons x xs ih =>
    rw [List.foldlM_cons] at front
    obtain ⟨next, round, others⟩ := Outcome.bind_eq_ok.mp front
    rw [List.cons_append, List.foldlM_cons, round, Outcome.ok_bind]
    exact ih others

/-- A counting loop with an invariant that knows the number of rounds. -/
theorem foldlM_range_succeeds (inv : Nat → State → Prop) {body : State → Nat → Outcome State}
    (each : ∀ i < count, ∀ s, inv i s → ∃ s', body s i = .ok s' ∧ inv (i + 1) s') (start : inv 0 s) :
    ∃ s', (List.range count).foldlM body s = .ok s' ∧ inv count s' := by
  induction count with
  | zero => exact ⟨s, rfl, start⟩
  | succ count ih =>
    obtain ⟨middle, front, kept⟩ := ih fun i below => each i (Nat.lt_succ_of_lt below)
    obtain ⟨s', last, after⟩ := each count (Nat.lt_succ_self count) middle kept
    refine ⟨s', ?_, after⟩
    rw [List.range_succ, foldlM_append_of front, List.foldlM_cons, last, Outcome.ok_bind]
    rfl

theorem foldlM_range_keeps (inv : Nat → State → Prop) {body : State → Nat → Outcome State}
    (each : ∀ i < count, ∀ s s', inv i s → body s i = .ok s' → inv (i + 1) s') (start : inv 0 s)
    (done : (List.range count).foldlM body s = .ok s') : inv count s' := by
  induction count generalizing s' with
  | zero =>
    cases done
    exact start
  | succ count ih =>
    rw [List.range_succ] at done
    obtain ⟨middle, front, last⟩ := foldlM_concat done
    have kept := ih (fun i below => each i (Nat.lt_succ_of_lt below)) front
    exact each count (Nat.lt_succ_self count) middle s' kept last

end CreeperKernel.FallibleLoops

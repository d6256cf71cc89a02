import Mathlib.Order.CompletePartialOrder
import Mathlib.Data.Set.BooleanAlgebra

/- Tables whose slots own disjoint sets of cells. The lemmas say which edits of a
table keep its slots apart: drawing slots from other slots, growing a slot by
cells nobody owns, and letting one slot take over the cells of others. -/
namespace CreeperKernel.DisjointFamilies

variable {ι α β : Type*} {cells : α → Set β} {t t' : ι → α}

def Apart (cells : α → Set β) (t : ι → α) : Prop :=
  ∀ a b, a ≠ b → Disjoint (cells (t a)) (cells (t b))

def covered (cells : α → Set β) (t : ι → α) : Set β := {x | ∃ k, x ∈ cells (t k)}

theorem cells_subset_covered (k : ι) : cells (t k) ⊆ covered cells t := fun _ inside => ⟨k, inside⟩

theorem covered_subset {target : Set β} (each : ∀ k, cells (t k) ⊆ target) : covered cells t ⊆ target := by
  rintro x ⟨k, inside⟩
  exact each k inside

theorem Apart.drawn (apart : Apart cells t) (source : ι → ι) (within : ∀ k, cells (t' k) ⊆ cells (t (source k)))
    (own : ∀ a b, a ≠ b → (cells (t' a)).Nonempty → (cells (t' b)).Nonempty → source a ≠ source b) : Apart cells t' := by
  intro a b other
  rw [Set.disjoint_left]
  intro x left right
  have sources := own a b other ⟨x, left⟩ ⟨x, right⟩
  exact Set.disjoint_left.mp (apart _ _ sources) (within a left) (within b right)

theorem covered_drawn (source : ι → ι) (within : ∀ k, cells (t' k) ⊆ cells (t (source k))) :
    covered cells t' ⊆ covered cells t :=
  covered_subset fun k => (within k).trans (cells_subset_covered (source k))

theorem Apart.gather (apart : Apart cells t) (i : ι) (members : ι → Prop)
    (here : cells (t' i) ⊆ {x | ∃ k, members k ∧ x ∈ cells (t k)}) (emptied : ∀ k, k ≠ i → members k → cells (t' k) = ∅)
    (kept : ∀ k, k ≠ i → ¬ members k → cells (t' k) = cells (t k)) : Apart cells t' := by
  have against : ∀ k, k ≠ i → Disjoint (cells (t' i)) (cells (t' k)) := by
    intro k other
    by_cases member : members k
    · rw [emptied k other member]
      exact Set.disjoint_empty _
    · rw [kept k other member, Set.disjoint_left]
      intro x inside theirs
      obtain ⟨source, belongs, owned⟩ := here inside
      have distinct : source ≠ k := by
        rintro rfl
        exact member belongs
      exact Set.disjoint_left.mp (apart source k distinct) owned theirs
  intro a b other
  by_cases left : a = i
  · subst left
    exact against b other.symm
  · by_cases right : b = i
    · subst right
      exact (against a left).symm
    · by_cases memberA : members a
      · rw [emptied a left memberA]
        exact Set.empty_disjoint _
      · by_cases memberB : members b
        · rw [emptied b right memberB]
          exact Set.disjoint_empty _
        · rw [kept a left memberA, kept b right memberB]
          exact apart a b other

section Update

variable [DecidableEq ι] {r : ι} {u : α}

variable {new : Set β}

theorem Apart.grow (apart : Apart cells t) (within : cells u ⊆ cells (t r) ∪ new)
    (unowned : Disjoint new (covered cells t)) : Apart cells (Function.update t r u) := by
  have against : ∀ k, k ≠ r → Disjoint (cells u) (cells (t k)) := by
    intro k other
    apply Disjoint.mono_left within
    rw [Set.disjoint_union_left]
    exact ⟨apart r k other.symm, unowned.mono_right (cells_subset_covered k)⟩
  intro a b other
  by_cases left : a = r
  · subst left
    rw [Function.update_self, Function.update_of_ne other.symm]
    exact against b other.symm
  · by_cases right : b = r
    · subst right
      rw [Function.update_self, Function.update_of_ne left]
      exact (against a left).symm
    · rw [Function.update_of_ne left, Function.update_of_ne right]
      exact apart a b other

theorem covered_update (within : cells u ⊆ cells (t r) ∪ new) :
    covered cells (Function.update t r u) ⊆ covered cells t ∪ new := by
  apply covered_subset
  intro k
  by_cases here : k = r
  · subst here
    rw [Function.update_self]
    exact within.trans (Set.union_subset_union_left new (cells_subset_covered k))
  · rw [Function.update_of_ne here]
    exact (cells_subset_covered k).trans Set.subset_union_left

end Update

end CreeperKernel.DisjointFamilies

import Mathlib.Data.List.Nodup
import Mathlib.Data.List.TakeWhile

/- The elements of a list in the order in which a round that begins behind one of them
meets them. -/
namespace CreeperKernel.CyclicOrder

variable {α : Type*} [DecidableEq α]

/-- What comes behind `c`, then what comes before it, then `c`. A list without `c` is met from
its front. -/
def after (c : α) (xs : List α) : List α :=
  (xs.dropWhile (· != c)).tail ++ xs.takeWhile (· != c) ++ (xs.dropWhile (· != c)).take 1

variable {c t : α} {xs front back : List α} {p : α → Bool}

theorem after_of_not_mem (absent : c ∉ xs) : after c xs = xs := by
  have keep : ∀ x ∈ xs, (x != c) = true := by
    intro x member
    simp only [bne_iff_ne, ne_eq]
    exact fun same => absent (same ▸ member)
  have none : xs.dropWhile (· != c) = [] := List.dropWhile_eq_nil_iff.mpr keep
  have all : xs.takeWhile (· != c) = xs := List.takeWhile_eq_self_iff.mpr keep
  rw [after, none, all, List.tail_nil, List.take_nil, List.nil_append, List.append_nil]

theorem after_append_cons (once : (front ++ c :: back).Nodup) : after c (front ++ c :: back) = back ++ front ++ [c] := by
  have ⟨_, _, apart⟩ := List.nodup_append.mp once
  have keep : ∀ x ∈ front, (x != c) = true := by
    intro x member
    simp only [bne_iff_ne, ne_eq]
    exact apart x member c List.mem_cons_self
  have rest : (front ++ c :: back).dropWhile (· != c) = c :: back := by
    rw [List.dropWhile_append_of_pos keep, List.dropWhile_cons_of_neg (by simp)]
  have before : (front ++ c :: back).takeWhile (· != c) = front := by
    rw [List.takeWhile_append_of_pos keep, List.takeWhile_cons_of_neg (by simp), List.append_nil]
  rw [after, rest, before, List.tail_cons, List.take_succ_cons, List.take_zero]

theorem after_perm (c : α) (once : xs.Nodup) : (after c xs).Perm xs := by
  by_cases member : c ∈ xs
  · have ⟨front, back, cut⟩ := List.append_of_mem member
    subst cut
    rw [after_append_cons once, List.append_assoc]
    have turned : (back ++ (front ++ [c])).Perm (front ++ [c] ++ back) := List.perm_append_comm
    rw [List.append_assoc] at turned
    exact turned
  · rw [after_of_not_mem member]

theorem after_step {u v : List α} (once : xs.Nodup) (met : after c xs = u ++ t :: v) : after t xs = v ++ u ++ [t] := by
  by_cases member : c ∈ xs
  · have ⟨front, back, cut⟩ := List.append_of_mem member
    subst cut
    rw [after_append_cons once, List.append_assoc] at met
    have place : (∃ as, u = back ++ as ∧ front ++ [c] = as ++ t :: v) ∨
        ∃ bs, back = u ++ t :: bs ∧ v = bs ++ (front ++ [c]) := by
      rcases List.append_eq_append_iff.mp met with before | ⟨bs, atBack, rest⟩
      · exact .inl before
      · cases bs with
        | nil => exact .inl ⟨[], by rw [atBack, List.append_nil, List.append_nil], rest.symm⟩
        | cons z bs =>
          cases rest
          exact .inr ⟨bs, atBack, rfl⟩
    rcases place with ⟨as, atU, rest⟩ | ⟨bs, atBack, atV⟩
    · subst atU
      rcases List.eq_nil_or_concat v with last | ⟨v', z, last⟩
      · -- `t` is `c` itself
        subst last
        have ⟨same, single⟩ := List.append_inj' rest rfl
        cases single
        subst same
        exact after_append_cons once
      · -- `t` comes before `c`
        subst last
        rw [List.concat_eq_append, ← List.cons_append, ← List.append_assoc] at rest
        have ⟨same, single⟩ := List.append_inj' rest rfl
        cases single
        subst same
        rw [List.append_assoc, List.cons_append] at once ⊢
        rw [after_append_cons once]
        simp
    · -- `t` comes behind `c`
      subst atBack atV
      rw [← List.cons_append, ← List.append_assoc] at once ⊢
      rw [after_append_cons once]
      simp
  · rw [after_of_not_mem member] at met
    subst met
    exact after_append_cons once

end CreeperKernel.CyclicOrder

import CreeperKernel.DisjointFamilies
import CreeperKernel.HeapRegions
import Mathlib.Order.Interval.Set.Disjoint

namespace CreeperKernel.Heap

open DisjointFamilies

/-- The addresses of a region. -/
def cells (r : FreeRegion) : Set Nat := Set.Ico r.baseAddr (r.baseAddr + r.length)

@[simp] theorem mem_cells (r : FreeRegion) (a : Nat) :
    a ∈ cells r ↔ r.baseAddr ≤ a ∧ a < r.baseAddr + r.length := Iff.rfl

@[simp] theorem cells_hole : cells .hole = ∅ := by
  simp [cells, FreeRegion.hole]

/-- A region of the upper address space. It may end at the top of the address
space, where its `stop` wraps to 0. -/
structure Proper (r : FreeRegion) : Prop where
  nonempty : 0 < r.length
  above : 0x10000 ≤ r.baseAddr
  bounded : r.baseAddr + r.length ≤ 2 ^ 64

def WellFormed (r : FreeRegion) : Prop := r = .hole ∨ Proper r

variable {r u : FreeRegion}

theorem WellFormed.proper (formed : WellFormed r) (used : r.length ≠ 0) : Proper r := by
  rcases formed with rfl | proper
  · exact absurd rfl used
  · exact proper

theorem Proper.stop_eq (proper : Proper r) (positive : 0 < r.stop) : r.stop = r.baseAddr + r.length := by
  have bounded := proper.bounded
  unfold FreeRegion.stop at positive ⊢
  omega

theorem FreeRegion.stop_lt (r : FreeRegion) : r.stop < 2 ^ 64 := Nat.mod_lt _ (by decide)

theorem sub64_eq {a b : Nat} (ordered : b ≤ a) (bounded : a < 2 ^ 64) : sub64 a b = a - b := by
  unfold sub64
  omega

/-- The slots hold disjoint, well-formed regions. -/
structure Tidy (regs : Regions) : Prop where
  formed : ∀ k, WellFormed (regs k)
  apart : Apart cells regs

abbrev freeCells (regs : Regions) : Set Nat := covered cells regs

variable {regs : Regions}

theorem Tidy.drawn {after : Regions} (tidy : Tidy regs) (source : Nat → Nat)
    (origin : ∀ k, after k = .hole ∨ after k = regs (source k))
    (own : ∀ a b, a ≠ b → after a ≠ .hole → after b ≠ .hole → source a ≠ source b) :
    Tidy after ∧ freeCells after ⊆ freeCells regs := by
  have within : ∀ k, cells (after k) ⊆ cells (regs (source k)) := by
    intro k
    rcases origin k with hole | same
    · rw [hole, cells_hole]
      exact Set.empty_subset _
    · rw [same]
  have used : ∀ k, (cells (after k)).Nonempty → after k ≠ .hole := by
    intro k nonempty hole
    rw [hole, cells_hole] at nonempty
    exact Set.not_nonempty_empty nonempty
  refine ⟨⟨fun k => ?_, ?_⟩, covered_drawn source within⟩
  · rcases origin k with hole | same
    · exact Or.inl hole
    · rw [same]
      exact tidy.formed (source k)
  · apply tidy.apart.drawn source within
    intro a b other left right
    exact own a b other (used a left) (used b right)

theorem shiftDown_aux (regs : Regions) (start n k : Nat) :
    (List.range' start n).foldl (fun regs k => Function.update regs k (regs (k + 1))) regs k =
      if start ≤ k ∧ k < start + n then regs (k + 1) else regs k := by
  induction n generalizing regs start with
  | zero =>
    rw [if_neg (by omega)]
    rfl
  | succ n ih =>
    rw [List.range'_succ, List.foldl_cons, ih]
    by_cases here : k = start
    · subst here
      rw [if_neg (by omega), if_pos (by omega), Function.update_self]
    · rw [Function.update_of_ne here]
      by_cases later : start + 1 ≤ k ∧ k < start + 1 + n
      · rw [if_pos later, if_pos (by omega), Function.update_of_ne (by omega)]
      · rw [if_neg later, if_neg (by omega)]

variable {j bound : Nat}

theorem dropSlot_apply (regs : Regions) (inside : j < bound) (k : Nat) : dropSlot regs j bound k =
      if k = bound - 1 then .hole else if j ≤ k ∧ k + 1 < bound then regs (k + 1) else regs k := by
  unfold dropSlot shiftDown
  by_cases last : k = bound - 1
  · rw [if_pos last, last, Function.update_self]
  · rw [if_neg last, Function.update_of_ne last, shiftDown_aux]
    by_cases moved : j ≤ k ∧ k + 1 < bound
    · rw [if_pos moved, if_pos (by omega)]
    · rw [if_neg moved, if_neg (by omega)]

theorem dropSlot_tidy (inside : j < bound) (tidy : Tidy (Function.update regs j .hole)) : Tidy (dropSlot regs j bound) ∧
      freeCells (dropSlot regs j bound) ⊆ freeCells (Function.update regs j .hole) := by
  have last : ∀ k, dropSlot regs j bound k ≠ .hole → k ≠ bound - 1 := by
    rintro k used rfl
    rw [dropSlot_apply regs inside, if_pos rfl] at used
    exact used rfl
  apply tidy.drawn fun k => if j ≤ k ∧ k + 1 < bound then k + 1 else k
  · intro k
    rw [dropSlot_apply regs inside]
    by_cases atEnd : k = bound - 1
    · rw [if_pos atEnd]
      exact Or.inl rfl
    · right
      rw [if_neg atEnd]
      by_cases moved : j ≤ k ∧ k + 1 < bound
      · rw [if_pos moved, if_pos moved, Function.update_of_ne (by omega)]
      · rw [if_neg moved, if_neg moved, Function.update_of_ne (by omega)]
  · intro a b other left right
    have lastA := last a left
    have lastB := last b right
    split <;> split <;> omega

theorem Tidy.take_over (tidy : Tidy regs) {r : Nat} (other : r ≠ j) (proper : WellFormed u)
    (union : cells u ⊆ cells (regs r) ∪ cells (regs j)) : Tidy (Function.update (Function.update regs r u) j .hole) ∧
      freeCells (Function.update (Function.update regs r u) j .hole) ⊆ freeCells regs := by
  have atR : Function.update (Function.update regs r u) j .hole r = u := by
    rw [Function.update_of_ne other, Function.update_self]
  have elsewhere : ∀ k, k ≠ r → k ≠ j →
      Function.update (Function.update regs r u) j FreeRegion.hole k = regs k := by
    intro k notR notJ
    rw [Function.update_of_ne notJ, Function.update_of_ne notR]
  refine ⟨⟨fun k => ?_, ?_⟩, covered_subset fun k => ?_⟩
  · by_cases isJ : k = j
    · rw [isJ, Function.update_self]
      exact Or.inl rfl
    · by_cases isR : k = r
      · rw [isR, atR]
        exact proper
      · rw [elsewhere k isR isJ]
        exact tidy.formed k
  · apply tidy.apart.gather r fun k => k = r ∨ k = j
    · rw [atR]
      intro x inside
      rcases union inside with mine | theirs
      · exact ⟨r, Or.inl rfl, mine⟩
      · exact ⟨j, Or.inr rfl, theirs⟩
    · rintro k notR (isR | rfl)
      · exact absurd isR notR
      · rw [Function.update_self, cells_hole]
    · intro k notR outside
      rw [not_or] at outside
      rw [elsewhere k outside.1 outside.2]
  · by_cases isJ : k = j
    · rw [isJ, Function.update_self, cells_hole]
      exact Set.empty_subset _
    · by_cases isR : k = r
      · rw [isR, atR]
        exact union.trans (Set.union_subset (cells_subset_covered r) (cells_subset_covered j))
      · rw [elsewhere k isR isJ]
        exact cells_subset_covered k

theorem Tidy.replace (tidy : Tidy regs) {r : Nat} (new : Set Nat) (proper : WellFormed u)
    (within : cells u ⊆ cells (regs r) ∪ new) (unowned : Disjoint new (freeCells regs)) :
    Tidy (Function.update regs r u) ∧ freeCells (Function.update regs r u) ⊆ freeCells regs ∪ new := by
  refine ⟨⟨fun k => ?_, tidy.apart.grow within unowned⟩, covered_update within⟩
  by_cases here : k = r
  · rw [here, Function.update_self]
    exact proper
  · rw [Function.update_of_ne here]
    exact tidy.formed k

theorem Tidy.clear (tidy : Tidy regs) (r : Nat) : Tidy (Function.update regs r .hole) ∧
      freeCells (Function.update regs r .hole) ⊆ freeCells regs := by
  have cleared := tidy.replace (r := r) (u := .hole) ∅ (Or.inl rfl) (by simp) (by simp)
  rw [Set.union_empty] at cleared
  exact cleared

theorem merge_ranges {a₀ a₁ b₀ b₁ : Nat} (left : a₀ < a₁) (right : b₀ < b₁)
    (touch : a₀ ≤ b₁) (touch' : b₀ ≤ a₁) (boundA : a₁ < 2 ^ 64) (boundB : b₁ < 2 ^ 64) :
    let start := if a₀ < b₀ then a₀ else b₀
    let finish := if b₁ < a₁ then a₁ else b₁
    start < finish ∧ start + sub64 finish start = finish ∧
      ∀ x, start ≤ x ∧ x < finish ↔ (a₀ ≤ x ∧ x < a₁) ∨ (b₀ ≤ x ∧ x < b₁) := by
  intro start finish
  have ordered : start < finish := by
    simp only [start, finish]
    split <;> split <;> omega
  have bound : finish < 2 ^ 64 := by
    simp only [finish]
    split <;> assumption
  refine ⟨ordered, ?_, fun x => ?_⟩
  · rw [sub64_eq (by omega) bound]
    omega
  · simp only [start, finish]
    split <;> split <;> omega

end CreeperKernel.Heap

import CreeperKernel.HeapTable

namespace CreeperKernel.Heap

open DisjointFamilies
open Pmm (pageSize mul_pageSize div_pageSize mod_pageSize)

theorem merge_touching {a b : FreeRegion} (left : Proper a) (right : Proper b)
    (touch : a.baseAddr ≤ b.stop) (touch' : b.baseAddr ≤ a.stop) :
    let start := if a.baseAddr < b.baseAddr then a.baseAddr else b.baseAddr
    let finish := if b.stop < a.stop then a.stop else b.stop
    Proper ⟨start, sub64 finish start⟩ ∧
      cells ⟨start, sub64 finish start⟩ = cells a ∪ cells b := by
  intro start finish
  have aboveA := left.above
  have aboveB := right.above
  have stopA := left.stop_eq (by omega)
  have stopB := right.stop_eq (by omega)
  have nonemptyA := left.nonempty
  have nonemptyB := right.nonempty
  obtain ⟨ordered, length, members⟩ :=
    merge_ranges (by omega) (by omega) touch touch' a.stop_lt b.stop_lt
  have bound : finish < 2 ^ 64 := by
    simp only [finish]
    split
    · exact a.stop_lt
    · exact b.stop_lt
  refine ⟨⟨?_, ?_, ?_⟩, ?_⟩
  · simp only [start, finish] at *
    omega
  · simp only [start]
    split <;> omega
  · simp only [start, finish] at *
    omega
  · ext x
    rw [mem_cells, Set.mem_union, mem_cells, mem_cells, ← stopA, ← stopB, ← members x]
    simp only [start, finish] at *
    omega

variable {j i base : Nat} {regs : Regions}

/-- One merge of the inner loop, the self-merge of a stale pointer included. -/
theorem absorb_tidy (tidy : Tidy regs) {slot : Nat} (touch : (regs slot).baseAddr ≤ (regs j).stop)
    (touch' : (regs j).baseAddr ≤ (regs slot).stop) :
    let region := regs slot
    let other := regs j
    let start := if region.baseAddr < other.baseAddr then region.baseAddr else other.baseAddr
    let finish := if other.stop < region.stop then region.stop else other.stop
    Tidy (Function.update (Function.update regs slot ⟨start, sub64 finish start⟩) j .hole) ∧
      freeCells (Function.update (Function.update regs slot ⟨start, sub64 finish start⟩) j .hole) ⊆
        freeCells regs := by
  intro region other start finish
  by_cases self : slot = j
  · rw [self, Function.update_idem]
    exact tidy.clear j
  · rcases tidy.formed slot with hole | proper
    · -- a hole only touches other holes
      have zero : regs j = .hole := by
        rcases tidy.formed j with same | proper
        · exact same
        · have above := proper.above
          rw [hole] at touch'
          simp only [FreeRegion.stop, FreeRegion.hole] at touch'
          omega
      have result : (⟨start, sub64 finish start⟩ : FreeRegion) = .hole := by
        simp only [start, finish, region, other, hole, zero]
        rfl
      rw [result]
      exact tidy.take_over self (Or.inl rfl) (by simp)
    · have used : Proper (regs j) := by
        rcases tidy.formed j with hole | used
        · have above := proper.above
          rw [hole] at touch
          simp only [FreeRegion.stop, FreeRegion.hole] at touch
          omega
        · exact used
      obtain ⟨merged, union⟩ := merge_touching proper used touch touch'
      exact tidy.take_over self (Or.inr merged) union.subset

theorem absorbNeighbours_spec (slot : Nat) (fuel i j : Nat) (m : RegionMap) (tidy : Tidy m.freeRegions) :
    Tidy (absorbNeighbours slot fuel i j m).freeRegions ∧
      freeCells (absorbNeighbours slot fuel i j m).freeRegions ⊆ freeCells m.freeRegions ∧
      (absorbNeighbours slot fuel i j m).freeRegionCount ≤ m.freeRegionCount := by
  induction fuel generalizing i j m with
  | zero => exact ⟨tidy, subset_rfl, Nat.le_refl _⟩
  | succ fuel ih =>
    unfold absorbNeighbours
    split
    · rename_i inside
      split
      · exact ih i (j + 1) m tidy
      · dsimp only
        split
        · rename_i touches
          have merged := absorb_tidy tidy touches.1 touches.2
          have dropped := dropSlot_tidy inside merged.1
          have rest := ih (if j < i then i - 1 else i) j ⟨_, m.freeRegionCount - 1⟩ dropped.1
          exact ⟨rest.1, rest.2.1.trans (dropped.2.trans merged.2),
            rest.2.2.trans (Nat.sub_le _ _)⟩
        · exact ih i (j + 1) m tidy
    · exact ⟨tidy, subset_rfl, Nat.le_refl _⟩

variable {m : RegionMap}

theorem forceFreeScan_spec {newStart newEnd : Nat} (tidy : Tidy m.freeRegions)
    (count : m.freeRegionCount ≤ maxFreeRegions) (above : 0x10000 ≤ newStart) (ordered : newStart < newEnd)
    (bounded : newEnd < 2 ^ 64) (unowned : Disjoint (Set.Ico newStart newEnd) (freeCells m.freeRegions))
    (slots : List Nat) : Tidy (forceFreeScan newStart newEnd m slots).freeRegions ∧
      freeCells (forceFreeScan newStart newEnd m slots).freeRegions ⊆ freeCells m.freeRegions ∪ Set.Ico newStart newEnd ∧
      (forceFreeScan newStart newEnd m slots).freeRegionCount ≤ maxFreeRegions := by
  have length : newStart + sub64 newEnd newStart = newEnd := by
    rw [sub64_eq (by omega) bounded]
    omega
  have fresh : Proper ⟨newStart, sub64 newEnd newStart⟩ := by
    refine ⟨?_, above, ?_⟩ <;> simp only <;> omega
  have exact : cells ⟨newStart, sub64 newEnd newStart⟩ = Set.Ico newStart newEnd := by
    simp [cells, length]
  have stop : (FreeRegion.mk newStart (sub64 newEnd newStart)).stop = newEnd := by
    rw [FreeRegion.stop, length, Nat.mod_eq_of_lt bounded]
  induction slots with
  | nil =>
    unfold forceFreeScan
    split
    · rename_i room
      have placed := tidy.replace (r := m.freeRegionCount) (Set.Ico newStart newEnd)
        (Or.inr fresh) (exact ▸ Set.subset_union_right) unowned
      exact ⟨placed.1, placed.2, room⟩
    · exact ⟨tidy, Set.subset_union_left, count⟩
  | cons i slots ih =>
    unfold forceFreeScan
    dsimp only
    split
    · rename_i touches
      have proper : Proper (m.freeRegions i) := by
        rcases tidy.formed i with hole | proper
        · have far := touches.2
          rw [hole] at far
          simp only [FreeRegion.stop, FreeRegion.hole] at far
          omega
        · exact proper
      have joined := merge_touching fresh proper touches.2 (by rw [stop]; exact touches.1)
      rw [stop, exact, Set.union_comm] at joined
      have merged := tidy.replace (r := i) (Set.Ico newStart newEnd) (Or.inr joined.1)
        joined.2.subset unowned
      have rest := absorbNeighbours_spec i m.freeRegionCount i 0 ⟨_, m.freeRegionCount⟩ merged.1
      exact ⟨rest.1, rest.2.1.trans merged.2, rest.2.2.trans count⟩
    · exact ih

theorem page_end {a n : Nat} (bounded : 4096 * a + 4096 * n ≤ 2 ^ 64)
    (far : 0 < 4096 * ((4096 * a + 4096 * n + 0xFFF) % 2 ^ 64 / 4096)) :
    4096 * ((4096 * a + 4096 * n + 0xFFF) % 2 ^ 64 / 4096) = 4096 * a + 4096 * n := by
  omega

theorem forceFreeNolock_spec {address pages : Nat} (tidy : Tidy m.freeRegions)
    (count : m.freeRegionCount ≤ maxFreeRegions) (aligned : address % pageSize = 0) (above : 0xFFFF < address)
    (positive : 0 < pages) (bounded : address + pages * pageSize ≤ 2 ^ 64)
    (unowned : Disjoint (Set.Ico address (address + pages * pageSize)) (freeCells m.freeRegions)) :
    Tidy (forceFreeNolock m address (pages * pageSize)).freeRegions ∧
      freeCells (forceFreeNolock m address (pages * pageSize)).freeRegions ⊆
        freeCells m.freeRegions ∪ Set.Ico address (address + pages * pageSize) ∧
      (forceFreeNolock m address (pages * pageSize)).freeRegionCount ≤ maxFreeRegions := by
  rw [mod_pageSize] at aligned
  obtain ⟨page, rfl⟩ : ∃ page, address = 4096 * page := ⟨address / 4096, by omega⟩
  rw [mul_pageSize] at bounded unowned
  have start : 4096 * (4096 * page / 4096) = 4096 * page := by omega
  unfold forceFreeNolock
  simp only [mul_pageSize, div_pageSize, start]
  split
  · exact ⟨tidy, Set.subset_union_left, count⟩
  · rename_i far
    -- a range that reaches the top of the address space wraps and is not recorded
    have finish := page_end bounded (by omega)
    rw [finish, if_neg (by omega)]
    apply forceFreeScan_spec tidy count (by omega) _ _ unowned
    · omega
    · omega

/-- The slots merged so far are exactly the range that starts at slot `i`. -/
structure ChainOk (m : RegionMap) (i : Nat) (c : Chain) : Prop where
  self : c.merged i = true
  members : ∀ k, c.merged k = true → k < m.freeRegionCount ∧ Proper (m.freeRegions k)
  bounded : (m.freeRegions i).baseAddr + c.currSize ≤ 2 ^ 64
  range : ∀ x, ((m.freeRegions i).baseAddr ≤ x ∧ x < (m.freeRegions i).baseAddr + c.currSize) ↔
    ∃ k, c.merged k = true ∧ x ∈ cells (m.freeRegions k)

variable {c : Chain}

theorem chainStep_ok (tidy : Tidy m.freeRegions) (ok : ChainOk m i c) (inside : j < m.freeRegionCount) :
    ChainOk m i (chainStep m.freeRegions (m.freeRegions i).baseAddr c j) := by
  unfold chainStep
  split
  · exact ok
  · rename_i candidate
    rw [not_or] at candidate
    split
    · rename_i adjacent
      have proper := (tidy.formed j).proper candidate.2
      have above := proper.above
      have top := proper.bounded
      have nonempty := proper.nonempty
      have bounded := ok.bounded
      have base : (m.freeRegions j).baseAddr = (m.freeRegions i).baseAddr + c.currSize := by omega
      have size : (c.currSize + (m.freeRegions j).length) % 2 ^ 64 =
          c.currSize + (m.freeRegions j).length := by
        apply Nat.mod_eq_of_lt
        have low := (ok.members i ok.self).2.above
        omega
      have merged : ∀ k, Function.update c.merged j true k = true ↔ k = j ∨ c.merged k = true := by
        intro k
        by_cases here : k = j
        · simp [here]
        · simp [here]
      refine ⟨?_, ?_, ?_, ?_⟩
      · exact (merged i).mpr (Or.inr ok.self)
      · intro k member
        rcases (merged k).mp member with rfl | old
        · exact ⟨inside, proper⟩
        · exact ok.members k old
      · simp only [size]
        omega
      · intro x
        simp only [size, merged, or_and_right, exists_or, exists_eq_left]
        rw [← ok.range x, mem_cells]
        omega
    · exact ok

theorem chainStep_merged {k : Nat} (old : c.merged k = true) : (chainStep regs base c j).merged k = true := by
  unfold chainStep
  split
  · exact old
  · split
    · by_cases here : k = j
      · simp [here]
      · simpa [here] using old
    · exact old

/-- A pass keeps the slots it has merged, and one that reports a change has merged a new one. -/
theorem chainPass_grows (m : RegionMap) (base : Nat) (c : Chain) :
    (∀ k, c.merged k = true → (chainPass m base c).merged k = true) ∧ ((chainPass m base c).changed = true →
        ∃ k, k < m.freeRegionCount ∧ c.merged k = false ∧ (chainPass m base c).merged k = true) := by
  unfold chainPass
  apply List.foldlRecOn (motive := fun (now : Chain) => (∀ k, c.merged k = true → now.merged k = true) ∧
    (now.changed = true → ∃ k, k < m.freeRegionCount ∧ c.merged k = false ∧ now.merged k = true))
  · exact ⟨fun _ old => old, fun changed => by cases changed⟩
  · intro middle before j member
    refine ⟨fun k old => chainStep_merged (before.1 k old), ?_⟩
    intro changed
    by_cases already : middle.changed = true
    · obtain ⟨k, bound, new, merged⟩ := before.2 already
      exact ⟨k, bound, new, chainStep_merged merged⟩
    · -- the flag was raised by this very slot
      refine ⟨j, List.mem_range.mp member, ?_⟩
      unfold chainStep at changed ⊢
      split at changed
      · exact absurd changed already
      · rename_i candidate
        rw [not_or] at candidate
        split at changed
        · rename_i adjacent
          rw [if_neg (by simpa using candidate), if_pos adjacent]
          refine ⟨?_, by simp⟩
          by_contra early
          exact candidate.1 (before.1 j (by simpa using early))
        · exact absurd changed already

theorem chainPass_ok (tidy : Tidy m.freeRegions) (ok : ChainOk m i c) :
    ChainOk m i (chainPass m (m.freeRegions i).baseAddr c) := by
  unfold chainPass
  apply List.foldlRecOn (motive := ChainOk m i)
  · exact ⟨ok.self, ok.members, ok.bounded, ok.range⟩
  · intro middle before j member
    exact chainStep_ok tidy before (List.mem_range.mp member)

/-- The slots not yet merged, which every further round of the loop lowers. -/
def unmerged (m : RegionMap) (c : Chain) : Finset Nat :=
  (Finset.range m.freeRegionCount).filter fun k => c.merged k = false

theorem unmerged_card_le (m : RegionMap) (c : Chain) : (unmerged m c).card ≤ m.freeRegionCount := by
  have bound := Finset.card_filter_le (Finset.range m.freeRegionCount) fun k => c.merged k = false
  rw [Finset.card_range] at bound
  exact bound

theorem unmerged_shrinks (changed : (chainPass m base c).changed = true) :
    (unmerged m (chainPass m base c)).card < (unmerged m c).card := by
  obtain ⟨grows, progress⟩ := chainPass_grows m base c
  obtain ⟨k, bound, new, merged⟩ := progress changed
  apply Finset.card_lt_card
  refine Finset.ssubset_iff_subset_ne.mpr ⟨?_, ?_⟩
  · intro j member
    simp only [unmerged, Finset.mem_filter, Finset.mem_range] at member ⊢
    refine ⟨member.1, ?_⟩
    by_contra early
    rw [grows j (by simpa using early)] at member
    cases member.2
  · intro same
    have inside : k ∈ unmerged m c := by simp [unmerged, bound, new]
    rw [← same] at inside
    simp [unmerged, merged] at inside

theorem followChain_returns (fuel : Nat) (enough : (unmerged m c).card < fuel) :
    ∃ c', followChain m base fuel c = .ok c' := by
  induction fuel generalizing c with
  | zero => omega
  | succ fuel ih =>
    unfold followChain
    dsimp only
    split
    · rename_i changed
      have fewer := unmerged_shrinks changed
      exact ih (by omega)
    · exact ⟨_, rfl⟩

theorem followChain_ok (tidy : Tidy m.freeRegions) {fuel : Nat} {c' : Chain} (ok : ChainOk m i c)
    (followed : followChain m (m.freeRegions i).baseAddr fuel c = .ok c') : ChainOk m i c' := by
  induction fuel generalizing c with
  | zero => cases followed
  | succ fuel ih =>
    have pass := chainPass_ok tidy ok
    unfold followChain at followed
    dsimp only at followed
    split at followed
    · exact ih pass followed
    · cases followed
      exact pass

theorem chain_returns (count : m.freeRegionCount ≤ maxFreeRegions) (base : Nat) (c : Chain) :
    ∃ c', followChain m base (maxFreeRegions + 1) c = .ok c' :=
  followChain_returns _ (Nat.lt_succ_of_le ((unmerged_card_le m c).trans count))

theorem joinChain_tidy (tidy : Tidy m.freeRegions) (ok : ChainOk m i c) : Tidy (joinChain m i c).freeRegions ∧
      freeCells (joinChain m i c).freeRegions ⊆ freeCells m.freeRegions ∧
      Proper ⟨(m.freeRegions i).baseAddr, c.currSize⟩ := by
  have self := (ok.members i ok.self).2
  have proper : Proper ⟨(m.freeRegions i).baseAddr, c.currSize⟩ := by
    refine ⟨?_, self.above, ok.bounded⟩
    have start := (ok.range (m.freeRegions i).baseAddr).mpr
      ⟨i, ok.self, by have := self.nonempty; simp; omega⟩
    simp only
    omega
  have range : cells ⟨(m.freeRegions i).baseAddr, c.currSize⟩ =
      {x | ∃ k, c.merged k = true ∧ x ∈ cells (m.freeRegions k)} := by
    ext x
    exact ok.range x
  have atI : (joinChain m i c).freeRegions i = ⟨(m.freeRegions i).baseAddr, c.currSize⟩ := by
    simp [joinChain]
  have emptied : ∀ k, k ≠ i → c.merged k = true → (joinChain m i c).freeRegions k = .hole := by
    intro k other member
    simp [joinChain, other, member, (ok.members k member).1]
  have kept : ∀ k, k ≠ i → ¬ c.merged k = true → (joinChain m i c).freeRegions k = m.freeRegions k := by
    intro k other outside
    simp [joinChain, other, outside]
  refine ⟨⟨fun k => ?_, ?_⟩, covered_subset fun k => ?_, proper⟩
  · by_cases here : k = i
    · rw [here, atI]
      exact Or.inr proper
    · by_cases member : c.merged k = true
      · exact Or.inl (emptied k here member)
      · rw [kept k here member]
        exact tidy.formed k
  · apply tidy.apart.gather i fun k => c.merged k = true
    · rw [atI, range]
    · intro k other member
      rw [emptied k other member, cells_hole]
    · intro k other outside
      rw [kept k other outside]
  · by_cases here : k = i
    · rw [here, atI, range]
      rintro x ⟨j, -, inside⟩
      exact ⟨j, inside⟩
    · by_cases member : c.merged k = true
      · rw [emptied k here member, cells_hole]
        exact Set.empty_subset _
      · rw [kept k here member]
        exact cells_subset_covered k

/-- What `first_region_of_size_or_more` returns: the map with one chain joined, and
the slot that is large enough. -/
structure Found (m : RegionMap) (requested : Nat) (found : Option Nat) (m' : RegionMap) : Prop where
  tidy : Tidy m'.freeRegions
  cells : freeCells m'.freeRegions ⊆ freeCells m.freeRegions
  count : m'.freeRegionCount = m.freeRegionCount
  large : ∀ i ∈ found, Proper (m'.freeRegions i) ∧ requested ≤ (m'.freeRegions i).length

theorem ChainOk.start (inside : i < m.freeRegionCount) (proper : Proper (m.freeRegions i)) :
    ChainOk m i ⟨(m.freeRegions i).length, fun k => decide (k = i), false⟩ := by
  refine ⟨by simp, ?_, proper.bounded, ?_⟩
  · intro k member
    obtain rfl : k = i := by simpa using member
    exact ⟨inside, proper⟩
  · intro x
    simp

theorem firstRegionScan_spec (tidy : Tidy m.freeRegions) (count : m.freeRegionCount ≤ maxFreeRegions)
    (requested : Nat) (slots : List Nat) (inside : ∀ i ∈ slots, i < m.freeRegionCount) :
    ∃ found m', firstRegionScan m requested slots = .ok (found, m') ∧ Found m requested found m' := by
  induction slots with
  | nil => exact ⟨none, m, rfl, tidy, subset_rfl, rfl, by simp⟩
  | cons i slots ih =>
    have rest := ih fun k member => inside k (List.mem_cons_of_mem i member)
    unfold firstRegionScan
    split
    · exact rest
    · rename_i used
      have proper := (tidy.formed i).proper used
      have start := ChainOk.start (inside i List.mem_cons_self) proper
      obtain ⟨c, followed⟩ := chain_returns count (m.freeRegions i).baseAddr
        ⟨(m.freeRegions i).length, fun k => decide (k = i), false⟩
      have ok := followChain_ok tidy start followed
      rw [followed, Outcome.ok_bind]
      split
      · rename_i large
        obtain ⟨joined, cells, whole⟩ := joinChain_tidy tidy ok
        refine ⟨some i, _, rfl, joined, cells, rfl, ?_⟩
        rintro k ⟨⟩
        have atI : (joinChain m i c).freeRegions i = ⟨(m.freeRegions i).baseAddr, c.currSize⟩ := by
          simp [joinChain]
        rw [atI]
        exact ⟨whole, large⟩
      · exact rest

theorem firstRegion_spec (tidy : Tidy m.freeRegions) (count : m.freeRegionCount ≤ maxFreeRegions) (size : Nat) :
    ∃ found m', firstRegionOfSizeOrMore m size = .ok (found, m') ∧ Found m (fullSize size) found m' :=
  firstRegionScan_spec tidy count (fullSize size) _ fun _ member => List.mem_range.mp member

theorem swapSlots_tidy (tidy : Tidy regs) (i j : Nat) :
    Tidy (swapSlots regs i j) ∧ freeCells (swapSlots regs i j) ⊆ freeCells regs := by
  apply tidy.drawn fun k => if k = j then i else if k = i then j else k
  · intro k
    right
    unfold swapSlots
    by_cases isJ : k = j
    · rw [if_pos isJ, isJ, Function.update_self]
    · rw [if_neg isJ, Function.update_of_ne isJ]
      by_cases isI : k = i
      · rw [if_pos isI, isI, Function.update_self]
      · rw [if_neg isI, Function.update_of_ne isI]
  · intro a b other _ _
    split_ifs <;> omega

theorem sortRegions_tidy (tidy : Tidy regs) : Tidy (sortRegions regs) ∧ freeCells (sortRegions regs) ⊆ freeCells regs := by
  unfold sortRegions
  apply List.foldlRecOn (motive := fun after => Tidy after ∧ freeCells after ⊆ freeCells regs)
  · exact ⟨tidy, subset_rfl⟩
  · intro outer kept i _
    apply List.foldlRecOn (motive := fun after => Tidy after ∧ freeCells after ⊆ freeCells regs)
    · exact kept
    · intro inner before j _
      unfold sortStep
      split
      · exact before
      · split
        · have swapped := swapSlots_tidy before.1 i j
          exact ⟨swapped.1, swapped.2.trans before.2⟩
        · exact before

/-- The slots from `j` on that are in use. -/
def usedFrom (regs : Regions) (j : Nat) : Finset Nat :=
  (Finset.range maxFreeRegions).filter fun k => j ≤ k ∧ (regs k).length ≠ 0

theorem usedFrom_succ_le (regs : Regions) (j : Nat) : (usedFrom regs (j + 1)).card ≤ (usedFrom regs j).card := by
  apply Finset.card_le_card
  intro k
  simp only [usedFrom, Finset.mem_filter, Finset.mem_range]
  omega

theorem usedFrom_drop_lt (u : FreeRegion) (below : i < j) (inside : j < maxFreeRegions) (used : (regs j).length ≠ 0) :
    (usedFrom (dropSlot (Function.update regs i u) j maxFreeRegions) j).card < (usedFrom regs j).card := by
  have member : j ∈ usedFrom regs j := by simp [usedFrom, inside, used]
  rw [← Finset.card_erase_add_one member]
  apply Nat.lt_succ_of_le
  apply Finset.card_le_card_of_injOn fun k => k + 1
  · intro k kept
    have member := Finset.mem_coe.mp kept
    simp only [usedFrom, Finset.mem_filter, Finset.mem_range] at member
    obtain ⟨bound, low, length⟩ := member
    have notLast : k ≠ maxFreeRegions - 1 := by
      rintro rfl
      rw [dropSlot_apply _ inside, if_pos rfl] at length
      exact length rfl
    rw [dropSlot_apply _ inside, if_neg notLast, if_pos (by omega),
      Function.update_of_ne (by omega)] at length
    change k + 1 ∈ (usedFrom regs j).erase j
    rw [Finset.mem_erase]
    refine ⟨by omega, ?_⟩
    simp only [usedFrom, Finset.mem_filter, Finset.mem_range]
    exact ⟨by omega, by omega, length⟩
  · intro a _ b _ same
    simpa using same

/-- The fuel of the inner merge loop is enough. -/
theorem usedFrom_bound (regs : Regions) (i : Nat) :
    maxFreeRegions - (i + 1) + (usedFrom regs (i + 1)).card < 2 * maxFreeRegions + 1 := by
  have most := Finset.card_filter_le (Finset.range maxFreeRegions) fun k => i + 1 ≤ k ∧ (regs k).length ≠ 0
  rw [Finset.card_range] at most
  unfold usedFrom
  omega

theorem mergeInto_spec (i fuel j : Nat) (tidy : Tidy regs) (below : i < j) (used : (regs i).length ≠ 0)
    (enough : maxFreeRegions - j + (usedFrom regs j).card < fuel) :
    ∃ regs', mergeInto i fuel j regs = .ok regs' ∧ Tidy regs' ∧ freeCells regs' ⊆ freeCells regs := by
  induction fuel generalizing j regs with
  | zero => omega
  | succ fuel ih =>
    have fewer := usedFrom_succ_le regs j
    unfold mergeInto
    split
    · rename_i inside
      split
      · exact ih (j + 1) tidy (by omega) used (by omega)
      · rename_i usedJ
        split
        · rename_i adjacent
          have properI := (tidy.formed i).proper used
          have properJ := (tidy.formed j).proper usedJ
          have aboveJ := properJ.above
          have topJ := properJ.bounded
          have stop := properI.stop_eq (by omega)
          have small : ((regs i).length + (regs j).length) % 2 ^ 64 =
              (regs i).length + (regs j).length := by
            apply Nat.mod_eq_of_lt
            have := properI.above
            omega
          rw [small]
          have merged : Proper ⟨(regs i).baseAddr, (regs i).length + (regs j).length⟩ := by
            have := properI.nonempty
            refine ⟨?_, properI.above, ?_⟩ <;> simp only <;> omega
          have union : cells ⟨(regs i).baseAddr, (regs i).length + (regs j).length⟩ ⊆
              cells (regs i) ∪ cells (regs j) := by
            intro x inside
            simp only [Set.mem_union, mem_cells] at inside ⊢
            omega
          have taken := tidy.take_over (by omega : i ≠ j) (Or.inr merged) union
          have dropped := dropSlot_tidy inside taken.1
          have shrunk := usedFrom_drop_lt
            ⟨(regs i).baseAddr, (regs i).length + (regs j).length⟩ below inside usedJ
          have still : (dropSlot (Function.update regs i
              ⟨(regs i).baseAddr, (regs i).length + (regs j).length⟩) j maxFreeRegions i).length ≠ 0 := by
            rw [dropSlot_apply _ inside, if_neg (by omega), if_neg (by omega), Function.update_self]
            simp only
            omega
          obtain ⟨regs', done, after, subset⟩ := ih j dropped.1 below still (by omega)
          exact ⟨regs', done, after, subset.trans (dropped.2.trans taken.2)⟩
        · exact ih (j + 1) tidy (by omega) used (by omega)
    · exact ⟨regs, rfl, tidy, subset_rfl⟩

theorem mergeRegions_spec (slots : List Nat) (tidy : Tidy regs) :
    ∃ regs', mergeRegions regs slots = .ok regs' ∧ Tidy regs' ∧ freeCells regs' ⊆ freeCells regs := by
  induction slots generalizing regs with
  | nil => exact ⟨regs, rfl, tidy, subset_rfl⟩
  | cons i slots ih =>
    unfold mergeRegions
    split
    · exact ih tidy
    · rename_i used
      obtain ⟨middle, merged, after, subset⟩ :=
        mergeInto_spec i _ (i + 1) tidy (Nat.lt_succ_self i) used (usedFrom_bound regs i)
      obtain ⟨regs', done, last, smaller⟩ := ih after
      refine ⟨regs', ?_, last, smaller.trans subset⟩
      rw [merged, Outcome.ok_bind, done]

theorem recount_le (regs : Regions) : recount regs ≤ maxFreeRegions := by
  unfold recount
  have := List.length_filter_le (fun k => decide (0 < (regs k).length)) (List.range maxFreeRegions)
  rwa [List.length_range] at this

theorem returnBlock_spec (tidy : Tidy m.freeRegions) (count : m.freeRegionCount ≤ maxFreeRegions) {block : FreeRegion}
    (proper : Proper block) (unowned : Disjoint (cells block) (freeCells m.freeRegions)) :
    ∃ m', returnBlock m block = .ok m' ∧ Tidy m'.freeRegions ∧
      freeCells m'.freeRegions ⊆ freeCells m.freeRegions ∪ cells block ∧ m'.freeRegionCount ≤ maxFreeRegions := by
  unfold returnBlock placeFree
  cases (List.range maxFreeRegions).find? fun k => (m.freeRegions k).length == 0 with
  | none => exact ⟨m, rfl, tidy, Set.subset_union_left, count⟩
  | some k =>
    have placed := tidy.replace (r := k) (cells block) (Or.inr proper) Set.subset_union_right unowned
    have sorted := sortRegions_tidy placed.1
    obtain ⟨regs, merged, after, subset⟩ :=
      mergeRegions_spec (List.range (maxFreeRegions - 1)) sorted.1
    refine ⟨⟨regs, recount regs⟩, ?_, after, subset.trans (sorted.2.trans placed.2), recount_le regs⟩
    simp only [Option.map_some, merged, Outcome.ok_bind, Outcome.pure_eq]

end CreeperKernel.Heap

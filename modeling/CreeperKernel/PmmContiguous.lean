import CreeperKernel.PmmAlloc

namespace CreeperKernel.Pmm

/-- The `count` bits from `first` on are clear. -/
def ClearRun (bitmap : Nat → BitVec 8) (first count : Nat) : Prop :=
  ∀ bit, first ≤ bit → bit < first + count → bitmapTest bitmap bit = false

/-- A run of `count` free frames that does not reach over the cursor. -/
def RunBeside (p : State) (count : Nat) : Prop :=
  ∃ first, first + count ≤ p.totalPages ∧ ClearRun p.bitmap first count ∧
    (p.bitmapNext ≤ first ∨ first + count ≤ p.bitmapNext)

/-- A scan from `low` that has come to `i`: no run of `count` bits ends so far, and no clear bits
that end at `i` are more than `run`. -/
structure Missed (bitmap : Nat → BitVec 8) (count low i run : Nat) : Prop where
  short : run < count
  longest : ∀ first, low ≤ first → first ≤ i → ClearRun bitmap first (i - first) → i - first ≤ run
  earlier : ∀ first, low ≤ first → first + count ≤ i → ¬ ClearRun bitmap first count

variable {bitmap : Nat → BitVec 8} {count low i run : Nat}

theorem Missed.start {count low : Nat} (positive : 0 < count) : Missed bitmap count low low 0 := by
  refine ⟨positive, ?_, ?_⟩
  · intro first lower upper _
    omega
  · intro first lower upper _
    omega

theorem Missed.used (missed : Missed bitmap count low i run)
    (used : bitmapTest bitmap i = true) : Missed bitmap count low (i + 1) 0 := by
  have short := missed.short
  refine ⟨by omega, ?_, ?_⟩
  · intro first lower upper isClear
    by_contra longer
    have here := isClear i (by omega) (by omega)
    rw [used] at here
    cases here
  · intro first lower upper isClear
    by_cases last : first + count = i + 1
    · have here := isClear i (by omega) (by omega)
      rw [used] at here
      cases here
    · exact missed.earlier first lower (by omega) isClear

theorem Missed.clear (missed : Missed bitmap count low i run)
    (unfinished : run + 1 ≠ count) : Missed bitmap count low (i + 1) (run + 1) := by
  have short := missed.short
  have longest : ∀ first, low ≤ first → first ≤ i + 1 → ClearRun bitmap first (i + 1 - first) →
      i + 1 - first ≤ run + 1 := by
    intro first lower upper isClear
    by_cases empty : first = i + 1
    · omega
    · have before := missed.longest first lower (by omega) fun bit from' until' => isClear bit from' (by omega)
      omega
  refine ⟨by omega, longest, ?_⟩
  intro first lower upper isClear
  by_cases last : first + count = i + 1
  · have bound := longest first lower (by omega) fun bit from' until' => isClear bit from' (by omega)
    omega
  · exact missed.earlier first lower (by omega) isClear

theorem scanRun_none {count low n i run start : Nat}
    (missing : scanRun bitmap count n i run start = none) (missed : Missed bitmap count low i run) :
    ∀ first, low ≤ first → first + count ≤ i + n → ¬ ClearRun bitmap first count := by
  induction n generalizing i run start with
  | zero => exact missed.earlier
  | succ n ih =>
    intro first lower upper
    unfold scanRun at missing
    by_cases used : bitmapTest bitmap i = true
    · simp only [used, Bool.not_true, Bool.false_eq_true, ↓reduceIte] at missing
      exact ih missing (missed.used used) first lower (by omega)
    · simp only [used, Bool.not_false, ↓reduceIte] at missing
      split at missing
      · cases missing
      · rename_i unfinished
        exact ih missing (missed.clear unfinished) first lower (by omega)

/-- A scan from `low` finds no run that begins before. -/
theorem scanRun_from {count low n i run start first next : Nat}
    (found : scanRun bitmap count n i run start = some (first, next)) (behind : low ≤ i)
    (begun : run ≠ 0 → low ≤ start) : low ≤ first := by
  induction n generalizing i run start with
  | zero => simp [scanRun] at found
  | succ n ih =>
    unfold scanRun at found
    by_cases used : bitmapTest bitmap i = true
    · simp only [used, Bool.not_true, Bool.false_eq_true, ↓reduceIte] at found
      exact ih found (by omega) (by simp)
    · simp only [used, Bool.not_false, ↓reduceIte] at found
      have begins : low ≤ if run = 0 then i else start := by
        split
        · exact behind
        · rename_i nonempty
          exact begun nonempty
      split at found
      · cases found
        exact begins
      · exact ih found (by omega) fun _ => begins

theorem bitmapFindClearRange_beside {p p' : State} {count first : Nat} (within : p.bitmapNext ≤ p.totalPages)
    (found : bitmapFindClearRange p count = some (first, p')) : RunBeside p count := by
  obtain ⟨fits, isClear, -⟩ := bitmapFindClearRange_spec found within
  simp only [bitmapFindClearRange, Option.map_eq_some_iff, Option.or_eq_some_iff, Prod.mk.injEq] at found
  obtain ⟨⟨start, next⟩, scanned, rfl, -⟩ := found
  refine ⟨start, fits, isClear, ?_⟩
  rcases scanned with high | ⟨-, low⟩
  · exact .inl (scanRun_from high (Nat.le_refl _) (by simp))
  · have bound := scanRun_spec low ⟨by simp, by simp⟩
    exact .inr (by omega)

/-- The two passes of `bitmap_find_clear_range` see the runs on either side of the cursor. -/
theorem bitmapFindClearRange_none {p : State} {count : Nat} (positive : 0 < count)
    (within : p.bitmapNext ≤ p.totalPages) (missing : bitmapFindClearRange p count = none) (first : Nat)
    (inside : first + count ≤ p.totalPages) (side : p.bitmapNext ≤ first ∨ first + count ≤ p.bitmapNext) :
    ¬ ClearRun p.bitmap first count := by
  simp only [bitmapFindClearRange, Option.map_eq_none_iff, Option.or_eq_none_iff] at missing
  rcases side with above | below
  · exact scanRun_none missing.1 (.start positive) first above (by omega)
  · exact scanRun_none missing.2 (.start positive) first (Nat.zero_le _) (by omega)

/-- `pmm_alloc_pages` panics only without a run, and otherwise returns the first frame of one. -/
def Complete (p : State) (count : Nat) : Prop :=
  match pmmAllocPages p count with
  | .ok (phys, _) => ∃ first, first + count ≤ p.totalPages ∧ ClearRun p.bitmap first count ∧
      phys = first * pageSize % 2 ^ 64
  | .panic .pmmOutOfMemory => ∀ first, first + count ≤ p.totalPages → ¬ ClearRun p.bitmap first count
  | _ => False

/-- Contiguous allocation finds a run exactly unless all the runs there are reach over the cursor. -/
theorem contiguous_alloc_complete_iff (p : State) (count : Nat) (within : p.bitmapNext ≤ p.totalPages)
    (several : 2 ≤ count) :
    Complete p count ↔
      ((∃ first, first + count ≤ p.totalPages ∧ ClearRun p.bitmap first count) → RunBeside p count) := by
  unfold Complete
  rw [pmmAllocPages, if_neg (by omega), if_neg (by omega)]
  cases found : bitmapFindClearRange p count with
  | none =>
    have missing := bitmapFindClearRange_none (by omega) within found
    constructor
    · rintro none' ⟨first, inside, isClear⟩
      exact absurd isClear (none' first inside)
    · intro beside first inside isClear
      obtain ⟨other, fits, clear', side⟩ := beside ⟨first, inside, isClear⟩
      exact missing other fits side clear'
  | some result =>
    obtain ⟨first, p'⟩ := result
    obtain ⟨fits, isClear, -⟩ := bitmapFindClearRange_spec found within
    constructor
    · intro _ _
      exact bitmapFindClearRange_beside within found
    · intro _
      exact ⟨first, fits, isClear, rfl⟩

/-- Four frames of which the two in the middle are free, with the cursor between them. -/
def cursorInRun : State where
  bitmap _ := 0b1001
  bitmapBits := 4
  bitmapNext := 2
  totalPages := 4
  freePages := 2

/-- With the cursor at 1 the run is found. -/
theorem contiguous_alloc_complete_iff_found : Complete { cursorInRun with bitmapNext := 1 } 2 := by
  apply (contiguous_alloc_complete_iff { cursorInRun with bitmapNext := 1 } 2 (by decide) (by decide)).mpr
  intro _
  refine ⟨1, by decide, ?_, .inl (by decide)⟩
  intro bit from' until'
  have which : bit = 1 ∨ bit = 2 := by omega
  rcases which with rfl | rfl
  · decide
  · decide

/-- With the cursor at 2 the allocator is out of memory, and the frames 1 and 2 are free. -/
theorem run_over_cursor_is_missed : pmmAllocPages cursorInRun 2 = .panic .pmmOutOfMemory ∧
    bitmapTest cursorInRun.bitmap 1 = false ∧ bitmapTest cursorInRun.bitmap 2 = false ∧ ¬ Complete cursorInRun 2 := by
  have panics : pmmAllocPages cursorInRun 2 = .panic .pmmOutOfMemory := by rfl
  refine ⟨panics, by decide, by decide, fun complete => ?_⟩
  unfold Complete at complete
  rw [panics] at complete
  apply complete 1 (by decide)
  intro bit from' until'
  have which : bit = 1 ∨ bit = 2 := by omega
  rcases which with rfl | rfl
  · decide
  · decide

end CreeperKernel.Pmm

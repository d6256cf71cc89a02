import CreeperKernel.PmmAlloc

namespace CreeperKernel.Pmm

/-- The cursor has nothing but free frames ahead of it, more than `room` of them. -/
structure Ahead (p : State) (room : Nat) : Prop where
  bounded : Bounded p
  started : 0 < p.bitmapNext
  clear : ∀ bit, p.bitmapNext ≤ bit → bit < p.totalPages → bitmapTest p.bitmap bit = false
  enough : p.bitmapNext + room < p.totalPages

variable {room count i n : Nat} {p : State}

theorem Ahead.mono {less : Nat} (ahead : Ahead p room) (fewer : less ≤ room) : Ahead p less := by
  have enough := ahead.enough
  exact ⟨ahead.bounded, ahead.started, ahead.clear, by omega⟩

theorem Ahead.took {p' : State} (ahead : Ahead p (count + room)) (took : Took p p' ⟨p.bitmapNext, count⟩)
    (cursor : p'.bitmapNext = p.bitmapNext + count) : Ahead p' room := by
  have enough := ahead.enough
  have started := ahead.started
  refine ⟨took.bounded, by omega, fun bit low high => ?_, by rw [took.total]; omega⟩
  have outside : bit ∉ (Block.mk p.bitmapNext count).frames := by
    simp only [Block.mem_frames]
    omega
  rw [took.marked, ahead.clear bit (by omega) (by rw [← took.total]; exact high)]
  simp only [outside, decide_false, Bool.or_false]

variable {bitmap : Nat → BitVec 8}

theorem scanClear_here (clear : bitmapTest bitmap i = false) (positive : 0 < n) : scanClear bitmap n i = some i := by
  obtain ⟨k, rfl⟩ := Nat.exists_eq_add_of_lt positive
  simp [scanClear, clear]

theorem pmmAlloc_ahead (ahead : Ahead p (1 + room)) :
    ∃ p', pmmAlloc p = .ok (p.bitmapNext * pageSize, p') ∧ Ahead p' room := by
  have enough := ahead.enough
  have bits := ahead.bounded.bits
  have here : scanClear p.bitmap (p.bitmapBits - p.bitmapNext) p.bitmapNext = some p.bitmapNext :=
    scanClear_here (ahead.clear _ (Nat.le_refl _) (by omega)) (by omega)
  have cursor : ¬ p.bitmapBits ≤ p.bitmapNext + 1 := by omega
  have found : bitmapFindClear p =
      some (p.bitmapNext, { p with bitmapNext := p.bitmapNext + 1 }) := by
    rw [bitmapFindClear, here, Option.some_or, Option.map_some, if_neg cursor]
  have done := pmmAlloc.eq_1 p
  rw [found] at done
  dsimp only at done
  obtain ⟨frame, address, took⟩ := pmmAlloc_spec ahead.bounded done
  rw [frame_address (show p.bitmapNext < p.totalPages by omega) ahead.bounded.frames] at done address
  cases Nat.eq_of_mul_eq_mul_right (by decide) address
  exact ⟨_, done, ahead.took took rfl⟩

theorem scanRun_clear {run start : Nat} (clear : ∀ bit, i ≤ bit → bit < i + n → bitmapTest bitmap bit = false)
    (short : run < count) (long : count ≤ run + n) : scanRun bitmap count n i run start =
      some (if run = 0 then i else start, i + (count - run)) := by
  induction n generalizing i run start with
  | zero => omega
  | succ n ih =>
    have here := clear i (Nat.le_refl i) (by omega)
    unfold scanRun
    simp only [here, Bool.not_false, ↓reduceIte]
    split
    · rename_i last
      have rest : count - run = 1 := by omega
      rw [rest]
    · rw [ih (fun bit low high => clear bit (by omega) (by omega)) (by omega) (by omega),
        if_neg (Nat.succ_ne_zero run)]
      have rest : i + 1 + (count - (run + 1)) = i + (count - run) := by omega
      rw [rest]

theorem pmmAllocPages_ahead (positive : 1 ≤ count) (ahead : Ahead p (count + room)) :
    ∃ p', pmmAllocPages p count = .ok (p.bitmapNext * pageSize, p') ∧ Ahead p' room := by
  by_cases single : count = 1
  · subst single
    exact pmmAlloc_ahead ahead
  · have enough := ahead.enough
    have run : scanRun p.bitmap count (p.totalPages - p.bitmapNext) p.bitmapNext 0 0 =
        some (p.bitmapNext, p.bitmapNext + count) := by
      apply scanRun_clear
      · intro bit low high
        exact ahead.clear bit low (by omega)
      · omega
      · omega
    have found : bitmapFindClearRange p count =
        some (p.bitmapNext, { p with bitmapNext := p.bitmapNext + count }) := by
      rw [bitmapFindClearRange, run]
      rfl
    have done := pmmAllocPages.eq_1 p count
    rw [if_neg (by omega), if_neg single, found] at done
    dsimp only at done
    obtain ⟨frame, address, took⟩ := pmmAllocPages_spec ahead.bounded positive done
    rw [frame_address (show p.bitmapNext < p.totalPages by omega) ahead.bounded.frames] at done address
    cases Nat.eq_of_mul_eq_mul_right (by decide) address
    exact ⟨_, done, ahead.took took rfl⟩

end CreeperKernel.Pmm

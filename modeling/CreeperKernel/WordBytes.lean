import Mathlib.Data.BitVec

/- The bytes of a 64-bit word, the lowest one first. -/
namespace CreeperKernel.WordBytes

def byteOf (w : BitVec 64) (k : Nat) : BitVec 8 := w.extractLsb' (8 * k) 8

/-- Storing one byte leaves the other seven. -/
def setByte (w : BitVec 64) (k : Nat) (b : BitVec 8) : BitVec 64 :=
  (w &&& ~~~((BitVec.allOnes 8).setWidth 64 <<< (8 * k))) ||| (b.setWidth 64 <<< (8 * k))

def wordOf (bytes : Nat → BitVec 8) : BitVec 64 := (List.range 8).foldl (fun w k => setByte w k (bytes k)) 0

theorem getLsbD_byteOf (w : BitVec 64) (k : Nat) {j : Nat} (inside : j < 8) :
    (byteOf w k).getLsbD j = w.getLsbD (8 * k + j) := by
  rw [byteOf, BitVec.getLsbD_extractLsb', decide_eq_true inside, Bool.true_and]

theorem byteOf_setByte (w : BitVec 64) {k n : Nat} (inside : n < 8) (b : BitVec 8) :
    byteOf (setByte w k b) n = if n = k then b else byteOf w n := by
  apply BitVec.eq_of_getLsbD_eq
  intro j small
  have width : 8 * n + j < 64 := by omega
  rw [getLsbD_byteOf _ n small, setByte, BitVec.getLsbD_or, BitVec.getLsbD_and, BitVec.getLsbD_not,
    BitVec.getLsbD_shiftLeft, BitVec.getLsbD_shiftLeft, BitVec.getLsbD_setWidth, BitVec.getLsbD_setWidth]
  by_cases same : n = k
  · subst same
    have shift : 8 * n + j - 8 * n = j := by omega
    have ones : (BitVec.allOnes 8).getLsbD j = true := BitVec.getLsbD_allOnes.trans (decide_eq_true small)
    have back : ¬ 8 * n + j < 8 * n := by omega
    have whole : j < 64 := by omega
    rw [if_pos rfl, shift, ones]
    simp [width, back, whole]
  · rw [if_neg same, getLsbD_byteOf w n small]
    by_cases front : 8 * n + j < 8 * k
    · simp [width, front]
    · have past : 8 ≤ 8 * n + j - 8 * k := by omega
      have ones : (BitVec.allOnes 8).getLsbD (8 * n + j - 8 * k) = false := BitVec.getLsbD_of_ge _ _ past
      have high : b.getLsbD (8 * n + j - 8 * k) = false := BitVec.getLsbD_of_ge _ _ past
      rw [ones, high]
      simp [width]

theorem eq_of_byteOf {v w : BitVec 64} (same : ∀ k < 8, byteOf v k = byteOf w k) : v = w := by
  apply BitVec.eq_of_getLsbD_eq
  intro i inside
  have split : 8 * (i / 8) + i % 8 = i := Nat.div_add_mod i 8
  have bits := congrArg (fun b => b.getLsbD (i % 8)) (same (i / 8) (by omega))
  rw [getLsbD_byteOf _ _ (Nat.mod_lt i (by decide)), getLsbD_byteOf _ _ (Nat.mod_lt i (by decide)), split] at bits
  exact bits

theorem byteOf_wordOf (bytes : Nat → BitVec 8) {k : Nat} (inside : k < 8) : byteOf (wordOf bytes) k = bytes k := by
  have stored : ∀ count w, byteOf ((List.range count).foldl (fun w k => setByte w k (bytes k)) w) k =
      if k < count then bytes k else byteOf w k := by
    intro count w
    induction count with
    | zero => rfl
    | succ count ih =>
      rw [List.range_succ, List.foldl_append]
      show byteOf (setByte _ count (bytes count)) k = _
      rw [byteOf_setByte _ inside, ih]
      by_cases last : k = count
      · rw [if_pos last, if_pos (by omega), last]
      · have next : k < count + 1 ↔ k < count := by omega
        simp only [if_neg last, next]
  rw [wordOf, stored, if_pos inside]

end CreeperKernel.WordBytes

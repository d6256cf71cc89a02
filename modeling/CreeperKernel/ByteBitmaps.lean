import CreeperKernel.BlockDevices
import CreeperKernel.WordBytes

namespace CreeperKernel.Helpers

open WordBytes

/-- The loop of either allocator from entry `i` on, with the count of trailing zeros of an entry. No bitmap has the
`2^61` bytes with which an index would wrap. -/
def scan {w : Nat} (ctz : BitVec w → Nat) : List (BitVec w) → Nat → Option Nat
  | [], _ => none
  | x :: xs, i => if x = 0 then scan ctz xs (i + 1) else some (i * w + ctz x)

/-- `bitmap_set`: the `char` is extended to an `int`, and the result cut to a `char` again. -/
def bitmapSet (bitmap : List (BitVec 8)) (idx : Nat) (state : Bool) : List (BitVec 8) :=
  bitmap.modify (idx / 8) fun c =>
    (if state then c.signExtend 32 ||| 1#32 <<< (idx % 8) else c.signExtend 32 &&& ~~~(1#32 <<< (idx % 8))).setWidth 8

/-- What either allocator does with the index that its loop found. -/
def take (bitmap : List (BitVec 8)) : Option Nat → BitVec 64 × List (BitVec 8)
  | none => (-1, bitmap)
  | some idx => (BitVec.ofNat 64 idx, bitmapSet bitmap idx false)

/-- The byte is an `unsigned int` for `__builtin_ctz`. -/
def bitmapAlloc1First (bitmap : List (BitVec 8)) : BitVec 64 × List (BitVec 8) :=
  take bitmap (scan (fun byte => (byte.setWidth 32).ctz.toNat) bitmap 0)

def words (bitmap : List (BitVec 8)) : List (BitVec 64) :=
  (List.range (bitmap.length / 8)).map fun i => wordOf fun k => bitmap.getD (8 * i + k) 0

def wbitmapAlloc1First (bitmap : List (BitVec 8)) : BitVec 64 × List (BitVec 8) :=
  take bitmap (scan (fun word => word.ctz.toNat) (words bitmap) 0)

/-- Bit `j` of a bitmap, numbered from the least significant bit of its first entry on. -/
def bitAt {w : Nat} (xs : List (BitVec w)) (j : Nat) : Bool := (xs.getD (j / w) 0).getLsbD (j % w)

/-- `idx` is the smallest index whose bit is set. -/
def IsFirst {w : Nat} (xs : List (BitVec w)) (idx : Nat) : Prop := bitAt xs idx = true ∧ ∀ j < idx, bitAt xs j = false

section Scans

variable {w : Nat} {ctz : BitVec w → Nat} {x : BitVec w} {xs : List (BitVec w)} {idx : Nat}

/-- `ctz` is the lowest set bit of every entry that has one. -/
def Lowest (ctz : BitVec w → Nat) : Prop :=
  ∀ x : BitVec w, x ≠ 0 → x.getLsbD (ctz x) = true ∧ ∀ j < ctz x, x.getLsbD j = false

theorem bitAt_cons_low {j : Nat} (low : j < w) : bitAt (x :: xs) j = x.getLsbD j := by
  rw [bitAt, Nat.div_eq_of_lt low, Nat.mod_eq_of_lt low, List.getD_cons_zero]

theorem bitAt_cons_high (j : Nat) (some_ : 0 < w) : bitAt (x :: xs) (w + j) = bitAt xs j := by
  rw [bitAt, Nat.add_div_left j some_, Nat.add_mod_left, List.getD_cons_succ, bitAt]

theorem eq_zero_of_bits (clear : ∀ j < w, bitAt (x :: xs) j = false) : x = 0 := by
  apply BitVec.eq_of_getLsbD_eq
  intro j low
  have bit : x.getLsbD j = false := (bitAt_cons_low low).symm.trans (clear j low)
  rw [bit]
  exact BitVec.getLsbD_zero.symm

theorem scan_eq_none (some_ : 0 < w) (clear : ∀ j, bitAt xs j = false) (i : Nat) : scan ctz xs i = none := by
  induction xs generalizing i with
  | nil => rfl
  | cons x xs ih =>
    rw [scan, if_pos (eq_zero_of_bits fun j _ => clear j)]
    exact ih (fun j => by rw [← bitAt_cons_high j some_, clear]) (i + 1)

theorem scan_eq_some (some_ : 0 < w) (lowest : Lowest ctz) (first : IsFirst xs idx) (i : Nat) :
    scan ctz xs i = some (i * w + idx) := by
  induction xs generalizing idx i with
  | nil => simp [IsFirst, bitAt] at first
  | cons x xs ih =>
    rw [scan]
    split
    · rename_i empty
      have far : w ≤ idx := by
        by_contra near
        have set_ := first.1
        rw [bitAt_cons_low (Nat.lt_of_not_le near), empty] at set_
        simp at set_
      obtain ⟨k, rfl⟩ := Nat.exists_eq_add_of_le far
      have rest : IsFirst xs k := by
        refine ⟨(bitAt_cons_high k some_).symm.trans first.1, fun j below => ?_⟩
        rw [← bitAt_cons_high j some_]
        exact first.2 _ (by omega)
      rw [ih rest, Nat.succ_mul, Nat.add_assoc]
    · rename_i filled
      have low := lowest x filled
      have small : ctz x < w := BitVec.lt_of_getLsbD low.1
      rcases Nat.lt_trichotomy idx (ctz x) with below | same | above
      · have set_ := first.1
        rw [bitAt_cons_low (by omega), low.2 idx below] at set_
        cases set_
      · rw [same]
      · have clear := first.2 (ctz x) above
        rw [bitAt_cons_low small, low.1] at clear
        cases clear

end Scans

theorem lowest_ctz : Lowest fun word : BitVec 64 => word.ctz.toNat := by
  intro x filled
  exact ⟨BitVec.getLsbD_true_ctz_of_ne_zero filled, fun j below => BitVec.getLsbD_false_of_lt_ctz below⟩

theorem lowest_ctz_setWidth : Lowest fun byte : BitVec 8 => (byte.setWidth 32).ctz.toNat := by
  intro x filled
  have wide : x.setWidth 32 ≠ 0 := by
    intro zero
    apply filled
    have back := congrArg (BitVec.setWidth 8) zero
    simpa using back
  have low := BitVec.getLsbD_true_ctz_of_ne_zero wide
  simp only [BitVec.getLsbD_setWidth, Bool.and_eq_true, decide_eq_true_eq] at low
  refine ⟨low.2, fun j below => ?_⟩
  have clear := BitVec.getLsbD_false_of_lt_ctz below
  rwa [BitVec.getLsbD_setWidth, decide_eq_true (Nat.lt_trans below low.1), Bool.true_and] at clear

theorem bitAt_words {bitmap : List (BitVec 8)} (whole : 8 ∣ bitmap.length) : bitAt (words bitmap) = bitAt bitmap := by
  funext j
  obtain ⟨count, length⟩ := whole
  have byte : 8 * (j / 64) + j % 64 / 8 = j / 8 := by omega
  have bit : 8 * (j % 64 / 8) + j % 8 = j % 64 := by omega
  by_cases inside : j / 64 < bitmap.length / 8
  · have word : (words bitmap).getD (j / 64) 0 = wordOf fun k => bitmap.getD (8 * (j / 64) + k) 0 := by
      simp [words, inside]
    rw [bitAt, word, ← bit, ← getLsbD_byteOf _ _ (Nat.mod_lt j (by decide)), byteOf_wordOf _ (by omega), byte, bitAt]
  · have noWord : (words bitmap).getD (j / 64) 0 = 0 := by
      rw [List.getD_eq_getElem?_getD, List.getElem?_eq_none (by simp [words]; omega)]
      rfl
    have noByte : bitmap.getD (j / 8) 0 = 0 := by
      rw [List.getD_eq_getElem?_getD, List.getElem?_eq_none (by omega)]
      rfl
    rw [bitAt, bitAt, noWord, noByte]
    simp

theorem bitAt_modify {w : Nat} {f : BitVec w → BitVec w} {idx : Nat} (some_ : 0 < w)
    (clears : ∀ x, ∀ t < w, (f x).getLsbD t = (x.getLsbD t && decide (t ≠ idx % w))) (xs : List (BitVec w)) (j : Nat) :
    bitAt (xs.modify (idx / w) f) j = (bitAt xs j && decide (j ≠ idx)) := by
  simp only [bitAt, List.getD_eq_getElem?_getD, List.getElem?_modify]
  cases xs[j / w]? with
  | none => simp
  | some x =>
    by_cases entry : idx / w = j / w
    · have bit : j = idx ↔ j % w = idx % w := by
        refine ⟨congrArg (· % w), fun same => ?_⟩
        rw [← Nat.div_add_mod j w, ← entry, same, Nat.div_add_mod]
      simp [entry, bit, clears x _ (Nat.mod_lt j some_)]
    · have apart : j ≠ idx := fun same => entry (congrArg (· / w) same).symm
      simp [entry, apart]

theorem bitAt_bitmapSet (bitmap : List (BitVec 8)) (idx j : Nat) :
    bitAt (bitmapSet bitmap idx false) j = (bitAt bitmap j && decide (j ≠ idx)) := by
  apply bitAt_modify (by decide)
  intro c t low
  have inInt : t < 32 := by omega
  simp [low, inInt]
  grind

/-- The two allocators agree: on the smallest index whose bit is set, and on the bitmap without that bit. -/
theorem bitmap_allocators_agree (bitmap : List (BitVec 8)) (whole : 8 ∣ bitmap.length) :
    wbitmapAlloc1First bitmap = bitmapAlloc1First bitmap ∧
    ((∀ j, bitAt bitmap j = false) → bitmapAlloc1First bitmap = (-1, bitmap)) ∧
    ∀ idx, IsFirst bitmap idx → (bitmapAlloc1First bitmap).1 = BitVec.ofNat 64 idx ∧
      (bitmapAlloc1First bitmap).2.length = bitmap.length ∧
      ∀ j, bitAt (bitmapAlloc1First bitmap).2 j = (bitAt bitmap j && decide (j ≠ idx)) := by
  have absent (clear : ∀ j, bitAt bitmap j = false) : bitmapAlloc1First bitmap = (-1, bitmap) := by
    rw [bitmapAlloc1First, scan_eq_none (by decide) clear]
    rfl
  have present {idx : Nat} (first : IsFirst bitmap idx) :
      bitmapAlloc1First bitmap = (BitVec.ofNat 64 idx, bitmapSet bitmap idx false) := by
    rw [bitmapAlloc1First, scan_eq_some (by decide) lowest_ctz_setWidth first, Nat.zero_mul, Nat.zero_add]
    rfl
  refine ⟨?_, absent, fun idx first => ?_⟩
  · by_cases any : ∃ j, bitAt bitmap j = true
    · have first : IsFirst bitmap (Nat.find any) :=
        ⟨Nat.find_spec any, fun j below => Bool.eq_false_of_not_eq_true (Nat.find_min any below)⟩
      have firstWord : IsFirst (words bitmap) (Nat.find any) := by
        rwa [IsFirst, bitAt_words whole]
      rw [present first, wbitmapAlloc1First, scan_eq_some (by decide) lowest_ctz firstWord, Nat.zero_mul, Nat.zero_add]
      rfl
    · have clear (j : Nat) : bitAt bitmap j = false := Bool.eq_false_of_not_eq_true fun set_ => any ⟨j, set_⟩
      rw [absent clear, wbitmapAlloc1First, scan_eq_none (by decide) (by rwa [bitAt_words whole])]
      rfl
  · rw [present first]
    exact ⟨rfl, List.length_modify _ _ _, bitAt_bitmapSet bitmap idx⟩

/-- Of the sixteen bytes the first with a set bit is the tenth. -/
theorem bitmap_allocators_agree_tenth : (bitmapAlloc1First (List.replicate 9 0 ++ 0xb0 :: List.replicate 6 1)).1 = 76 :=
  ((bitmap_allocators_agree (List.replicate 9 0 ++ 0xb0 :: List.replicate 6 1) (by decide)).2.2 76
    ⟨by decide, by decide⟩).1

theorem firstSet_eq_scan (xs : List (BitVec 64)) (i : Nat) :
    Block.firstSet xs i = scan (fun word => word.ctz.toNat) xs i := by
  induction xs generalizing i with
  | nil => rfl
  | cons x xs ih => rw [Block.firstSet, scan, ih, Block.wordBits]

theorem eq_of_bitAt {w : Nat} {xs ys : List (BitVec w)} (length : xs.length = ys.length) (same : bitAt xs = bitAt ys) :
    xs = ys := by
  apply List.ext_getElem length
  intro i inXs inYs
  apply BitVec.eq_of_getLsbD_eq
  intro t low
  have bits := congrFun same (w * i + t)
  have entry : (w * i + t) / w = i := by
    rw [Nat.mul_add_div (by omega), Nat.div_eq_of_lt low, Nat.add_zero]
  simpa [bitAt, entry, Nat.mod_eq_of_lt low, inXs, inYs] using bits

theorem bitAt_blockSet (xs : List (BitVec 64)) (idx j : Nat) :
    bitAt ((Block.bitmapSet xs idx false).getD xs) j = (bitAt xs j && decide (j ≠ idx)) := by
  rw [Block.bitmapSet]
  split
  · apply bitAt_modify (by decide)
    intro x t low
    simp [Block.wordBits, low]
    grind
  · rename_i outside
    have clear : bitAt xs idx = false := by
      rw [Block.wordBits] at outside
      rw [bitAt, List.getD_eq_getElem?_getD, List.getElem?_eq_none (Nat.le_of_not_lt outside)]
      exact BitVec.getLsbD_zero
    by_cases same : j = idx
    · simp [same, clear]
    · simp [same]

/-- The map of the block device ids, which is modelled by its words, goes through the same states. -/
theorem words_wbitmapAlloc1First (bitmap : List (BitVec 8)) (whole : 8 ∣ bitmap.length) :
    Block.wbitmapAlloc1First (words bitmap) = ((wbitmapAlloc1First bitmap).1, words (wbitmapAlloc1First bitmap).2) := by
  rw [Block.wbitmapAlloc1First, firstSet_eq_scan, wbitmapAlloc1First]
  cases scan (fun word => word.ctz.toNat) (words bitmap) 0 with
  | none => rfl
  | some idx =>
    have length : (bitmapSet bitmap idx false).length = bitmap.length := List.length_modify _ _ _
    have same : (Block.bitmapSet (words bitmap) idx false).getD (words bitmap) = words (bitmapSet bitmap idx false) := by
      apply eq_of_bitAt
      · rw [Block.bitmapSet]
        split <;> simp [words, length]
      · funext j
        rw [bitAt_blockSet, bitAt_words whole, bitAt_words (length ▸ whole), bitAt_bitmapSet]
    exact congrArg (Prod.mk _) same

end CreeperKernel.Helpers

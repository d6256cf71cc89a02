import Mathlib.Order.Interval.Finset.Nat

/- A bitmap stored in words of a fixed positive width: bit `i` lives in word
`i / w` at position `i % w`. Reads and updates are stated on single bits, so a
client never sees the word layout. -/
namespace CreeperKernel.WordBitmap

variable {w : Nat}

def test (words : Nat → BitVec w) (bit : Nat) : Bool :=
  (words (bit / w)).getLsbD (bit % w)

def set (words : Nat → BitVec w) (bit : Nat) : Nat → BitVec w :=
  Function.update words (bit / w) (words (bit / w) ||| (1#w <<< (bit % w)))

def clear (words : Nat → BitVec w) (bit : Nat) : Nat → BitVec w :=
  Function.update words (bit / w) (words (bit / w) &&& ~~~(1#w <<< (bit % w)))

theorem mask_getLsbD (positive : 0 < w) (shift index : Nat) (inside : index < w) :
    (1#w <<< shift).getLsbD index = decide (shift = index) := by
  simp only [BitVec.getLsbD_shiftLeft, BitVec.getLsbD_one, inside, positive, decide_true,
    Bool.true_and]
  by_cases same : shift = index
  · simp [same]
  · by_cases below : index < shift
    · simp [same, below]
    · simp only [same, below, decide_false, Bool.not_false, Bool.true_and,
        decide_eq_false_iff_not]
      omega

theorem same_bit_iff (left right : Nat) : left / w = right / w ∧ left % w = right % w ↔ left = right := by
  constructor
  · rintro ⟨word, position⟩
    rw [← Nat.div_add_mod left w, ← Nat.div_add_mod right w, word, position]
  · rintro rfl
    exact ⟨rfl, rfl⟩

theorem same_bit_of_word {bit other : Nat} (word : other / w = bit / w) : bit % w = other % w ↔ bit = other := by
  rw [← same_bit_iff (w := w) bit other]
  simp [word]

theorem test_set (positive : 0 < w) (words : Nat → BitVec w) (bit other : Nat) :
    test (set words bit) other = (test words other || decide (bit = other)) := by
  have inside : other % w < w := Nat.mod_lt other positive
  by_cases word : other / w = bit / w
  · simp only [test, set, word, Function.update_self, BitVec.getLsbD_or,
      mask_getLsbD positive _ _ inside, same_bit_of_word word]
  · have apart : bit ≠ other := by
      rintro rfl
      exact word rfl
    simp [test, set, Function.update_of_ne word, apart]

theorem test_clear (positive : 0 < w) (words : Nat → BitVec w) (bit other : Nat) :
    test (clear words bit) other = (test words other && !decide (bit = other)) := by
  have inside : other % w < w := Nat.mod_lt other positive
  by_cases word : other / w = bit / w
  · simp only [test, clear, word, Function.update_self, BitVec.getLsbD_and, BitVec.getLsbD_not,
      inside, decide_true, Bool.true_and, mask_getLsbD positive _ _ inside, same_bit_of_word word]
  · have apart : bit ≠ other := by
      rintro rfl
      exact word rfl
    simp [test, clear, Function.update_of_ne word, apart]

/-- The clear bits below a bound. -/
def clearBits (words : Nat → BitVec w) (bound : Nat) : Finset Nat :=
  (Finset.range bound).filter fun bit => test words bit = false

@[simp] theorem mem_clearBits (words : Nat → BitVec w) (bound bit : Nat) :
    bit ∈ clearBits words bound ↔ bit < bound ∧ test words bit = false := by
  simp [clearBits]

variable {after words : Nat → BitVec w}

theorem clearBits_sdiff {taken : Finset Nat} (bound : Nat)
    (marked : ∀ bit, test after bit = (test words bit || decide (bit ∈ taken))) :
    clearBits after bound = clearBits words bound \ taken := by
  ext bit
  simp only [mem_clearBits, Finset.mem_sdiff, marked, Bool.or_eq_false_iff,
    decide_eq_false_iff_not, and_assoc]

theorem clearBits_union {given : Finset Nat} {bound : Nat} (inside : ∀ bit ∈ given, bit < bound)
    (cleared : ∀ bit, test after bit = (test words bit && !decide (bit ∈ given))) :
    clearBits after bound = clearBits words bound ∪ given := by
  ext bit
  simp only [mem_clearBits, Finset.mem_union, cleared]
  by_cases member : bit ∈ given
  · simp [member, inside bit member]
  · simp [member]

end CreeperKernel.WordBitmap

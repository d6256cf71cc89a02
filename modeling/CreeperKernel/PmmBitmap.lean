import CreeperKernel.Outcome
import CreeperKernel.WordBitmap

namespace CreeperKernel.Pmm

abbrev pageSize : Nat := 0x1000

theorem mul_pageSize (n : Nat) : n * pageSize = 4096 * n := Nat.mul_comm n pageSize
theorem div_pageSize (n : Nat) : n / pageSize = n / 4096 := rfl
theorem mod_pageSize (n : Nat) : n % pageSize = n % 4096 := rfl

/-- The statics of `pmm.c`. A set bit marks a used frame, whatever the comment
beside the array says: `pmm_alloc` sets and `pmm_free` clears. -/
structure State where
  bitmap : Nat → BitVec 8
  bitmapBits : Nat
  bitmapNext : Nat
  totalPages : Nat
  freePages : Nat

def bitmapSet (bitmap : Nat → BitVec 8) (bit : Nat) : Nat → BitVec 8 := WordBitmap.set bitmap bit
def bitmapClear (bitmap : Nat → BitVec 8) (bit : Nat) : Nat → BitVec 8 := WordBitmap.clear bitmap bit
def bitmapTest (bitmap : Nat → BitVec 8) (bit : Nat) : Bool := WordBitmap.test bitmap bit

@[simp] theorem bitmapTest_set (bitmap : Nat → BitVec 8) (bit other : Nat) :
    bitmapTest (bitmapSet bitmap bit) other = (bitmapTest bitmap other || decide (bit = other)) :=
  WordBitmap.test_set (by decide) bitmap bit other

@[simp] theorem bitmapTest_clear (bitmap : Nat → BitVec 8) (bit other : Nat) :
    bitmapTest (bitmapClear bitmap bit) other = (bitmapTest bitmap other && !decide (bit = other)) :=
  WordBitmap.test_clear (by decide) bitmap bit other

/-- The inner loop of `bitmap_find_clear`, over the next `n` bits. -/
def scanClear (bitmap : Nat → BitVec 8) : Nat → Nat → Option Nat
  | 0, _ => none
  | n + 1, i => if !bitmapTest bitmap i then some i else scanClear bitmap n (i + 1)

/-- `bitmap_find_clear`: from the cursor to the end, then from 0 to the cursor.
`none` is the `SIZE_MAX` return. -/
def bitmapFindClear (p : State) : Option (Nat × State) :=
  let found := (scanClear p.bitmap (p.bitmapBits - p.bitmapNext) p.bitmapNext).or
    (scanClear p.bitmap p.bitmapNext 0)
  found.map fun i =>
    (i, { p with bitmapNext := if p.bitmapBits ≤ i + 1 then 0 else i + 1 })

/-- One loop of `bitmap_find_clear_range`: `run` clear bits end just before `i`
and begin at `start`. Returns the start of the run and the new cursor. -/
def scanRun (bitmap : Nat → BitVec 8) (count : Nat) : Nat → Nat → Nat → Nat → Option (Nat × Nat)
  | 0, _, _, _ => none
  | n + 1, i, run, start =>
    if !bitmapTest bitmap i then
      let start := if run = 0 then i else start
      if run + 1 = count then some (start, i + 1)
      else scanRun bitmap count n (i + 1) (run + 1) start
    else scanRun bitmap count n (i + 1) 0 start

/-- `bitmap_find_clear_range`. The second loop starts with an empty run, so the
stale `start` of the first one is never read. -/
def bitmapFindClearRange (p : State) (count : Nat) : Option (Nat × State) :=
  let found := (scanRun p.bitmap count (p.totalPages - p.bitmapNext) p.bitmapNext 0 0).or
    (scanRun p.bitmap count p.bitmapNext 0 0 0)
  found.map fun (start, next) => (start, { p with bitmapNext := next })

variable {bit i n first count : Nat} {bitmap : Nat → BitVec 8}

theorem scanClear_spec (found : scanClear bitmap n i = some bit) :
    i ≤ bit ∧ bit < i + n ∧ bitmapTest bitmap bit = false := by
  induction n generalizing i with
  | zero => simp [scanClear] at found
  | succ n ih =>
    unfold scanClear at found
    split at found
    · rename_i isClear
      cases found
      exact ⟨Nat.le_refl _, by omega, by simpa using isClear⟩
    · obtain ⟨lower, upper, isClear⟩ := ih found
      exact ⟨by omega, by omega, isClear⟩

theorem scanClear_none (missing : scanClear bitmap n i = none) :
    ∀ bit, i ≤ bit → bit < i + n → bitmapTest bitmap bit = true := by
  induction n generalizing i with
  | zero => intro bit lower upper; omega
  | succ n ih =>
    intro bit lower upper
    unfold scanClear at missing
    split at missing
    · cases missing
    · rename_i used
      by_cases here : bit = i
      · subst here
        simpa using used
      · exact ih missing bit (by omega) (by omega)

/-- Between iterations the run counter always describes clear bits that end at
the current index. -/
structure RunAt (bitmap : Nat → BitVec 8) (i run start : Nat) : Prop where
  ends : run ≠ 0 → start + run = i
  isClear : run ≠ 0 → ∀ bit, start ≤ bit → bit < i → bitmapTest bitmap bit = false

theorem scanRun_spec {run start next : Nat} (found : scanRun bitmap count n i run start = some (first, next))
    (sofar : RunAt bitmap i run start) : first + count = next ∧ next ≤ i + n ∧
      ∀ bit, first ≤ bit → bit < next → bitmapTest bitmap bit = false := by
  induction n generalizing i run start with
  | zero => simp [scanRun] at found
  | succ n ih =>
    unfold scanRun at found
    by_cases used : bitmapTest bitmap i = true
    · simp only [used, Bool.not_true, Bool.false_eq_true, ↓reduceIte] at found
      obtain ⟨ends, bound, isClear⟩ := ih found ⟨by simp, by simp⟩
      exact ⟨ends, by omega, isClear⟩
    · have isClear : bitmapTest bitmap i = false := by simpa using used
      simp only [isClear, Bool.not_false, ↓reduceIte] at found
      -- the run extended by the bit at `i`
      have extended : RunAt bitmap (i + 1) (run + 1) (if run = 0 then i else start) := by
        refine ⟨fun _ => ?_, fun _ bit lower upper => ?_⟩
        · split
          · omega
          · rename_i nonempty
            have := sofar.ends nonempty
            omega
        · by_cases here : bit = i
          · rw [here, isClear]
          · split at lower
            · omega
            · rename_i nonempty
              exact sofar.isClear nonempty bit lower (by omega)
      split at found
      · rename_i complete
        simp only [Option.some.injEq, Prod.mk.injEq] at found
        obtain ⟨rfl, rfl⟩ := found
        have ends := extended.ends (by omega)
        exact ⟨by omega, by omega, extended.isClear (by omega)⟩
      · obtain ⟨ends, bound, allClear⟩ := ih found extended
        exact ⟨ends, by omega, allClear⟩

variable {p p' : State}

theorem bitmapFindClear_spec (found : bitmapFindClear p = some (bit, p')) (within : p.bitmapNext ≤ p.bitmapBits) :
    bit < p.bitmapBits ∧ bitmapTest p.bitmap bit = false ∧
      ∃ next, next ≤ p.bitmapBits ∧ p' = { p with bitmapNext := next } := by
  simp only [bitmapFindClear, Option.map_eq_some_iff, Option.or_eq_some_iff, Prod.mk.injEq] at found
  obtain ⟨i, scanned, rfl, rfl⟩ := found
  have located : i < p.bitmapBits ∧ bitmapTest p.bitmap i = false := by
    rcases scanned with high | ⟨_, low⟩
    · obtain ⟨_, upper, isClear⟩ := scanClear_spec high
      exact ⟨by omega, isClear⟩
    · obtain ⟨_, upper, isClear⟩ := scanClear_spec low
      exact ⟨by omega, isClear⟩
  refine ⟨located.1, located.2, _, ?_, rfl⟩
  split <;> omega

/-- The two passes together look at every bit of the map. -/
theorem bitmapFindClear_none (missing : bitmapFindClear p = none) (bit : Nat) (inside : bit < p.bitmapBits) :
    bitmapTest p.bitmap bit = true := by
  simp only [bitmapFindClear, Option.map_eq_none_iff, Option.or_eq_none_iff] at missing
  by_cases high : p.bitmapNext ≤ bit
  · exact scanClear_none missing.1 bit high (by omega)
  · exact scanClear_none missing.2 bit (Nat.zero_le _) (by omega)

theorem bitmapFindClearRange_spec (found : bitmapFindClearRange p count = some (first, p'))
    (within : p.bitmapNext ≤ p.totalPages) :
    first + count ≤ p.totalPages ∧
      (∀ bit, first ≤ bit → bit < first + count → bitmapTest p.bitmap bit = false) ∧
      p' = { p with bitmapNext := first + count } := by
  simp only [bitmapFindClearRange, Option.map_eq_some_iff, Option.or_eq_some_iff,
    Prod.mk.injEq] at found
  obtain ⟨⟨start, next⟩, scanned, rfl, rfl⟩ := found
  have empty : ∀ i, RunAt p.bitmap i 0 0 := fun i => ⟨by simp, by simp⟩
  have located : start + count = next ∧ next ≤ p.totalPages ∧
      ∀ bit, start ≤ bit → bit < next → bitmapTest p.bitmap bit = false := by
    rcases scanned with high | ⟨_, low⟩
    · obtain ⟨ends, bound, isClear⟩ := scanRun_spec high (empty _)
      exact ⟨ends, by omega, isClear⟩
    · obtain ⟨ends, bound, isClear⟩ := scanRun_spec low (empty _)
      exact ⟨ends, by omega, isClear⟩
  obtain ⟨rfl, bound, isClear⟩ := located
  exact ⟨bound, isClear, rfl⟩

end CreeperKernel.Pmm

import CreeperKernel.PmmBitmap

namespace CreeperKernel.Pmm

/-- Marking `count` consecutive bits, one `bitmap_set` after the other. -/
def setRange (bitmap : Nat → BitVec 8) (bit : Nat) : Nat → Nat → BitVec 8
  | 0 => bitmap
  | n + 1 => bitmapSet (setRange bitmap bit n) (bit + n)

def clearRange (bitmap : Nat → BitVec 8) (bit : Nat) : Nat → Nat → BitVec 8
  | 0 => bitmap
  | n + 1 => bitmapClear (clearRange bitmap bit n) (bit + n)

/-- `pmm_alloc`, up to the lock. -/
def pmmAlloc (p : State) : Outcome (Nat × State) :=
  match bitmapFindClear p with
  | none => .panic .pmmOutOfMemory
  | some (bit, p) =>
    .ok (bit * pageSize % 2 ^ 64,
      { p with
        bitmap := bitmapSet p.bitmap bit
        freePages := (p.freePages + (2 ^ 64 - 1)) % 2 ^ 64 })

/-- `pmm_free` ignores a frame that is already free. -/
def pmmFree (p : State) (phys : Nat) : State :=
  let bit := phys / pageSize
  if bitmapTest p.bitmap bit then
    { p with
      bitmap := bitmapClear p.bitmap bit
      freePages := (p.freePages + 1) % 2 ^ 64 }
  else p

def pmmAllocPages (p : State) (count : Nat) : Outcome (Nat × State) :=
  if count = 0 then .ok (0, p)
  else if count = 1 then pmmAlloc p
  else
    match bitmapFindClearRange p count with
    | none => .panic .pmmOutOfMemory
    | some (bit, p) =>
      .ok (bit * pageSize % 2 ^ 64,
        { p with
          bitmap := setRange p.bitmap bit count
          freePages := (p.freePages + (2 ^ 64 - count)) % 2 ^ 64 })

/-- `pmm_free_pages` counts every frame, free already or not. -/
def pmmFreePages (p : State) (phys count : Nat) : State :=
  { p with
    bitmap := clearRange p.bitmap (phys / pageSize) count
    freePages := (p.freePages + count) % 2 ^ 64 }

variable {frame phys : Nat}

theorem frame_address {total : Nat} (inside : frame < total) (small : total ≤ 2 ^ 52) :
    frame * pageSize % 2 ^ 64 = frame * pageSize := by
  apply Nat.mod_eq_of_lt
  unfold pageSize
  omega

/-- A block handed out by the allocator, by frame number. -/
structure Block where
  first : Nat
  count : Nat
  deriving DecidableEq, Repr

def Block.frames (b : Block) : Finset Nat := Finset.Ico b.first (b.first + b.count)

@[simp] theorem Block.mem_frames (b : Block) (frame : Nat) :
    frame ∈ b.frames ↔ b.first ≤ frame ∧ frame < b.first + b.count :=
  Finset.mem_Ico

@[simp] theorem Block.card_frames (b : Block) : b.frames.card = b.count := by
  simp [Block.frames]

theorem not_mem_frames_zero (first bit : Nat) : bit ∉ (Block.mk first 0).frames := by
  simp only [Block.mem_frames]
  omega

theorem mem_frames_succ (first count bit : Nat) : bit ∈ (Block.mk first (count + 1)).frames ↔
    bit ∈ (Block.mk first count).frames ∨ first + count = bit := by
  simp only [Block.mem_frames]
  omega

theorem bitmapTest_setRange (bitmap : Nat → BitVec 8) (first count bit : Nat) :
    bitmapTest (setRange bitmap first count) bit =
      (bitmapTest bitmap bit || decide (bit ∈ (Block.mk first count).frames)) := by
  induction count with
  | zero => simp only [setRange, not_mem_frames_zero, decide_false, Bool.or_false]
  | succ count ih =>
    simp only [setRange, bitmapTest_set, ih, mem_frames_succ, Bool.decide_or, Bool.or_assoc]

theorem bitmapTest_clearRange (bitmap : Nat → BitVec 8) (first count bit : Nat) :
    bitmapTest (clearRange bitmap first count) bit =
      (bitmapTest bitmap bit && !decide (bit ∈ (Block.mk first count).frames)) := by
  induction count with
  | zero => simp only [clearRange, not_mem_frames_zero, decide_false, Bool.not_false, Bool.and_true]
  | succ count ih =>
    simp only [clearRange, bitmapTest_clear, ih, mem_frames_succ, Bool.decide_or, Bool.not_or,
      Bool.and_assoc]

def freeFrames (p : State) : Finset Nat := WordBitmap.clearBits p.bitmap p.totalPages

@[simp] theorem mem_freeFrames (p : State) (frame : Nat) :
    frame ∈ freeFrames p ↔ frame < p.totalPages ∧ bitmapTest p.bitmap frame = false :=
  WordBitmap.mem_clearBits _ _ _

/-- What `pmm_init` establishes for the allocator proper. Frame numbers stay
below `2^52` because the map entries are disjoint ranges of a 64-bit physical
address space. -/
structure Bounded (p : State) : Prop where
  bits : p.bitmapBits = p.totalPages
  next_le : p.bitmapNext ≤ p.totalPages
  frames : p.totalPages ≤ 2 ^ 52
  counter : p.freePages < 2 ^ 64

/-- An allocator whose counter is right as well, which it is not after `pmm_init`. -/
structure Consistent (p : State) : Prop extends Bounded p where
  free_eq : p.freePages = (freeFrames p).card

theorem freeFrames_card_le (p : State) : (freeFrames p).card ≤ p.totalPages := by
  calc
    (freeFrames p).card ≤ (Finset.range p.totalPages).card := Finset.card_filter_le _ _
    _ = p.totalPages := Finset.card_range _

/-- The counter has changed by as much as the number of free frames. -/
def Counted (p p' : State) : Prop :=
  (p'.freePages + (freeFrames p).card) % 2 ^ 64 = (p.freePages + (freeFrames p').card) % 2 ^ 64

theorem Counted.trans {p q r : State} (front : Counted p q) (back : Counted q r) : Counted p r := by
  unfold Counted at front back ⊢
  omega

/-- The state after a block of free frames has been marked. -/
structure Took (p p' : State) (b : Block) : Prop where
  inside : b.first + b.count ≤ p.totalPages
  wasFree : b.frames ⊆ freeFrames p
  total : p'.totalPages = p.totalPages
  marked : ∀ bit, bitmapTest p'.bitmap bit = (bitmapTest p.bitmap bit || decide (bit ∈ b.frames))
  bounded : Bounded p'
  counted : Counted p p'

variable {b : Block} {p p' : State}

theorem Took.freeFrames (took : Took p p' b) : freeFrames p' = freeFrames p \ b.frames := by
  unfold Pmm.freeFrames
  rw [took.total]
  exact WordBitmap.clearBits_sdiff _ took.marked

variable {bitmap : Nat → BitVec 8}

/-- Both allocation paths end alike: a found block, a new cursor, the bits set
and the counter lowered by the size of the block. -/
theorem took_of_marked (start : Bounded p) {next : Nat} (inside : b.first + b.count ≤ p.totalPages)
    (cursor : next ≤ p.totalPages) (wasFree : b.frames ⊆ freeFrames p)
    (marked : ∀ bit, bitmapTest bitmap bit = (bitmapTest p.bitmap bit || decide (bit ∈ b.frames))) :
    Took p
      { p with
        bitmap := bitmap
        bitmapNext := next
        freePages := (p.freePages + (2 ^ 64 - b.count)) % 2 ^ 64 } b := by
  have remaining : WordBitmap.clearBits bitmap p.totalPages = freeFrames p \ b.frames :=
    WordBitmap.clearBits_sdiff _ marked
  have enough : b.count ≤ (freeFrames p).card := by
    simpa using Finset.card_le_card wasFree
  refine ⟨inside, wasFree, rfl, marked, ⟨start.bits, cursor, start.frames, Nat.mod_lt _ (by decide)⟩, ?_⟩
  show ((p.freePages + (2 ^ 64 - b.count)) % 2 ^ 64 + _) % 2 ^ 64 =
    (_ + (WordBitmap.clearBits bitmap p.totalPages).card) % 2 ^ 64
  rw [remaining, Finset.card_sdiff_of_subset wasFree, Block.card_frames]
  have bound := freeFrames_card_le p
  have small := start.frames
  omega

/-- `pmm_alloc` hands out one frame that was free. -/
theorem pmmAlloc_spec (start : Bounded p) (done : pmmAlloc p = .ok (phys, p')) :
    ∃ frame, phys = frame * pageSize ∧ Took p p' ⟨frame, 1⟩ := by
  unfold pmmAlloc at done
  split at done
  · cases done
  · rename_i bit q found
    cases done
    obtain ⟨inside, isClear, next, cursor, rfl⟩ :=
      bitmapFindClear_spec found (by rw [start.bits]; exact start.next_le)
    rw [start.bits] at inside cursor
    have small := start.frames
    have only : ∀ other, other ∈ (Block.mk bit 1).frames ↔ bit = other := by
      intro other
      simp only [Block.mem_frames]
      omega
    refine ⟨bit, frame_address inside small, ?_⟩
    apply took_of_marked start (b := ⟨bit, 1⟩) inside cursor
    · intro other member
      obtain rfl := (only other).mp member
      exact (mem_freeFrames p bit).mpr ⟨inside, isClear⟩
    · intro other
      simp only [bitmapTest_set, only]

/-- `pmm_alloc` gives up only when every frame is used. -/
theorem pmmAlloc_panic {reason : Panic} (start : Bounded p) (failed : pmmAlloc p = .panic reason) (bit : Nat)
    (inside : bit < p.totalPages) : bitmapTest p.bitmap bit = true := by
  unfold pmmAlloc at failed
  split at failed
  · rename_i missing
    exact bitmapFindClear_none missing bit (by rw [start.bits]; exact inside)
  · cases failed

theorem pmmAllocPages_spec {count : Nat} (start : Bounded p) (positive : 1 ≤ count)
    (done : pmmAllocPages p count = .ok (phys, p')) : ∃ first, phys = first * pageSize ∧ Took p p' ⟨first, count⟩ := by
  unfold pmmAllocPages at done
  rw [if_neg (by omega)] at done
  split at done
  · rename_i single
    subst single
    exact pmmAlloc_spec start done
  · split at done
    · cases done
    · rename_i first q found
      cases done
      obtain ⟨inside, isClear, rfl⟩ := bitmapFindClearRange_spec found start.next_le
      have small := start.frames
      refine ⟨first, frame_address (show first < p.totalPages by omega) small, ?_⟩
      apply took_of_marked start (b := ⟨first, count⟩) inside inside
      · intro bit member
        obtain ⟨lower, upper⟩ := (Block.mem_frames _ _).mp member
        exact (mem_freeFrames p bit).mpr ⟨Nat.lt_of_lt_of_le upper inside,
          isClear bit lower upper⟩
      · exact bitmapTest_setRange p.bitmap first count

/-- The state after a block of used frames has been cleared. -/
structure Gave (p p' : State) (b : Block) : Prop where
  total : p'.totalPages = p.totalPages
  cleared : ∀ bit, bitmapTest p'.bitmap bit =
    (bitmapTest p.bitmap bit && !decide (bit ∈ b.frames))
  bounded : Bounded p'
  counted : Counted p p'

theorem gave_of_cleared (start : Bounded p) (inside : b.first + b.count ≤ p.totalPages)
    (wasUsed : ∀ frame ∈ b.frames, bitmapTest p.bitmap frame = true)
    (cleared : ∀ bit, bitmapTest bitmap bit = (bitmapTest p.bitmap bit && !decide (bit ∈ b.frames))) :
    Gave p { p with bitmap := bitmap, freePages := (p.freePages + b.count) % 2 ^ 64 } b := by
  have bounded : ∀ frame ∈ b.frames, frame < p.totalPages := by
    intro frame member
    have := (Block.mem_frames _ _).mp member
    omega
  have grown : WordBitmap.clearBits bitmap p.totalPages = freeFrames p ∪ b.frames :=
    WordBitmap.clearBits_union bounded cleared
  have apart : Disjoint (freeFrames p) b.frames := by
    rw [Finset.disjoint_left]
    intro frame free member
    rw [mem_freeFrames, wasUsed frame member] at free
    cases free.2
  refine ⟨rfl, cleared, ⟨start.bits, start.next_le, start.frames, Nat.mod_lt _ (by decide)⟩, ?_⟩
  show ((p.freePages + b.count) % 2 ^ 64 + _) % 2 ^ 64 =
    (_ + (WordBitmap.clearBits bitmap p.totalPages).card) % 2 ^ 64
  rw [grown, Finset.card_union_of_disjoint apart, Block.card_frames]
  omega

theorem pmmFree_spec (start : Bounded p) (inside : frame < p.totalPages) (used : bitmapTest p.bitmap frame = true)
    : Gave p (pmmFree p (frame * pageSize)) ⟨frame, 1⟩ := by
  have only : ∀ other, other ∈ (Block.mk frame 1).frames ↔ frame = other := by
    intro other
    simp only [Block.mem_frames]
    omega
  have index : frame * pageSize / pageSize = frame := Nat.mul_div_cancel _ (by decide)
  simp only [pmmFree, index, used, ↓reduceIte]
  apply gave_of_cleared start (b := ⟨frame, 1⟩) inside
  · intro other member
    rw [← (only other).mp member, used]
  · intro other
    simp only [bitmapTest_clear, only]

theorem pmmFreePages_spec (start : Bounded p) (inside : b.first + b.count ≤ p.totalPages)
    (used : ∀ frame ∈ b.frames, bitmapTest p.bitmap frame = true) :
    Gave p (pmmFreePages p (b.first * pageSize) b.count) b := by
  have index : b.first * pageSize / pageSize = b.first := Nat.mul_div_cancel _ (by decide)
  simp only [pmmFreePages, index]
  exact gave_of_cleared start inside used (bitmapTest_clearRange p.bitmap b.first b.count)

end CreeperKernel.Pmm

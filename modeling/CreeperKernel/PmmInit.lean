import CreeperKernel.PmmAlloc
import Mathlib.Algebra.Order.Interval.Finset.SuccPred
import Mathlib.Data.Nat.SuccPred

namespace CreeperKernel.Pmm

/-- An entry of the bootloader's memory map; `usable` is `type == LIMINE_MEMMAP_USABLE`. -/
structure MapEntry where
  base : Nat
  length : Nat
  usable : Bool
  deriving DecidableEq, Repr

def MapEntry.frames (e : MapEntry) : Finset Nat :=
  Finset.Ico (e.base / pageSize) (e.base / pageSize + e.length / pageSize)

/-- The statics that `pmm_init` works on, with the bit indices it has used so far. -/
structure Boot where
  bitmap : Nat → BitVec 8
  freePages : Nat
  touched : List Nat

/-- `bitmap_clear(bit); free_pages++` -/
def Boot.clear (b : Boot) (bit : Nat) : Boot where
  bitmap := bitmapClear b.bitmap bit
  freePages := (b.freePages + 1) % 2 ^ 64
  touched := bit :: b.touched

/-- `bitmap_set(bit); free_pages--`, if `bitmap_test(bit)` gives `state`. -/
def Boot.setIf (b : Boot) (state : Bool) (bit : Nat) : Boot :=
  if bitmapTest b.bitmap bit = state then
    { bitmap := bitmapSet b.bitmap bit
      freePages := (b.freePages + (2 ^ 64 - 1)) % 2 ^ 64
      touched := bit :: bit :: b.touched }
  else { b with touched := bit :: b.touched }

def clearPages (b : Boot) (first : Nat) : Nat → Boot
  | 0 => b
  | n + 1 => (clearPages b first n).clear (first + n)

def clearEntry (b : Boot) (e : MapEntry) : Boot :=
  if e.usable then clearPages b (e.base / pageSize) (e.length / pageSize) else b

def takePages (b : Boot) (first : Nat) : Nat → Boot
  | 0 => b
  | n + 1 => (takePages b first n).setIf false (first + n)

def addPages (total : Nat) (e : MapEntry) : Nat :=
  if e.usable then (total + e.length / pageSize) % 2 ^ 64 else total

/-- `bitmap_bits` is the number of usable pages, wherever they lie. -/
def bitmapBits (mm : List MapEntry) : Nat := mm.foldl addPages 0

def bitmapSize (mm : List MapEntry) : Nat := (bitmapBits mm + 7) % 2 ^ 64 / 8

/-- The first usable entry the bitmap fits into. -/
def bitmapEntry (mm : List MapEntry) : Option MapEntry :=
  mm.find? fun e => e.usable && decide (bitmapSize mm ≤ e.length)

def bitmapPages (mm : List MapEntry) : Nat := (bitmapSize mm + pageSize - 1) % 2 ^ 64 / pageSize

/-- The frames that hold the bitmap, when it is placed in `e`. -/
def bitmapFrames (mm : List MapEntry) (e : MapEntry) : Finset Nat :=
  Finset.Ico (e.base / pageSize) (e.base / pageSize + bitmapPages mm)

/-- `pmm_init` over the bytes that `memory` has where the bitmap comes to lie. `none` is the panic
`no usable region large enough for the bitmap`; the list has every bit index that is read or written. -/
def pmmInit (mm : List MapEntry) (memory : Nat → BitVec 8) : Option (State × List Nat) :=
  match bitmapEntry mm with
  | none => none
  | some e =>
    -- `memset(bitmap, 0xFF, bitmap_size)`
    let b : Boot := ⟨fun i => if i < bitmapSize mm then 0xFF else memory i, 0, []⟩
    let b := b.setIf true 0
    let b := mm.foldl clearEntry b
    let b := takePages b (e.base / pageSize) (bitmapPages mm)
    some ({ bitmap := b.bitmap, bitmapBits := bitmapBits mm, bitmapNext := 0, totalPages := bitmapBits mm,
            freePages := b.freePages }, b.touched)

/-- A memory map of page-aligned entries that do not overlap. -/
structure ValidMap (mm : List MapEntry) : Prop where
  aligned : ∀ e ∈ mm, e.base % pageSize = 0 ∧ e.length % pageSize = 0
  bounded : ∀ e ∈ mm, e.base + e.length ≤ 2 ^ 64
  apart : mm.Pairwise fun e e' => Disjoint e.frames e'.frames

variable {mm : List MapEntry} {e : MapEntry}

theorem ValidMap.tail (valid : ValidMap (e :: mm)) : ValidMap mm where
  aligned e' member := valid.aligned e' (.tail _ member)
  bounded e' member := valid.bounded e' (.tail _ member)
  apart := (List.pairwise_cons.mp valid.apart).2

def usableFrames : List MapEntry → Finset Nat
  | [] => ∅
  | e :: mm => if e.usable then e.frames ∪ usableFrames mm else usableFrames mm

theorem mem_usableFrames {frame : Nat} : frame ∈ usableFrames mm ↔ ∃ e ∈ mm, e.usable = true ∧ frame ∈ e.frames := by
  induction mm with
  | nil => simp [usableFrames]
  | cons e mm ih =>
    cases usable : e.usable with
    | true => simp [usableFrames, usable, ih]
    | false => simp [usableFrames, usable, ih]

theorem ValidMap.disjoint_usable (valid : ValidMap (e :: mm)) : Disjoint e.frames (usableFrames mm) := by
  rw [Finset.disjoint_left]
  intro frame here there
  obtain ⟨e', member, -, inside⟩ := mem_usableFrames.mp there
  exact Finset.disjoint_left.mp ((List.pairwise_cons.mp valid.apart).1 e' member) here inside

theorem ValidMap.usableFrames_card (valid : ValidMap mm) : (usableFrames mm).card ≤ 2 ^ 52 := by
  have below : usableFrames mm ⊆ Finset.range (2 ^ 52) := by
    intro frame member
    obtain ⟨e, listed, -, inside⟩ := mem_usableFrames.mp member
    have bounded := valid.bounded e listed
    simp only [MapEntry.frames, Finset.mem_Ico, div_pageSize] at inside
    rw [Finset.mem_range]
    omega
  have card := Finset.card_le_card below
  rwa [Finset.card_range] at card

theorem addPages_foldl (valid : ValidMap mm) (total : Nat) (small : total + (usableFrames mm).card < 2 ^ 64) :
    mm.foldl addPages total = total + (usableFrames mm).card := by
  induction mm generalizing total with
  | nil => simp [usableFrames]
  | cons e mm ih =>
    rw [List.foldl_cons]
    cases usable : e.usable with
    | false =>
      simp only [usableFrames, usable, Bool.false_eq_true, ↓reduceIte] at small ⊢
      rw [show addPages total e = total by simp [addPages, usable]]
      exact ih valid.tail total small
    | true =>
      have size : e.frames.card = e.length / pageSize := by simp [MapEntry.frames]
      simp only [usableFrames, usable, ↓reduceIte, Finset.card_union_of_disjoint valid.disjoint_usable, size]
        at small ⊢
      have added : addPages total e = total + e.length / pageSize := by
        simp only [addPages, usable, ↓reduceIte]
        exact Nat.mod_eq_of_lt (by omega)
      rw [added, ih valid.tail _ (by omega)]
      omega

theorem bitmapBits_eq (valid : ValidMap mm) : bitmapBits mm = (usableFrames mm).card := by
  have card := valid.usableFrames_card
  unfold bitmapBits
  rw [addPages_foldl valid 0 (by omega), Nat.zero_add]

theorem bitmapFrames_usable (valid : ValidMap mm) (placed : bitmapEntry mm = some e) :
    bitmapFrames mm e ⊆ usableFrames mm := by
  have listed : e ∈ mm := List.mem_of_find?_eq_some placed
  have fits := List.find?_some placed
  simp only [Bool.and_eq_true, decide_eq_true_eq] at fits
  have card := valid.usableFrames_card
  have aligned := (valid.aligned e listed).2
  have pages : bitmapPages mm ≤ e.length / pageSize := by
    have size : bitmapSize mm ≤ 2 ^ 52 := by
      unfold bitmapSize
      rw [bitmapBits_eq valid]
      omega
    have length := fits.2
    unfold bitmapPages
    simp only [div_pageSize, mod_pageSize] at aligned ⊢
    rw [Nat.mod_eq_of_lt (by unfold pageSize; omega)]
    unfold pageSize
    omega
  intro frame member
  simp only [bitmapFrames, Finset.mem_Ico] at member
  apply mem_usableFrames.mpr
  refine ⟨e, listed, fits.1, ?_⟩
  simp only [MapEntry.frames, Finset.mem_Ico]
  omega

section Touched

@[simp] theorem mem_clear_touched (b : Boot) (bit other : Nat) :
    other ∈ (b.clear bit).touched ↔ other = bit ∨ other ∈ b.touched := by
  simp [Boot.clear]

@[simp] theorem mem_setIf_touched (b : Boot) (state : Bool) (bit other : Nat) :
    other ∈ (b.setIf state bit).touched ↔ other = bit ∨ other ∈ b.touched := by
  unfold Boot.setIf
  split
  · simp
  · simp

theorem mem_clearPages_touched (b : Boot) (first n bit : Nat) :
    bit ∈ (clearPages b first n).touched ↔ (first ≤ bit ∧ bit < first + n) ∨ bit ∈ b.touched := by
  induction n with
  | zero =>
    have none' : ¬ (first ≤ bit ∧ bit < first + 0) := by omega
    simp only [clearPages, none', false_or]
  | succ n ih =>
    simp only [clearPages, mem_clear_touched, ih]
    rw [← or_assoc]
    apply or_congr_left
    omega

theorem mem_takePages_touched (b : Boot) (first n bit : Nat) :
    bit ∈ (takePages b first n).touched ↔ (first ≤ bit ∧ bit < first + n) ∨ bit ∈ b.touched := by
  induction n with
  | zero =>
    have none' : ¬ (first ≤ bit ∧ bit < first + 0) := by omega
    simp only [takePages, none', false_or]
  | succ n ih =>
    simp only [takePages, mem_setIf_touched, ih]
    rw [← or_assoc]
    apply or_congr_left
    omega

theorem mem_clearEntries_touched (mm : List MapEntry) (b : Boot) (bit : Nat) :
    bit ∈ (mm.foldl clearEntry b).touched ↔ bit ∈ usableFrames mm ∨ bit ∈ b.touched := by
  induction mm generalizing b with
  | nil => simp [usableFrames]
  | cons e mm ih =>
    rw [List.foldl_cons, ih]
    cases usable : e.usable with
    | false => simp [usableFrames, clearEntry, usable]
    | true =>
      simp only [clearEntry, usable, ↓reduceIte, mem_clearPages_touched, usableFrames, Finset.mem_union,
        MapEntry.frames, Finset.mem_Ico]
      tauto

end Touched

variable {touched : List Nat} {memory : Nat → BitVec 8} {p : State}

/-- `pmm_init` uses the bits of the usable frames and bit 0: the bitmap's frames are among them. -/
theorem pmmInit_touched (valid : ValidMap mm) (returns : pmmInit mm memory = some (p, touched)) :
    p.bitmapBits = (usableFrames mm).card ∧ ∀ bit, bit ∈ touched ↔ bit = 0 ∨ bit ∈ usableFrames mm := by
  unfold pmmInit at returns
  cases placed : bitmapEntry mm with
  | none =>
    rw [placed] at returns
    cases returns
  | some e =>
    rw [placed] at returns
    cases returns
    refine ⟨bitmapBits_eq valid, fun bit => ?_⟩
    have own : bit ∈ bitmapFrames mm e → bit ∈ usableFrames mm := fun member => bitmapFrames_usable valid placed member
    simp only [bitmapFrames, Finset.mem_Ico] at own
    simp only [mem_takePages_touched, mem_clearEntries_touched, mem_setIf_touched, List.not_mem_nil, or_false]
    tauto

/-- Every bit index of `pmm_init` is inside the bitmap exactly if there is usable memory and it has no hole
from address 0 on. -/
theorem init_indices_in_bounds_iff (mm : List MapEntry) (memory : Nat → BitVec 8) (p : State) (touched : List Nat)
    (valid : ValidMap mm) (returns : pmmInit mm memory = some (p, touched)) :
    (∀ bit ∈ touched, bit < p.bitmapBits) ↔
      (usableFrames mm).Nonempty ∧ ∀ frame ∈ usableFrames mm, ∀ lower, lower < frame → lower ∈ usableFrames mm := by
  obtain ⟨bits, uses⟩ := pmmInit_touched valid returns
  rw [bits]
  constructor
  · intro inside
    have first := inside 0 ((uses 0).mpr (.inl rfl))
    have below : usableFrames mm ⊆ Finset.range (usableFrames mm).card := by
      intro frame member
      exact Finset.mem_range.mpr (inside frame ((uses frame).mpr (.inr member)))
    -- as many frames as there are numbers below: all of them
    have all : usableFrames mm = Finset.range (usableFrames mm).card :=
      Finset.eq_of_subset_of_card_le below (by rw [Finset.card_range])
    refine ⟨Finset.card_pos.mp first, ?_⟩
    intro frame member lower less
    have bound := Finset.mem_range.mp (below member)
    rw [all, Finset.mem_range]
    omega
  · rintro ⟨nonempty, gapless⟩ bit member
    rcases (uses bit).mp member with rfl | member
    · exact Finset.card_pos.mpr nonempty
    · have segment : Finset.range (bit + 1) ⊆ usableFrames mm := by
        intro lower less
        rw [Finset.mem_range] at less
        by_cases same : lower = bit
        · rwa [same]
        · exact gapless bit member lower (by omega)
      have card := Finset.card_le_card segment
      rw [Finset.card_range] at card
      omega

/-- Two usable pages at address 0, followed by a reserved one. -/
def lowMap : List MapEntry := [⟨0, 0x2000, true⟩, ⟨0x2000, 0x1000, false⟩]

/-- Two usable pages behind a reserved page. -/
def shiftedMap : List MapEntry := [⟨0, 0x1000, false⟩, ⟨0x1000, 0x2000, true⟩]

theorem lowMap_valid : ValidMap lowMap where
  aligned := by decide
  bounded := by decide
  apart := by decide

theorem shiftedMap_valid : ValidMap shiftedMap where
  aligned := by decide
  bounded := by decide
  apart := by decide

theorem init_indices_in_bounds_iff_low :
    ∃ p touched, pmmInit lowMap (fun _ => 0) = some (p, touched) ∧ ∀ bit ∈ touched, bit < p.bitmapBits := by
  refine ⟨_, _, rfl, ?_⟩
  apply (init_indices_in_bounds_iff lowMap (fun _ => 0) _ _ lowMap_valid rfl).mpr
  decide

/-- The bitmap of the shifted map has two bits, and `pmm_init` clears bit 2. -/
theorem init_index_behind_bitmap : ValidMap shiftedMap ∧
    ∃ p touched, pmmInit shiftedMap (fun _ => 0) = some (p, touched) ∧ p.bitmapBits = 2 ∧ 2 ∈ touched := by
  refine ⟨shiftedMap_valid, _, _, rfl, by decide, by decide⟩

/-- The free frames are marked by their bits, and `free_pages` counts one too few. -/
structure Marks (b : Boot) (free : Finset Nat) : Prop where
  bits : ∀ bit, bitmapTest b.bitmap bit = false ↔ bit ∈ free
  count : (b.freePages + 1) % 2 ^ 64 = free.card % 2 ^ 64

variable {b : Boot} {free : Finset Nat}

theorem Marks.clear (marks : Marks b free) {bit : Nat} (used : bit ∉ free) : Marks (b.clear bit) (insert bit free) := by
  refine ⟨fun other => ?_, ?_⟩
  · have before := marks.bits other
    simp only [Boot.clear, bitmapTest_clear, Bool.and_eq_false_iff, Bool.not_eq_false', decide_eq_true_eq, before,
      Finset.mem_insert]
    tauto
  · have before := marks.count
    simp only [Boot.clear, Finset.card_insert_of_notMem used]
    omega

theorem Marks.setIf (marks : Marks b free) (bit : Nat) : Marks (b.setIf false bit) (free.erase bit) := by
  unfold Boot.setIf
  split
  · rename_i isClear
    have member : bit ∈ free := (marks.bits bit).mp isClear
    refine ⟨fun other => ?_, ?_⟩
    · have before := marks.bits other
      simp only [bitmapTest_set, Bool.or_eq_false_iff, before, decide_eq_false_iff_not, Finset.mem_erase]
      tauto
    · have before := marks.count
      have positive := Finset.card_pos.mpr ⟨bit, member⟩
      simp only [Finset.card_erase_of_mem member]
      omega
  · rename_i used
    have absent : bit ∉ free := fun member => used ((marks.bits bit).mpr member)
    rw [Finset.erase_eq_of_notMem absent]
    exact ⟨marks.bits, marks.count⟩

theorem Marks.clearPages (marks : Marks b free) (first n : Nat) (used : Disjoint (Finset.Ico first (first + n)) free)
    : Marks (clearPages b first n) (Finset.Ico first (first + n) ∪ free) := by
  induction n with
  | zero => simpa [Pmm.clearPages] using marks
  | succ n ih =>
    have smaller : Finset.Ico first (first + n) ⊆ Finset.Ico first (first + (n + 1)) :=
      Finset.Ico_subset_Ico_right (by omega)
    have next : first + n ∉ Finset.Ico first (first + n) ∪ free := by
      have inside : first + n ∈ Finset.Ico first (first + (n + 1)) := by
        rw [Finset.mem_Ico]
        omega
      have absent := Finset.disjoint_left.mp used inside
      simp [absent]
    have step := (ih (used.mono_left smaller)).clear next
    rwa [← Finset.insert_union, Finset.insert_Ico_right_eq_Ico_add_one (Nat.le_add_right first n)] at step

theorem Marks.clearEntries (valid : ValidMap mm) (marks : Marks b free) (used : Disjoint (usableFrames mm) free) :
    Marks (mm.foldl clearEntry b) (usableFrames mm ∪ free) := by
  induction mm generalizing b free with
  | nil => simpa [usableFrames] using marks
  | cons e mm ih =>
    rw [List.foldl_cons]
    cases usable : e.usable with
    | false =>
      simp only [usableFrames, usable, Bool.false_eq_true, ↓reduceIte, clearEntry] at used ⊢
      exact ih valid.tail marks used
    | true =>
      simp only [usableFrames, usable, ↓reduceIte, clearEntry, Finset.disjoint_union_left] at used ⊢
      have step : Marks _ (e.frames ∪ free) := marks.clearPages _ _ used.1
      have rest := ih valid.tail step
        (Finset.disjoint_union_right.mpr ⟨valid.disjoint_usable.symm, used.2⟩)
      rwa [Finset.union_left_comm, ← Finset.union_assoc] at rest

theorem Marks.takePages (marks : Marks b free) (first n : Nat) :
    Marks (takePages b first n) (free \ Finset.Ico first (first + n)) := by
  induction n with
  | zero => simpa [Pmm.takePages] using marks
  | succ n ih =>
    have step := ih.setIf (first + n)
    rwa [← Finset.sdiff_insert, Finset.insert_Ico_right_eq_Ico_add_one (Nat.le_add_right first n)] at step

/-- After the first pass no frame is free and the counter is 0 - 1: the bitmap is full, so the test of frame 0
succeeds. -/
theorem Marks.start (memory : Nat → BitVec 8) (size : Nat) (filled : ∀ i, memory i = 0xFF) :
    Marks (Boot.setIf ⟨fun i => if i < size then 0xFF else memory i, 0, []⟩ true 0) ∅ := by
  have full : ∀ bit, bitmapTest (fun i => if i < size then 0xFF else memory i) bit = true := by
    intro bit
    have byte : (fun i => if i < size then 0xFF else memory i) (bit / 8) = BitVec.allOnes 8 := by
      simp [filled]
    unfold bitmapTest WordBitmap.test
    rw [byte, BitVec.getLsbD_allOnes]
    exact decide_eq_true (Nat.mod_lt _ (by decide))
  unfold Boot.setIf
  rw [if_pos (full 0)]
  refine ⟨fun bit => ?_, by simp⟩
  simp only [bitmapTest_set, full bit, Bool.true_or, Bool.true_eq_false, Finset.notMem_empty]

/-- What `pmm_init` leaves in a bitmap that is large enough for every frame: frame 0 is treated like any
other, and the counter is one below the number of free frames. -/
theorem pmmInit_marks (valid : ValidMap mm) (filled : ∀ i, memory i = 0xFF)
    (returns : pmmInit mm memory = some (p, touched)) : ∃ e, bitmapEntry mm = some e ∧
      (∀ frame, bitmapTest p.bitmap frame = false ↔ frame ∈ usableFrames mm \ bitmapFrames mm e) ∧
      (p.freePages + 1) % 2 ^ 64 = (usableFrames mm \ bitmapFrames mm e).card % 2 ^ 64 := by
  unfold pmmInit at returns
  cases placed : bitmapEntry mm with
  | none =>
    rw [placed] at returns
    cases returns
  | some e =>
    rw [placed] at returns
    cases returns
    have cleared := (Marks.start memory (bitmapSize mm) filled).clearEntries valid (Finset.disjoint_empty_right _)
    rw [Finset.union_empty] at cleared
    have taken := cleared.takePages (e.base / pageSize) (bitmapPages mm)
    exact ⟨e, rfl, taken.bits, taken.count⟩

/-- A frame is free exactly if it is usable, not frame 0 and not one of the bitmap's, and `free_pages` is the
number of the free frames. -/
structure Accounted (mm : List MapEntry) (p : State) : Prop where
  marks : ∀ e, bitmapEntry mm = some e → ∀ frame, bitmapTest p.bitmap frame = false ↔
    frame ∈ usableFrames mm ∧ frame ≠ 0 ∧ frame ∉ bitmapFrames mm e
  count : ∃ free : Finset Nat, (∀ frame, frame ∈ free ↔ bitmapTest p.bitmap frame = false) ∧ p.freePages = free.card

/-- The frames are never accounted for after `pmm_init`. -/
theorem init_accounting_fails (mm : List MapEntry) (memory : Nat → BitVec 8) (p : State) (touched : List Nat)
    (valid : ValidMap mm) (filled : ∀ i, memory i = 0xFF) (returns : pmmInit mm memory = some (p, touched)) :
    ¬ Accounted mm p := by
  intro accounted
  obtain ⟨e, -, bits, count⟩ := pmmInit_marks valid filled returns
  obtain ⟨free, listed, exact'⟩ := accounted.count
  have same : free = usableFrames mm \ bitmapFrames mm e := by
    ext frame
    rw [listed, bits]
  have bound := (Finset.card_le_card (Finset.sdiff_subset (s := usableFrames mm) (t := bitmapFrames mm e))).trans
    valid.usableFrames_card
  rw [exact', same] at count
  omega

theorem init_accounting_fails_shifted :
    ∃ p touched, pmmInit shiftedMap (fun _ => 0xFF) = some (p, touched) ∧ ¬ Accounted shiftedMap p :=
  ⟨_, _, rfl, init_accounting_fails shiftedMap (fun _ => 0xFF) _ _ shiftedMap_valid (fun _ => rfl) rfl⟩

/-- Of the frames 1 and 2 the first holds the bitmap: frame 2 is free and `free_pages` is 0. -/
theorem one_free_frame_counted_as_none : ValidMap shiftedMap ∧
    ∃ p touched, pmmInit shiftedMap (fun _ => 0xFF) = some (p, touched) ∧ p.freePages = 0 ∧
      bitmapTest p.bitmap 2 = false := by
  exact ⟨shiftedMap_valid, _, _, rfl, by decide, by decide⟩

end CreeperKernel.Pmm

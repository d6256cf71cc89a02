import CreeperKernel.ByteBlocks
import CreeperKernel.Initrd

namespace CreeperKernel.Memops

open ByteBlocks

abbrev Mem := BitVec 64 → BitVec 8

def moveByte (dest src : BitVec 64) (mem : Mem) (i : Nat) : Mem :=
  Function.update mem (dest + BitVec.ofNat 64 i) (mem (src + BitVec.ofNat 64 i))

def moveUp (dest src : BitVec 64) (mem : Mem) : Nat → Mem
  | 0 => mem
  | n + 1 => moveByte dest src (moveUp dest src mem n) n

def moveDown (dest src : BitVec 64) : Mem → Nat → Mem
  | mem, 0 => mem
  | mem, i + 1 => moveDown dest src (moveByte dest src mem i) i

def memmove (mem : Mem) (dest src : BitVec 64) (n : Nat) : BitVec 64 × Mem :=
  if dest < src then (dest, moveUp dest src mem n)
  else if src < dest then (dest, moveDown dest src mem n)
  else (dest, mem)

/-- Precisely the bytes with an index in `[low, high)` have been moved. -/
structure Moved (mem : Mem) (dest src : BitVec 64) (low high : Nat) (after : Mem) : Prop where
  copied : ∀ i, low ≤ i → i < high → after (dest + BitVec.ofNat 64 i) = mem (src + BitVec.ofNat 64 i)
  frame : ∀ a, (∀ i, low ≤ i → i < high → a ≠ dest + BitVec.ofNat 64 i) → after a = mem a

section Loops

variable {mem after : Mem} {dest src : BitVec 64} {low high low' high' n i : Nat}

theorem toNat_add_ofNat {a : BitVec 64} (fits : a.toNat + n ≤ 2 ^ 64) (below : i < n) :
    (a + BitVec.ofNat 64 i).toNat = a.toNat + i := by
  rw [BitVec.toNat_add, BitVec.toNat_ofNat]
  omega

theorem offset_ne {a b : BitVec 64} {j : Nat} (aFits : a.toNat + n ≤ 2 ^ 64) (bFits : b.toNat + n ≤ 2 ^ 64) (inA : i < n)
    (inB : j < n) (apart : a.toNat + i ≠ b.toNat + j) : a + BitVec.ofNat 64 i ≠ b + BitVec.ofNat 64 j := by
  intro same
  apply apart
  rw [← toNat_add_ofNat aFits inA, same, toNat_add_ofNat bFits inB]

theorem Moved.refl (mem : Mem) (dest src : BitVec 64) : Moved mem dest src n n mem where
  copied i from_ below := by omega
  frame _ _ := rfl

theorem Moved.byte (moved : Moved mem dest src low high after) (destFits : dest.toNat + n ≤ 2 ^ 64) (inside : high' ≤ n)
    (more : ∀ j, low' ≤ j ∧ j < high' ↔ j = i ∨ low ≤ j ∧ j < high)
    (unread : ∀ j, low ≤ j → j < high → src + BitVec.ofNat 64 i ≠ dest + BitVec.ofNat 64 j) :
    Moved mem dest src low' high' (moveByte dest src after i) := by
  have here := (more i).mpr (.inl rfl)
  have source := moved.frame _ unread
  constructor
  · intro j from_ below
    by_cases same : j = i
    · rw [same, moveByte, Function.update_self, source]
    · have other : dest + BitVec.ofNat 64 j ≠ dest + BitVec.ofNat 64 i :=
        offset_ne destFits destFits (by omega) (by omega) (by omega)
      have before := ((more j).mp ⟨from_, below⟩).resolve_left same
      rw [moveByte, Function.update_of_ne other, moved.copied j before.1 before.2]
  · intro a outside
    rw [moveByte, Function.update_of_ne (outside i here.1 here.2)]
    apply moved.frame
    intro j from_ below
    have wider := (more j).mpr (.inr ⟨from_, below⟩)
    exact outside j wider.1 wider.2

theorem moveUp_moved (above : dest < src) (destFits : dest.toNat + n ≤ 2 ^ 64) (srcFits : src.toNat + n ≤ 2 ^ 64)
    (inside : i ≤ n) : Moved mem dest src 0 i (moveUp dest src mem i) := by
  induction i with
  | zero => exact .refl mem dest src
  | succ i ih =>
    apply (ih (by omega)).byte destFits inside (fun j => by omega)
    intro j _ below
    have higher := BitVec.lt_def.mp above
    exact offset_ne srcFits destFits (by omega) (by omega) (by omega)

theorem Moved.moveDown (moved : Moved mem dest src i n after) (above : src < dest) (destFits : dest.toNat + n ≤ 2 ^ 64)
    (srcFits : src.toNat + n ≤ 2 ^ 64) (inside : i ≤ n) : Moved mem dest src 0 n (Memops.moveDown dest src after i) := by
  induction i generalizing after with
  | zero => exact moved
  | succ i ih =>
    apply ih _ (by omega)
    apply moved.byte destFits (Nat.le_refl n) (fun j => by omega)
    intro j from_ below
    have higher := BitVec.lt_def.mp above
    exact offset_ne srcFits destFits (by omega) (by omega) (by omega)

theorem memmove_moved (mem : Mem) (destFits : dest.toNat + n ≤ 2 ^ 64) (srcFits : src.toNat + n ≤ 2 ^ 64) :
    Moved mem dest src 0 n (memmove mem dest src n).2 := by
  unfold memmove
  split
  · rename_i above
    exact moveUp_moved above destFits srcFits (Nat.le_refl n)
  · split
    · rename_i above
      exact (Moved.refl mem dest src).moveDown above destFits srcFits (Nat.le_refl n)
    · have same : src = dest := by
        apply BitVec.eq_of_toNat_eq
        simp only [BitVec.lt_def] at *
        omega
      rw [same]
      exact ⟨fun _ _ _ => rfl, fun _ _ => rfl⟩

end Loops

/-- However the two ranges overlap, the destination holds the bytes that the source held, and no other byte is changed. -/
theorem memmove_correct (mem : Mem) (dest src : BitVec 64) (n : Nat) (destFits : dest.toNat + n ≤ 2 ^ 64)
    (srcFits : src.toNat + n ≤ 2 ^ 64) :
    (∀ i < n, (memmove mem dest src n).2 (dest + BitVec.ofNat 64 i) = mem (src + BitVec.ofNat 64 i)) ∧
      ∀ a : BitVec 64, a.toNat < dest.toNat ∨ dest.toNat + n ≤ a.toNat → (memmove mem dest src n).2 a = mem a := by
  have moved := memmove_moved mem destFits srcFits
  refine ⟨fun i below => moved.copied i (Nat.zero_le i) below, fun a outside => moved.frame a fun i _ below same => ?_⟩
  rw [same, toNat_add_ofNat destFits below] at outside
  omega

/-- Three bytes are moved up by one, onto themselves. -/
theorem memmove_correct_overlap :
    (memmove (fun a => a.setWidth 8) 0x1001 0x1000 3).2 (0x1001 + BitVec.ofNat 64 2) = 2 :=
  ((memmove_correct (fun a => a.setWidth 8) 0x1001 0x1000 3 (by decide) (by decide)).1 2 (by decide)).trans (by decide)

/-- Inside a module at `base` it is the `memmove` by which `normalize_tar_path` shortens a name in place. -/
theorem memmove_image (mem : Mem) (base : BitVec 64) {size dst src count : Nat} (fits : base.toNat + size ≤ 2 ^ 64)
    (some_ : 0 < count) (destInside : dst + count ≤ size) (srcInside : src + count ≤ size) :
    load (memmove mem (base + BitVec.ofNat 64 dst) (base + BitVec.ofNat 64 src) count).2 base size =
      Initrd.memmove (load mem base size) dst src count := by
  have destPlace := toNat_add_ofNat fits (show dst < size by omega)
  have srcPlace := toNat_add_ofNat fits (show src < size by omega)
  have moved := memmove_moved mem (show (base + BitVec.ofNat 64 dst).toNat + count ≤ 2 ^ 64 by omega)
    (show (base + BitVec.ofNat 64 src).toNat + count ≤ 2 ^ 64 by omega)
  generalize (memmove mem (base + BitVec.ofNat 64 dst) (base + BitVec.ofNat 64 src) count).2 = after at *
  have copied (j : Nat) (below : j < count) := moved.copied j (Nat.zero_le j) below
  simp only [BitVec.add_assoc, ← BitVec.ofNat_add] at copied
  have kept (i : Nat) (inside : i < size) (out : i < dst ∨ dst + count ≤ i) :
      after (base + BitVec.ofNat 64 i) = mem (base + BitVec.ofNat 64 i) := by
    apply moved.frame
    intro j _ below
    rw [BitVec.add_assoc, ← BitVec.ofNat_add]
    exact offset_ne fits fits inside (by omega) (by omega)
  apply List.ext_getElem
  · simp [Initrd.memmove]
    omega
  · intro i inside _
    rw [length_load] at inside
    simp only [Initrd.memmove, load, List.getElem_append, List.getElem_take, List.getElem_drop, List.getElem_map,
      List.getElem_range, List.length_append, List.length_take, List.length_drop, List.length_map, List.length_range]
    split
    · split
      · exact kept i inside (by omega)
      · have byte := copied (i - min dst size) (by omega)
        rwa [show dst + (i - min dst size) = i by omega] at byte
    · rw [kept i inside (by omega)]
      congr 3
      omega

end CreeperKernel.Memops

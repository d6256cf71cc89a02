import CreeperKernel.ByteBlocks
import CreeperKernel.WordBytes

namespace CreeperKernel.Memory

open ByteBlocks WordBytes

abbrev Mem := BitVec 64 → BitVec 8

def loadWord (mem : Mem) (a : BitVec 64) : BitVec 64 := wordOf fun k => mem (a + BitVec.ofNat 64 k)

def storeWord (mem : Mem) (a v : BitVec 64) : Mem := store mem a ((List.range 8).map (byteOf v))

/-- `aligned_malloc`, over what `kmalloc_impl` does for a number of bytes. -/
def alignedMalloc (kmallocImpl : BitVec 64 → Mem → BitVec 64 × Mem) (size alignment : BitVec 64) (mem : Mem) :
    BitVec 64 × Mem :=
  if alignment &&& (alignment - 1) ≠ 0 then (0, mem) else
  let extra := alignment - 1 + 8
  let (raw, mem) := kmallocImpl (size + extra) mem
  if raw = 0 then (0, mem) else
  let aligned := (raw + 8 + alignment - 1) &&& ~~~(alignment - 1)
  (aligned, storeWord mem (aligned - 8) raw)

def alignedFree (kfreeImpl : BitVec 64 → Mem → Mem) (ptr : BitVec 64) (mem : Mem) : Mem :=
  kfreeImpl (loadWord mem (ptr - 8)) mem

theorem loadWord_storeWord {mem after : Mem} {a v : BitVec 64}
    (kept : ∀ k < 8, after (a + BitVec.ofNat 64 k) = storeWord mem a v (a + BitVec.ofNat 64 k)) : loadWord after a = v := by
  apply eq_of_byteOf
  intro k inside
  rw [loadWord, byteOf_wordOf _ inside, kept k inside, storeWord, store, toNat_offset a (by omega),
    List.getD_eq_getElem?_getD, List.getElem?_map, List.getElem?_range inside]
  rfl

section Alignment

variable {alignment : BitVec 64} {k : Nat}

theorem toNat_sub_one (power : alignment.toNat = 2 ^ k) : (alignment - 1).toNat = 2 ^ k - 1 := by
  have positive := Nat.two_pow_pos k
  have small := alignment.isLt
  rw [BitVec.toNat_sub, power]
  simp only [BitVec.reduceToNat]
  omega

theorem and_sub_one (power : alignment.toNat = 2 ^ k) : alignment &&& (alignment - 1) = 0 := by
  apply BitVec.eq_of_toNat_eq
  rw [BitVec.toNat_and, toNat_sub_one power, Nat.and_two_pow_sub_one_eq_mod, power, Nat.mod_self]
  rfl

theorem toNat_and_not_sub_one (power : alignment.toNat = 2 ^ k) (a : BitVec 64) :
    (a &&& ~~~(alignment - 1)).toNat = 2 ^ k * (a.toNat / 2 ^ k) := by
  have shifts : a &&& ~~~(alignment - 1) = (a >>> k) <<< k := by
    apply BitVec.eq_of_getLsbD_eq
    intro i inside
    have mask : (alignment - 1).getLsbD i = decide (i < k) := by
      rw [BitVec.getLsbD, toNat_sub_one power, Nat.testBit_two_pow_sub_one]
    rw [BitVec.getLsbD_and, BitVec.getLsbD_not, mask, BitVec.getLsbD_shiftLeft, BitVec.getLsbD_ushiftRight]
    by_cases low : i < k
    · simp [low]
    · simp [low, inside, Nat.add_sub_of_le (Nat.le_of_not_lt low)]
  have back : 2 ^ k * (a.toNat / 2 ^ k) ≤ a.toNat := Nat.mul_div_le _ _
  rw [shifts, BitVec.toNat_shiftLeft, BitVec.toNat_ushiftRight, Nat.shiftRight_eq_div_pow, Nat.shiftLeft_eq, Nat.mul_comm,
    Nat.mod_eq_of_lt (by omega)]

/-- The saved word is less than an alignment behind the start of the block. -/
theorem saved_place {raw : BitVec 64} (power : alignment.toNat = 2 ^ k) (room : raw.toNat + alignment.toNat + 7 ≤ 2 ^ 64) :
    ∃ skip < 2 ^ k, (((raw + 8 + alignment - 1) &&& ~~~(alignment - 1)) - 8).toNat = raw.toNat + skip := by
  have positive := Nat.two_pow_pos k
  have rounded := toNat_and_not_sub_one power (raw + 8 + alignment - 1)
  have sum : (raw + 8 + alignment - 1).toNat = (raw.toNat + 2 ^ k + 7) % 2 ^ 64 := by
    rw [← power]
    bv_omega
  rw [sum] at rounded
  rw [BitVec.toNat_sub, rounded]
  simp only [BitVec.reduceToNat]
  rw [power] at room
  rcases Nat.eq_or_lt_of_le room with top | below
  · refine ⟨2 ^ k - 1, by omega, ?_⟩
    rw [top]
    simp
    omega
  · have low := Nat.mul_div_le (raw.toNat + 2 ^ k + 7) (2 ^ k)
    have high := Nat.lt_mul_div_succ (raw.toNat + 2 ^ k + 7) positive
    rw [Nat.mul_succ] at high
    rw [Nat.mod_eq_of_lt below]
    refine ⟨2 ^ k * ((raw.toNat + 2 ^ k + 7) / 2 ^ k) - 8 - raw.toNat, by omega, by omega⟩

end Alignment

/-- The address `a` of `size` bytes, in a block of `size + alignment + 7` bytes at `raw`. For a block that ends with the
address space `a` may wrap to 0, which is why the end is counted from the saved word. -/
structure AlignedBlock (size alignment raw a : BitVec 64) (mem : Mem) : Prop where
  aligned : alignment.toNat ∣ a.toNat
  start : raw.toNat ≤ (a - 8).toNat
  end_ : (a - 8).toNat + 8 + size.toNat ≤ raw.toNat + (size.toNat + alignment.toNat + 7)
  apart : ∀ i < 8, ∀ j < size.toNat, a - 8 + BitVec.ofNat 64 i ≠ a + BitVec.ofNat 64 j
  /-- whatever the caller writes to the `size` bytes -/
  freed : ∀ (kfreeImpl : BitVec 64 → Mem → Mem) (written : Mem),
    (∀ x, (∀ j < size.toNat, x ≠ a + BitVec.ofNat 64 j) → written x = mem x) →
    alignedFree kfreeImpl a written = kfreeImpl raw written

theorem alignedMalloc_inside (kmallocImpl : BitVec 64 → Mem → BitVec 64 × Mem) (size alignment raw : BitVec 64)
    (mem heap : Mem) (k : Nat) (power : alignment.toNat = 2 ^ k) (noWrap : size.toNat + alignment.toNat + 7 < 2 ^ 64)
    (given : kmallocImpl (size + alignment + 7) mem = (raw, heap)) (notNull : raw ≠ 0)
    (block : raw.toNat + (size.toNat + alignment.toNat + 7) ≤ 2 ^ 64) :
    AlignedBlock size alignment raw (alignedMalloc kmallocImpl size alignment mem).1
      (alignedMalloc kmallocImpl size alignment mem).2 := by
  have request : size + (alignment - 1 + 8) = size + alignment + 7 := by bv_omega
  have result : alignedMalloc kmallocImpl size alignment mem = ((raw + 8 + alignment - 1) &&& ~~~(alignment - 1),
      storeWord heap (((raw + 8 + alignment - 1) &&& ~~~(alignment - 1)) - 8) raw) := by
    simp only [alignedMalloc, and_sub_one power, request, given, notNull, if_false, ne_eq, not_true_eq_false]
  obtain ⟨skip, less, place⟩ := saved_place power (show raw.toNat + alignment.toNat + 7 ≤ 2 ^ 64 by omega)
  have rounded := toNat_and_not_sub_one power (raw + 8 + alignment - 1)
  simp only [result]
  generalize (raw + 8 + alignment - 1) &&& ~~~(alignment - 1) = a at place rounded
  have apart (i : Nat) (inWord : i < 8) (j : Nat) (inBlock : j < size.toNat) :
      a - 8 + BitVec.ofNat 64 i ≠ a + BitVec.ofNat 64 j := by
    intro same
    have places := congrArg BitVec.toNat same
    have positive := Nat.two_pow_pos k
    simp only [BitVec.toNat_add, BitVec.toNat_sub, BitVec.toNat_ofNat, BitVec.reduceToNat] at places
    omega
  refine ⟨⟨_, by rw [rounded, power]⟩, by omega, by omega, apart, fun kfreeImpl written only => ?_⟩
  rw [alignedFree, loadWord_storeWord]
  intro k inWord
  exact only _ (apart k inWord)

/-- A page in a block whose start is aligned to eight bytes only. -/
theorem alignedMalloc_inside_page :
    4096 ∣ (alignedMalloc (fun _ heap => (0x20008, heap)) 100 4096 fun _ => 0).1.toNat :=
  (alignedMalloc_inside (fun _ heap => (0x20008, heap)) 100 4096 0x20008 (fun _ => 0) (fun _ => 0) 12 rfl (by decide) rfl
    (by decide) (by decide)).aligned

end CreeperKernel.Memory

import CreeperKernel.Overwrites
import Mathlib.Algebra.Group.Nat.Defs

/- Blocks of a flat memory whose addresses wrap around. -/
namespace CreeperKernel.ByteBlocks

open Overwrites

variable {w : Nat} {α : Type*} {mem after : BitVec w → α} {a b : BitVec w}

def load (mem : BitVec w → α) (a : BitVec w) (n : Nat) : List α :=
  (List.range n).map fun i => mem (a + BitVec.ofNat w i)

/-- The memory after `data` has been written from `a` on. -/
def store (mem : BitVec w → α) (a : BitVec w) (data : List α) : BitVec w → α :=
  fun x => data.getD (x - a).toNat (mem x)

@[simp] theorem length_load (mem : BitVec w → α) (a : BitVec w) (n : Nat) : (load mem a n).length = n := by
  rw [load, List.length_map, List.length_range]

theorem load_add (mem : BitVec w → α) (a : BitVec w) (m n : Nat) :
    load mem a (m + n) = load mem a m ++ load mem (a + BitVec.ofNat w m) n := by
  rw [load, List.range_add, List.map_append, List.map_map]
  congr 1
  apply List.map_congr_left
  intro i _
  show mem (a + BitVec.ofNat w (m + i)) = mem (a + BitVec.ofNat w m + BitVec.ofNat w i)
  rw [BitVec.ofNat_add, BitVec.add_assoc]

@[simp] theorem load_zero (mem : BitVec w → α) (a : BitVec w) : load mem a 0 = [] := rfl

theorem take_load (mem : BitVec w → α) (a : BitVec w) (m n : Nat) : (load mem a n).take m = load mem a (min m n) := by
  rw [load, ← List.map_take, List.take_range]
  rfl

theorem take_drop_load (mem : BitVec w → α) (a : BitVec w) {k n : Nat} (inside : k ≤ n) (m : Nat) :
    ((load mem a n).drop k).take m = load mem (a + BitVec.ofNat w k) (min m (n - k)) := by
  have split : load mem a n = load mem a k ++ load mem (a + BitVec.ofNat w k) (n - k) := by
    rw [← load_add, Nat.add_sub_of_le inside]
  rw [split, List.drop_left' (length_load mem a k), take_load]

theorem toNat_offset (a : BitVec w) {i : Nat} (small : i < 2 ^ w) : (a + BitVec.ofNat w i - a).toNat = i := by
  rw [BitVec.add_comm, BitVec.add_sub_cancel, BitVec.toNat_ofNat, Nat.mod_eq_of_lt small]

end CreeperKernel.ByteBlocks

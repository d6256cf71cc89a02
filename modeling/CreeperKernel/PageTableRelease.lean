import CreeperKernel.FrameSupply

namespace CreeperKernel.Vmm

open RadixTree (write write_apply)

/-- The entries of a PML4 that translate user addresses. -/
def lowerHalf : List Index := (List.finRange 256).map (Fin.castLE (by decide))

/-- The entries `vmm_free_user_tables` looks at. -/
def userEntries (level : Nat) : List Index := if level = 4 then lowerHalf else List.finRange 512

section

variable {σ : Type} [FrameAllocator σ]

/-- One round of the loop of `vmm_free_user_tables`, where `below` frees the tables of the next level. -/
def freeEntry (below : Frame → Machine σ → Machine σ) (level : Nat) (table : Frame) (m : Machine σ) (i : Index) :
    Machine σ :=
  let e := m.mem table i
  if ¬ isPresent e then m else
  let phys := frameOf e
  let leaf := level + 1 = 1 ∨ (level + 1 < 4 ∧ isHuge e)
  let m :=
    if leaf then (if isOwned e then m.release phys else m)
    else (below phys m).release phys
  m.store table i 0

def vmmFreeUserTables : Nat → Frame → Machine σ → Machine σ
  | 0, _, m => m
  | level + 1, table, m => (userEntries (level + 1)).foldl (freeEntry (vmmFreeUserTables level) level table) m

/-- The page tables `vmm_pagetable_free_owned` refuses to free. -/
structure InUse where
  kernelPagedirPhys : Frame
  cr3 : Frame

def vmmPagetableFreeOwned (inUse : InUse) (pml4Phys : Frame) (m : Machine σ) : Machine σ :=
  if pml4Phys = 0 ∨ pml4Phys = inUse.kernelPagedirPhys then m
  else if inUse.cr3 = pml4Phys then m
  else (vmmFreeUserTables 4 pml4Phys m).release pml4Phys

end

/-- The frames `vmm_free_user_tables` comes across from `table` down. -/
def Reaches (mem : Memory) : Nat → Frame → Frame → Prop
  | 0, _, _ => False
  | level + 1, table, f => ∃ i ∈ userEntries (level + 1), isPresent (mem table i) = true ∧
      (frameOf (mem table i) = f ∨ Reaches mem level (frameOf (mem table i)) f)

/-- Some entries have been cleared. -/
def Cut (mem after : Memory) : Prop := ∀ table i, after table i = mem table i ∨ after table i = 0

variable {mem after : Memory}

theorem Cut.trans {middle : Memory} (front : Cut mem middle) (back : Cut middle after) : Cut mem after := by
  intro table i
  rcases back table i with same | zero
  · rw [same]
    exact front table i
  · exact .inr zero

variable {table f : Frame}

theorem Cut.present (cut : Cut mem after) {i : Index} (present : isPresent (after table i) = true) :
    after table i = mem table i := by
  rcases cut table i with same | zero
  · exact same
  · rw [zero] at present
    cases present

theorem Cut.write (cut : Cut mem after) (table : Frame) (i : Index) : Cut mem (write after table i 0) := by
  intro t j
  rw [write_apply]
  split
  · exact .inr rfl
  · exact cut t j

theorem Cut.reaches (cut : Cut mem after) {level : Nat} (reached : Reaches after level table f) :
    Reaches mem level table f := by
  induction level generalizing table with
  | zero => exact reached
  | succ level ih =>
    obtain ⟨i, member, present, below⟩ := reached
    have same := cut.present present
    rw [same] at present below
    exact ⟨i, member, present, below.imp_right ih⟩

theorem frameOf_eq_pageAt (e : Entry) : frameOf e = pageAt (e.toNat / 4096 % 2 ^ 40) := by
  apply BitVec.eq_of_getLsbD_eq
  intro i inside
  have shifted : e.toNat / 4096 % 2 ^ 40 * Pmm.pageSize = (e.toNat / 2 ^ 12 % 2 ^ 40) <<< 12 := by
    rw [Nat.shiftLeft_eq]
    rfl
  rw [frameOf, BitVec.getLsbD_and, getLsbD_pteAddrMask inside, pageAt, BitVec.getLsbD_ofNat, shifted,
    Nat.testBit_shiftLeft, Nat.testBit_mod_two_pow, Nat.testBit_div_two_pow]
  by_cases low : 12 ≤ i
  · have high : i - 12 < 40 ↔ i < 52 := by omega
    have bit : e.toNat.testBit (i - 12 + 12) = e.getLsbD i := by
      rw [Nat.sub_add_cancel low]
      rfl
    simp only [low, high, bit, inside, true_and, decide_true, Bool.true_and]
    rw [Bool.and_comm]
  · simp [low]

theorem Free.of_release {m : Machine Pmm.State} {e : Entry} (free : Free (m.release (frameOf e)).frames f) :
    Free m.frames f ∨ frameOf e = f := by
  obtain ⟨n, member, rfl⟩ := free
  rw [frameOf_eq_pageAt] at member ⊢
  have small : e.toNat / 4096 % 2 ^ 40 < 2 ^ 40 := Nat.mod_lt _ (by decide)
  have address : (pageAt (e.toNat / 4096 % 2 ^ 40)).toNat / Pmm.pageSize = e.toNat / 4096 % 2 ^ 40 := by
    rw [pageAt_toNat (by omega), Pmm.div_pageSize, Nat.mul_div_cancel_left _ (by decide)]
  simp only [Machine.release, FrameAllocator.pmmFree, Pmm.pmmFree, address] at member
  split at member
  · rw [Pmm.mem_freeFrames] at member
    obtain ⟨inside, clear⟩ := member
    simp only [Pmm.bitmapTest_clear, Bool.and_eq_false_iff, Bool.not_eq_false',
      decide_eq_true_eq] at clear
    rcases clear with clear | rfl
    · exact .inl ⟨n, (Pmm.mem_freeFrames _ _).mpr ⟨inside, clear⟩, rfl⟩
    · exact .inr rfl
  · exact .inl ⟨n, member, rfl⟩

/-- What the tables do not lead to is not given back. -/
theorem vmmFreeUserTables_keeps (level : Nat) (table : Frame) (m : Machine Pmm.State)
    (apart : ¬ Reaches m.mem level table f) (used : ¬ Free m.frames f) :
    Cut m.mem (vmmFreeUserTables level table m).mem ∧ ¬ Free (vmmFreeUserTables level table m).frames f := by
  induction level generalizing table m with
  | zero => exact ⟨fun _ _ => .inl rfl, used⟩
  | succ level ih =>
    unfold vmmFreeUserTables
    apply List.foldlRecOn (motive := fun after : Machine Pmm.State =>
      Cut m.mem after.mem ∧ ¬ Free after.frames f)
    · exact ⟨fun _ _ => .inl rfl, used⟩
    · intro after kept i member
      obtain ⟨cut, used⟩ := kept
      unfold freeEntry
      dsimp only
      split
      · exact ⟨cut, used⟩
      · rename_i present
        rw [not_not] at present
        have here := cut.present present
        rw [here] at present ⊢
        have other : frameOf (m.mem table i) ≠ f := fun same =>
          apart ⟨i, member, present, .inl same⟩
        have released : ∀ k : Machine Pmm.State, ¬ Free k.frames f →
            ¬ Free (k.release (frameOf (m.mem table i))).frames f := by
          intro k used free
          rcases free.of_release with before | same
          · exact used before
          · exact other same
        split
        · split
          · exact ⟨cut.write table i, released after used⟩
          · exact ⟨cut.write table i, used⟩
        · have below : ¬ Reaches after.mem level (frameOf (m.mem table i)) f := fun reached =>
            apart ⟨i, member, present, .inr (cut.reaches reached)⟩
          obtain ⟨deeper, still⟩ := ih (frameOf (m.mem table i)) after below used
          exact ⟨(cut.trans deeper).write table i, released _ still⟩

end CreeperKernel.Vmm

import CreeperKernel.PageTableEffects
import CreeperKernel.PmmAlloc

namespace CreeperKernel.Vmm

open Pmm (pageSize freeFrames Bounded Block Took Gave mul_pageSize)

/-- The paging code on the physical allocator. -/
instance : FrameAllocator Pmm.State where
  pmmAlloc := fun p => do
    let (phys, p) ← Pmm.pmmAlloc p
    pure (BitVec.ofNat 64 phys, p)
  pmmFree := fun p phys => Pmm.pmmFree p phys.toNat

def pmmAllocPages (m : Machine Pmm.State) (count : Nat) : Outcome (Frame × Machine Pmm.State) := do
  let (phys, frames) ← Pmm.pmmAllocPages m.frames count
  pure (BitVec.ofNat 64 phys, { m with frames })

def pageAt (n : Nat) : Frame := BitVec.ofNat 64 (n * pageSize)

theorem pageAt_toNat {n : Nat} (small : n < 2 ^ 52) : (pageAt n).toNat = 4096 * n := by
  rw [pageAt, BitVec.toNat_ofNat, mul_pageSize]
  omega

theorem pageAt_injective {a b : Nat} (left : a < 2 ^ 52) (right : b < 2 ^ 52) (same : pageAt a = pageAt b) : a = b := by
  have values := congrArg BitVec.toNat same
  rw [pageAt_toNat left, pageAt_toNat right] at values
  omega

theorem pageAt_add (n i : Nat) : pageAt (n + i) = pageAt n + BitVec.ofNat 64 (i * pageSize) := by
  rw [pageAt, pageAt, Nat.add_mul, BitVec.ofNat_add]

theorem getLsbD_pteAddrMask {i : Nat} (inside : i < 64) : pteAddrMask.getLsbD i = decide (12 ≤ i ∧ i < 52) := by
  have value : pteAddrMask = BitVec.ofNat 64 ((2 ^ 40 - 1) <<< 12) := by decide
  rw [value, BitVec.getLsbD_ofNat, Nat.testBit_shiftLeft, Nat.testBit_two_pow_sub_one]
  by_cases low : 12 ≤ i
  · have high : (i - 12 < 40) ↔ i < 52 := by omega
    simp [inside, low, high]
  · simp [low]

theorem frameOf_pageAt {n : Nat} (small : n < 2 ^ 40) : frameOf (pageAt n) = pageAt n := by
  apply BitVec.eq_of_getLsbD_eq
  intro i inside
  have address : n * pageSize = n <<< 12 := by
    rw [Nat.shiftLeft_eq]
  rw [frameOf, BitVec.getLsbD_and, getLsbD_pteAddrMask inside, pageAt, BitVec.getLsbD_ofNat, address,
    Nat.testBit_shiftLeft]
  by_cases high : i < 52
  · by_cases low : 12 ≤ i
    · simp [high, low]
    · simp [low]
  · have zero : n.testBit (i - 12) = false := by
      apply Nat.testBit_lt_two_pow
      exact Nat.lt_of_lt_of_le small (Nat.pow_le_pow_right (by decide) (by omega))
    simp [zero]

/-- The page at `f` may be handed out. -/
def Free (p : Pmm.State) (f : Frame) : Prop := ∃ n ∈ freeFrames p, f = pageAt n

/-- The allocator of a machine with at most 52 address bits, whose page 0 the boot
loader did not report as usable. -/
structure Reserve (p : Pmm.State) : Prop where
  bounded : Bounded p
  small : p.totalPages ≤ 2 ^ 40
  zero : 0 ∉ freeFrames p

/-- The pages `taken` went from free to used. -/
structure Handed (p : Pmm.State) (taken : List Frame) (p' : Pmm.State) : Prop where
  reserve : Reserve p'
  total : p'.totalPages = p.totalPages
  nodup : taken.Nodup
  free : ∀ f ∈ taken, Free p f
  rest : ∀ f, Free p' f ↔ Free p f ∧ f ∉ taken

theorem Free.lt {p : Pmm.State} {n : Nat} (reserve : Reserve p) (free : n ∈ freeFrames p) : n < 2 ^ 40 :=
  Nat.lt_of_lt_of_le ((Pmm.mem_freeFrames p n).mp free).1 reserve.small

variable {f : Frame}

theorem Free.aligned {p : Pmm.State} (reserve : Reserve p) (free : Free p f) : frameOf f = f := by
  obtain ⟨n, member, rfl⟩ := free
  exact frameOf_pageAt (Free.lt reserve member)

theorem Free.ne_zero {p : Pmm.State} (reserve : Reserve p) (free : Free p f) : f ≠ 0 := by
  obtain ⟨n, member, rfl⟩ := free
  intro zero
  have small := Free.lt reserve member
  have same : pageAt n = pageAt 0 := zero
  rw [pageAt_injective (by omega) (by omega) same] at member
  exact reserve.zero member

def blockPages (first : Frame) (count : Nat) : List Frame :=
  (List.range count).map fun i => first + BitVec.ofNat 64 (i * pageSize)

theorem mem_blockPages {first count : Nat} : f ∈ blockPages (pageAt first) count ↔
      ∃ n ∈ (Block.mk first count).frames, f = pageAt n := by
  simp only [blockPages, List.mem_map, List.mem_range, Block.mem_frames, ← pageAt_add]
  constructor
  · rintro ⟨i, below, rfl⟩
    exact ⟨first + i, by omega, rfl⟩
  · rintro ⟨n, ⟨low, high⟩, rfl⟩
    exact ⟨n - first, by omega, by rw [Nat.add_sub_cancel' low]⟩

variable {p p' : Pmm.State} {m m' : Machine Pmm.State}

theorem handed_of_took {first count : Nat} (reserve : Reserve p)
    (took : Took p p' ⟨first, count⟩) : Handed p (blockPages (pageAt first) count) p' := by
  have left : ∀ n, n ∈ freeFrames p' ↔ n ∈ freeFrames p ∧ n ∉ (Block.mk first count).frames := by
    intro n
    rw [took.freeFrames, Finset.mem_sdiff]
  refine ⟨⟨took.bounded, by rw [took.total]; exact reserve.small, ?_⟩, took.total, ?_, ?_, ?_⟩
  · intro free
    exact reserve.zero ((left 0).mp free).1
  · refine List.nodup_range.map_on fun i low j high same => ?_
    rw [← pageAt_add, ← pageAt_add] at same
    have inside : ∀ k, k ∈ List.range count → first + k < 2 ^ 40 := by
      intro k member
      apply Free.lt reserve
      apply took.wasFree
      rw [Block.mem_frames]
      exact ⟨Nat.le_add_right _ _, Nat.add_lt_add_left (List.mem_range.mp member) _⟩
    have left := inside i low
    have right := inside j high
    have equal := pageAt_injective (by omega) (by omega) same
    omega
  · intro f member
    obtain ⟨n, inside, rfl⟩ := mem_blockPages.mp member
    exact ⟨n, took.wasFree inside, rfl⟩
  · intro f
    constructor
    · rintro ⟨n, free, rfl⟩
      obtain ⟨before, outside⟩ := (left n).mp free
      refine ⟨⟨n, before, rfl⟩, fun member => ?_⟩
      obtain ⟨k, inside, same⟩ := mem_blockPages.mp member
      have small := Free.lt reserve before
      have bound := Free.lt reserve (took.wasFree inside)
      rw [pageAt_injective (by omega) (by omega) same] at outside
      exact outside inside
    · rintro ⟨⟨n, before, rfl⟩, outside⟩
      exact ⟨n, (left n).mpr ⟨before, fun inside => outside (mem_blockPages.mpr ⟨n, inside, rfl⟩)⟩, rfl⟩

theorem alloc_handed (reserve : Reserve p) (done : FrameAllocator.pmmAlloc p = .ok (f, p')) : Handed p [f] p' := by
  obtain ⟨⟨phys, q⟩, allocated, done⟩ := Outcome.bind_eq_ok.mp done
  cases done
  obtain ⟨frame, rfl, took⟩ := Pmm.pmmAlloc_spec reserve.bounded allocated
  have single : blockPages (pageAt frame) 1 = [pageAt frame] := by
    simp [blockPages]
  have handed := handed_of_took reserve took
  rw [single] at handed
  exact handed

theorem allocPages_handed {count : Nat}
    (reserve : Reserve m.frames) (positive : 1 ≤ count) (done : pmmAllocPages m count = .ok (f, m')) :
    Handed m.frames (blockPages f count) m'.frames ∧ m'.mem = m.mem := by
  obtain ⟨⟨phys, q⟩, allocated, done⟩ := Outcome.bind_eq_ok.mp done
  cases done
  obtain ⟨frame, rfl, took⟩ := Pmm.pmmAllocPages_spec reserve.bounded positive allocated
  exact ⟨handed_of_took reserve took, rfl⟩

theorem allocPages_block {count : Nat}
    (reserve : Reserve m.frames) (positive : 1 ≤ count) (done : pmmAllocPages m count = .ok (f, m')) :
    ∃ first, f = pageAt first ∧ first + count ≤ m.frames.totalPages := by
  obtain ⟨⟨phys, q⟩, allocated, done⟩ := Outcome.bind_eq_ok.mp done
  cases done
  obtain ⟨first, rfl, took⟩ := Pmm.pmmAllocPages_spec reserve.bounded positive allocated
  exact ⟨first, rfl, took.inside⟩

theorem Handed.trans {p q r : Pmm.State} {first second : List Frame} (front : Handed p first q)
    (back : Handed q second r) : Handed p (first ++ second) r where
  reserve := back.reserve
  total := back.total.trans front.total
  nodup := by
    refine front.nodup.append back.nodup fun f before after => ?_
    exact ((front.rest f).mp (back.free f after)).2 before
  free := by
    intro f member
    rcases List.mem_append.mp member with before | after
    · exact front.free f before
    · exact ((front.rest f).mp (back.free f after)).1
  rest := by
    intro f
    rw [back.rest, front.rest, List.mem_append, not_or, and_assoc]

theorem Allocs.handed {taken : List Frame} (allocs : Allocs p taken p') (reserve : Reserve p) : Handed p taken p' := by
  induction allocs with
  | nil s => exact ⟨reserve, rfl, List.nodup_nil, by simp, by simp⟩
  | cons first _ ih =>
    have handed := alloc_handed reserve first
    exact handed.trans (ih handed.reserve)

/-- The pages that may be handed out, by their addresses. -/
def freeSet (p : Pmm.State) : Finset Frame := (freeFrames p).image pageAt

theorem mem_freeSet {p : Pmm.State} : f ∈ freeSet p ↔ Free p f := by
  rw [freeSet, Finset.mem_image]
  constructor
  · rintro ⟨n, member, rfl⟩
    exact ⟨n, member, rfl⟩
  · rintro ⟨n, member, rfl⟩
    exact ⟨n, member, rfl⟩

theorem card_freeSet_le (fewer : ∀ f, Free p' f → Free p f) : (freeSet p').card ≤ (freeSet p).card := by
  apply Finset.card_le_card
  intro f member
  exact mem_freeSet.mpr (fewer f (mem_freeSet.mp member))

theorem Handed.count {taken : List Frame} (handed : Handed p taken p') :
    (freeSet p').card + taken.length = (freeSet p).card := by
  have parts : freeSet p = freeSet p' ∪ taken.toFinset := by
    ext f
    rw [Finset.mem_union, mem_freeSet, mem_freeSet, List.mem_toFinset, handed.rest]
    by_cases member : f ∈ taken
    · simp [member, handed.free f member]
    · simp [member]
  have apart : Disjoint (freeSet p') taken.toFinset := by
    rw [Finset.disjoint_left]
    intro f free member
    exact ((handed.rest f).mp (mem_freeSet.mp free)).2 (List.mem_toFinset.mp member)
  rw [parts, Finset.card_union_of_disjoint apart, List.toFinset_card_of_nodup handed.nodup]

/-- The tables under `root` are marked used. -/
structure Ready (scope : TableScope) (root : Frame) (m : Machine Pmm.State) : Prop where
  reserve : Reserve m.frames
  tables : ∀ f, IsTable scope m.mem root f → ¬ Free m.frames f

theorem ready_supply (scope : TableScope) (root : Frame) : Supply scope root (Ready scope root) where
  usable := by
    intro m phys frames ready allocated
    have free := (alloc_handed ready.reserve allocated).free phys (List.mem_singleton.mpr rfl)
    refine ⟨free.aligned ready.reserve, fun table => ready.tables phys table free, fun zero => ?_⟩
    exact absurd zero (free.ne_zero ready.reserve)
  lasts := by
    intro m taken m' ready grown
    have handed := grown.allocs.handed ready.reserve
    refine ⟨handed.reserve, fun f table free => ?_⟩
    obtain ⟨before, outside⟩ := (handed.rest f).mp free
    rcases (grown.nodes f).mp table with old | new
    · exact ready.tables f old before
    · exact outside new

end CreeperKernel.Vmm

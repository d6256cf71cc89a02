import CreeperKernel.PageTableEffects
import CreeperKernel.Transitions

namespace CreeperKernel.Vmm

open RadixTree
open Transitions (Run)

/-- The frames `pmm_alloc` is going to return, in this order. -/
instance : FrameAllocator (List Frame) where
  pmmAlloc
    | [] => .panic .pmmOutOfMemory
    | f :: rest => .ok (f, rest)
  pmmFree := fun frames _ => frames

/-- All paths of at most three indices. -/
def fullScope : TableScope where
  paths := {p | p.length ≤ 3}
  closed := by
    intro p i inside
    simp only [Set.mem_ofPred_eq, List.length_append, List.length_singleton] at inside ⊢
    omega
  depth := fun _ inside => inside

theorem covered_fullScope (va : Nat) : pathOf va ∈ fullScope.paths := by
  simp [fullScope, pathOf]

/-- The frames returned during a call are page frames not used as tables, zeroed
when they arrive (frame 0 by itself, the others by `pmm_alloc_zeroed`). -/
structure FreshFrames (root : Frame) (mem : Memory) (frames : List Frame) : Prop where
  nodup : frames.Nodup
  usable : ∀ f ∈ frames, Usable fullScope root mem f

theorem allocs_list {frames taken rest : List Frame} (allocs : Allocs frames taken rest) : frames = taken ++ rest := by
  induction allocs with
  | nil => rfl
  | @cons s middle finish f rest first _ ih =>
    cases s with
    | nil => cases first
    | cons g others =>
      cases first
      rw [ih]
      rfl

/-- The frames that are going to be returned can become tables of `scope`. -/
structure FreshIn (scope : TableScope) (root : Frame) (mem : Memory) (frames : List Frame) : Prop where
  nodup : frames.Nodup
  usable : ∀ f ∈ frames, Usable scope root mem f

variable {root : Frame} {mem : Memory} {pages : PageMap}

theorem FreshIn.taken {scope : TableScope} {mem after : Memory} {frames taken rest : List Frame}
    (fresh : FreshIn scope root mem frames) (allocs : Allocs frames taken rest)
    (nodes : ∀ f, IsTable scope after root f ↔ IsTable scope mem root f ∨ f ∈ taken)
    (kept : ∀ f, ¬ IsTable scope after root f → after f = mem f) : FreshIn scope root after rest := by
  have split := allocs_list allocs
  have nodup := fresh.nodup
  rw [split, List.nodup_append] at nodup
  refine ⟨nodup.2.1, fun f member => ?_⟩
  have before := fresh.usable f (by rw [split]; exact List.mem_append_right taken member)
  have outside : ¬ IsTable scope after root f := by
    rw [nodes, not_or]
    exact ⟨before.unused, fun early => nodup.2.2 f early f member rfl⟩
  refine ⟨before.aligned, outside, fun zero i => ?_⟩
  rw [kept f outside]
  exact before.blank zero i

theorem freshIn_supply (scope : TableScope) (root : Frame) :
    Supply scope root fun m : Machine (List Frame) => FreshIn scope root m.mem m.frames := by
  constructor
  · intro m phys rest fresh allocated
    obtain ⟨mem, frames⟩ := m
    cases frames with
    | nil => cases allocated
    | cons f others =>
      cases allocated
      exact fresh.usable phys List.mem_cons_self
  · intro m taken m' fresh grown
    exact fresh.taken grown.allocs grown.nodes grown.kept

theorem freshFrames_supply (root : Frame) :
    Supply fullScope root fun m : Machine (List Frame) => FreshFrames root m.mem m.frames := by
  have supply := freshIn_supply fullScope root
  constructor
  · intro m phys rest fresh allocated
    exact supply.usable m phys rest ⟨fresh.nodup, fresh.usable⟩ allocated
  · intro m taken m' fresh grown
    have after := supply.lasts m taken m' ⟨fresh.nodup, fresh.usable⟩ grown
    exact ⟨after.nodup, after.usable⟩

inductive Op where
  | map4k (va : Nat) (pa : Frame) (flags : Entry)
  | unmap4k (va : Nat)
  | vmmUnmapPage (va : Nat)
  deriving DecidableEq, Repr

/-- One call on the address space under `root`. `frames` are the frames the
physical allocator returns during a `map_4k`. -/
inductive Step (root : Frame) : Memory → Op → Memory → Prop where
  | map4k {mem mem' : Memory} {va : Nat} {pa : Frame} {flags : Entry} {frames : List Frame}
      (clean : flags &&& pteAddrMask = 0) (fresh : FreshFrames root mem frames)
      (done : map4k ⟨mem, frames⟩ root va pa flags = .ok ⟨mem', []⟩) :
      Step root mem (.map4k va pa flags) mem'
  | unmap4k (mem : Memory) (va : Nat) :
      Step root mem (.unmap4k va) (unmap4k (Machine.mk mem ([] : List Frame)) root va).mem
  | vmmUnmapPage (mem : Memory) (va : Nat) :
      Step root mem (.vmmUnmapPage va) (vmmUnmapPage (Machine.mk mem ([] : List Frame)) root va).mem

/-- The 36-bit virtual page number. -/
def vpn (va : Nat) : Nat := va / 2 ^ 12 % 2 ^ 36

/-- What an address space is for: a partial map from page numbers to frames. -/
abbrev PageMap := Nat → Option Frame

def PageMap.step (pages : PageMap) : Op → PageMap
  | .map4k va pa _ => Function.update pages (vpn va) (some (frameOf pa))
  | .unmap4k va => Function.update pages (vpn va) none
  | .vmmUnmapPage va => Function.update pages (vpn va) none

/-- The translation an address space prescribes. -/
def PageMap.translate (pages : PageMap) (va : Nat) : BitVec 64 :=
  match pages (vpn va) with
  | none => notMapped
  | some f => f ||| BitVec.ofNat 64 (va % 2 ^ 12)

theorem same_page_iff (va va' : Nat) : (pathOf va = pathOf va' ∧ ptIndex va = ptIndex va') ↔ vpn va = vpn va' := by
  simp only [pathOf, List.cons.injEq, and_true, pml4Index, pdptIndex, pdIndex, ptIndex, Fin.mk.injEq,
    vpn]
  omega

structure Refines (root : Frame) (mem : Memory) (pages : PageMap) : Prop where
  paging : Paging fullScope mem root
  mapped : ∀ va, (lookup mem root va).map frameOf = pages (vpn va)

theorem Unmapped.refines {mem after : Memory} {va : Nat}
    (refines : Refines root mem pages) (unmapped : Unmapped fullScope root mem va after) :
    Refines root after (Function.update pages (vpn va) none) := by
  refine ⟨unmapped.paging, fun other => ?_⟩
  rw [lookup, unmapped.leaves _ (covered_fullScope other) rfl]
  simp only [same_page_iff, Function.update_apply]
  split
  · rfl
  · exact refines.mapped other

theorem Mapped.refines {m m' : Machine (List Frame)} {va : Nat}
    {pa : Frame} {flags : Entry} {taken : List Frame} (refines : Refines root m.mem pages)
    (clean : flags &&& pteAddrMask = 0) (mapped : Mapped fullScope root m va (leafEntry pa flags) taken m') :
    Refines root m'.mem (Function.update pages (vpn va) (some (frameOf pa))) := by
  refine ⟨mapped.paging, fun other => ?_⟩
  rw [lookup, mapped.leaves _ (covered_fullScope other) rfl]
  simp only [same_page_iff, Function.update_apply]
  split
  · simp [frameOf_leafEntry pa clean]
  · exact refines.mapped other

theorem step_refines {mem mem' : Memory} {op : Op}
    (refines : Refines root mem pages) (taken : Step root mem op mem') : Refines root mem' (pages.step op) := by
  cases taken with
  | map4k clean fresh done =>
    obtain ⟨_, mapped⟩ := map4k_spec (freshFrames_supply root) fresh refines.paging
      (covered_fullScope _) done
    exact mapped.refines refines clean
  | unmap4k va =>
    have unmapped := unmap4k_spec (m := Machine.mk mem ([] : List Frame)) refines.paging
      (covered_fullScope va)
    exact unmapped.refines refines
  | vmmUnmapPage va =>
    have unmapped := vmmUnmapPage_spec (m := Machine.mk mem ([] : List Frame)) refines.paging
      (covered_fullScope va)
    exact unmapped.refines refines

theorem tableAt_zeroed (zeroed : ∀ i, mem root i = 0) {p : List Index}
    {f : Frame} (reached : tableAt mem root p = some f) : p = [] ∧ f = root := by
  cases p with
  | nil => exact ⟨rfl, (Option.some.inj reached).symm⟩
  | cons i p =>
    simp only [tableAt, nodeAt, zeroed i] at reached
    cases reached

theorem zeroed_paging (scope : TableScope) (zeroed : ∀ i, mem root i = 0) : Paging scope mem root := by
  constructor
  · intro p _ q _ f left right
    rw [(tableAt_zeroed zeroed left).1, (tableAt_zeroed zeroed right).1]
  · intro p i f _ reached present
    rw [(tableAt_zeroed zeroed reached).2, zeroed i] at present
    cases present

theorem zeroed_refines (zeroed : ∀ i, mem root i = 0) : Refines root mem fun _ => none := by
  refine ⟨zeroed_paging _ zeroed, ?_⟩
  · intro va
    have broken : tableAt mem root (pathOf va) = none := by
      simp only [tableAt, pathOf, nodeAt, zeroed]
      rfl
    rw [lookup_of_broken broken]
    rfl

theorem run_refines {mem mem' : Memory} {ops : List Op} (zeroed : ∀ i, mem root i = 0) (run : Run (Step root) mem ops mem') :
    Refines root mem' (ops.foldl PageMap.step fun _ => none) :=
  run.simulation (Refines root) PageMap.step
    (fun _ _ _ _ related taken => step_refines related taken) (zeroed_refines zeroed)

theorem Refines.translate
    (refines : Refines root mem pages) (va : Nat) : pageDirVirtToPhys mem root va = pages.translate va := by
  rw [pageDirVirtToPhys_eq refines.paging (covered_fullScope va), PageMap.translate,
    ← refines.mapped va]
  cases lookup mem root va with
  | none => rfl
  | some e => rfl

/-- Entry `i` of table `t` is present and refers to the table `f`. The entries of
leaf tables refer to pages, not to tables. -/
def Refers (mem : Memory) (root t : Frame) (i : Index) (f : Frame) : Prop :=
  (∃ p, p.length ≤ 2 ∧ tableAt mem root p = some t) ∧
    isPresent (mem t i) = true ∧ frameOf (mem t i) = f

theorem concat_mem_fullScope (p : List Index) (i : Index) : p ++ [i] ∈ fullScope.paths ↔ p.length ≤ 2 := by
  show (p ++ [i]).length ≤ 3 ↔ p.length ≤ 2
  rw [List.length_append, List.length_singleton]
  omega

theorem Paging.refers_unique (paging : Paging fullScope mem root)
    {f : Frame} (table : IsTable fullScope mem root f) (inner : f ≠ root) :
    ∃! r : Frame × Index, Refers mem root r.1 r.2 f := by
  obtain ⟨p, member, reached⟩ := table
  rcases List.eq_nil_or_concat' p with rfl | ⟨q, i, rfl⟩
  · exact absurd (Option.some.inj reached).symm inner
  · rw [nodeAt_concat] at reached
    obtain ⟨t, here, child⟩ := Option.bind_eq_some_iff.mp reached
    obtain ⟨present, address⟩ := isPresent_of_entryChild child
    have short : q.length ≤ 2 := (concat_mem_fullScope q i).mp member
    refine ⟨(t, i), ⟨⟨q, short, here⟩, present, address⟩, ?_⟩
    rintro ⟨t', i'⟩ ⟨⟨q', short', here'⟩, present', address'⟩
    have member' : q' ++ [i'] ∈ fullScope.paths := (concat_mem_fullScope q' i').mpr short'
    have child' : entryChild (mem t' i') = some f := by
      rw [entryChild_of_present present']
      exact congrArg some address'
    obtain ⟨rfl, rfl⟩ := paging.distinct.reference_unique member' member here' here child' child
    have equal : some t' = some t := here'.symm.trans here
    cases equal
    rfl

theorem Paging.root_not_referred (paging : Paging fullScope mem root)
    (t : Frame) (i : Index) : ¬ Refers mem root t i root := by
  rintro ⟨⟨p, short, here⟩, present, address⟩
  have member : p ++ [i] ∈ fullScope.paths := (concat_mem_fullScope p i).mpr short
  apply paging.distinct.root_unreferenced member (by simp [fullScope]) here
  rw [entryChild_of_present present]
  exact congrArg some address

/-- From a zeroed PML4, every run of the three operations implements the page map
its calls describe, and the tables form a tree: each is referred to by exactly one
present entry, the PML4 by none. -/
theorem page_tables_refine (root : Frame) (mem : Memory) (zeroed : ∀ i, mem root i = 0)
    (ops : List Op) (mem' : Memory) (run : Run (Step root) mem ops mem') :
    (∀ va, pageDirVirtToPhys mem' root va =
      (ops.foldl PageMap.step fun _ => none : PageMap).translate va) ∧
    (∀ f, IsTable fullScope mem' root f → f ≠ root →
      ∃! r : Frame × Index, Refers mem' root r.1 r.2 f) ∧
    (∀ t i, ¬ Refers mem' root t i root) ∧
    (∀ p q f, p.length ≤ 3 → q.length ≤ 3 → tableAt mem' root p = some f →
      tableAt mem' root q = some f → p = q) := by
  have refines := run_refines zeroed run
  exact ⟨refines.translate, fun f table inner => refines.paging.refers_unique table inner,
    refines.paging.root_not_referred,
    fun p q f left right => refines.paging.distinct p left q right f⟩

/-- The memory a call leaves behind, for evaluating concrete runs. -/
def memoryOf : Outcome (Machine (List Frame)) → Memory
  | .ok m => m.mem
  | _ => fun _ _ => 0

def framesLeft : Outcome (Machine (List Frame)) → Option (List Frame)
  | .ok m => some m.frames
  | _ => none

theorem eq_ok_of_framesLeft {result : Outcome (Machine (List Frame))} {frames : List Frame}
    (left : framesLeft result = some frames) : result = .ok ⟨memoryOf result, frames⟩ := by
  cases result with
  | ok m =>
    cases left
    rfl
  | panic reason => cases left
  | fault => cases left
  | hang => cases left

theorem two_pages_run : ∃ mem', Run (Step 0x1000) (fun _ _ => 0)
    [.map4k 0x400000 0x5000 7, .map4k 0x401000 0x6000 7, .unmap4k 0x400000] mem' := by
  have aligned : ∀ f ∈ [0x2000, 0x3000, 0x4000], frameOf f = f := by
    intro f member
    simp only [List.mem_cons, List.not_mem_nil, or_false] at member
    rcases member with rfl | rfl | rfl <;> decide
  have fresh : FreshFrames 0x1000 (fun _ _ => 0) [0x2000, 0x3000, 0x4000] := by
    refine ⟨by decide, fun f member => ⟨aligned f member, ?_, fun _ _ => rfl⟩⟩
    rintro ⟨p, -, reached⟩
    obtain ⟨-, rfl⟩ := tableAt_zeroed (fun _ => rfl) reached
    simp at member
  have none : ∀ mem : Memory, FreshFrames 0x1000 mem [] := fun mem =>
    ⟨List.nodup_nil, fun f member => by cases member⟩
  exact ⟨_, .cons (.map4k (by decide) fresh (eq_ok_of_framesLeft (by decide +kernel)))
    (.cons (.map4k (by decide) (none _) (eq_ok_of_framesLeft (by decide +kernel)))
      (.single (.unmap4k _ _)))⟩

theorem page_tables_refine_two_pages : ∃ mem', pageDirVirtToPhys mem' 0x1000 0x401234 = 0x6234 ∧
    pageDirVirtToPhys mem' 0x1000 0x400234 = notMapped := by
  obtain ⟨mem', run⟩ := two_pages_run
  obtain ⟨translated, -⟩ := page_tables_refine 0x1000 (fun _ _ => 0) (fun _ => rfl) _ mem' run
  refine ⟨mem', ?_, ?_⟩
  · rw [translated]
    decide +kernel
  · rw [translated]
    decide +kernel

end CreeperKernel.Vmm

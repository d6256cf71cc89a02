import CreeperKernel.ProgramBreak

namespace CreeperKernel.Libc

open Vmm Fork Exec Rights UserMemory
open Pmm (pageSize)
open Transitions (Run)

/-- The frames of the pages that a process owns are in use, and they are no tables. -/
structure OwnPages (cr3 : Frame) (m : Kernel) : Prop where
  used : ∀ a e, a < stackUpperUspaceAddr → lookup m.mem cr3 a = some e → isOwned e = true → ¬ Free m.frames (frameOf e)
  noTable : ∀ a e, a < stackUpperUspaceAddr → lookup m.mem cr3 a = some e → isOwned e = true →
    ¬ IsTable lowerScope m.mem cr3 (frameOf e)

/-- The frames that `sys_brk` obtains from `pmm_alloc_pages`. -/
def brkFrames (m : Kernel) (heap : HeapT) (brk : BitVec 64) : List Frame :=
  if brk = 0 ∨ brk < heap.lower ∨ ¬ pageUp heap.higher < pageUp brk then []
  else
    match pmmAllocPages m (pagesBetween (pageUp heap.higher) (pageUp brk)) with
    | .ok (phys, _) => blockPages phys (pagesBetween (pageUp heap.higher) (pageUp brk))
    | _ => []

/-- A process, and the frames its calls of `sys_brk` have obtained so far. -/
structure Ledger where
  process : Heap
  obtained : List Frame

inductive LedgerStep (cr3 : Frame) : Ledger → BitVec 64 → Ledger → Prop where
  | brk {l : Ledger} {brk value : BitVec 64} {heap : HeapT} {kernel : Kernel}
      (done : sysBrk l.process.kernel cr3 l.process.heap brk = .ok (value, heap, kernel)) :
      LedgerStep cr3 l brk
        ⟨{ l.process with heap, kernel }, l.obtained ++ brkFrames l.process.kernel l.process.heap brk⟩

/-- No owned page is overwritten, and what is in the frames in use stays: user data and
the tables of the kernel half. -/
structure KeepsOwned (cr3 : Frame) (m m' : Kernel) : Prop where
  leaves : ∀ a e, a < stackUpperUspaceAddr → lookup m.mem cr3 a = some e → isOwned e = true →
    lookup m'.mem cr3 a = some e
  contents : ∀ f, ¬ Free m.frames f → ¬ IsTable lowerScope m.mem cr3 f → m'.mem f = m.mem f

theorem KeepsOwned.refl (cr3 : Frame) (m : Kernel) : KeepsOwned cr3 m m :=
  ⟨fun _ _ _ here _ => here, fun _ _ _ => rfl⟩

/-- The process owns no page between its break and the new one. -/
def GrowsFresh (cr3 : Frame) (s : Heap) (brk : BitVec 64) : Prop :=
  brk ≠ 0 → ¬ brk < s.heap.lower → ∀ a e, (pageUp s.heap.higher).toNat ≤ a → a < (pageUp brk).toNat →
    lookup s.kernel.mem cr3 a = some e → isOwned e = false

/-- The limit of the heap: the file table is above. -/
def breakLimit : Nat := 0x7E0000000000

def FreshBrk (cr3 : Frame) (l : Ledger) (brk : BitVec 64) (l' : Ledger) : Prop :=
  LedgerStep cr3 l brk l' ∧ brk.toNat < breakLimit ∧ GrowsFresh cr3 l.process brk

structure BrkFrame (cr3 : Frame) (m m' : Kernel) : Prop where
  used : ∀ f, Free m'.frames f → Free m.frames f
  tables : ∀ f, IsTable lowerScope m'.mem cr3 f → IsTable lowerScope m.mem cr3 f ∨ Free m.frames f
  contents : ∀ f, ¬ Free m.frames f → ¬ IsTable lowerScope m.mem cr3 f → m'.mem f = m.mem f

section Frame

variable {cr3 : Frame} {m m₁ m₂ : Kernel}

theorem BrkFrame.refl (cr3 : Frame) (m : Kernel) : BrkFrame cr3 m m :=
  ⟨fun _ free => free, fun _ table => .inl table, fun _ _ _ => rfl⟩

theorem BrkFrame.apart (frame : BrkFrame cr3 m m₁) {f : Frame} (used : ¬ Free m.frames f)
    (noTable : ¬ IsTable lowerScope m.mem cr3 f) : ¬ Free m₁.frames f ∧ ¬ IsTable lowerScope m₁.mem cr3 f :=
  ⟨fun free => used (frame.used f free), fun table => (frame.tables f table).elim noTable used⟩

theorem BrkFrame.trans (front : BrkFrame cr3 m m₁) (back : BrkFrame cr3 m₁ m₂) : BrkFrame cr3 m m₂ where
  used := fun f free => front.used f (back.used f free)
  tables := by
    intro f table
    rcases back.tables f table with before | free
    · exact front.tables f before
    · exact .inr (front.used f free)
  contents := by
    intro f used noTable
    have ⟨used₁, noTable₁⟩ := front.apart used noTable
    rw [back.contents f used₁ noTable₁, front.contents f used noTable]

end Frame

/-- The pages that `sys_brk` adds when it raises the break. -/
structure Raised (cr3 : Frame) (s : Heap) (brk : BitVec 64) (phys : Frame) (kernel : Kernel) : Prop where
  frame : BrkFrame cr3 s.kernel kernel
  aligned : (pageUp s.heap.higher).toNat % pageSize = 0
  stop : (pageUp s.heap.higher).toNat + pagesBetween (pageUp s.heap.higher) (pageUp brk) * pageSize = (pageUp brk).toNat
  inside : (pageUp brk).toNat ≤ stackUpperUspaceAddr
  block : ∀ f ∈ blockPages phys (pagesBetween (pageUp s.heap.higher) (pageUp brk)), frameOf f = f ∧
    Free s.kernel.frames f ∧ ¬ Free kernel.frames f ∧ ¬ IsTable lowerScope kernel.mem cr3 f
  pages : ∀ i < pagesBetween (pageUp s.heap.higher) (pageUp brk), ∀ a, a < stackUpperUspaceAddr →
    slotOf a = slotOf ((pageUp s.heap.higher).toNat + i * pageSize) →
    lookup kernel.mem cr3 a = some (leafEntry (phys + BitVec.ofNat 64 (i * pageSize)) heapFlags)
  others : ∀ a, a < stackUpperUspaceAddr → (∀ i < pagesBetween (pageUp s.heap.higher) (pageUp brk),
    slotOf a ≠ slotOf ((pageUp s.heap.higher).toNat + i * pageSize)) →
    lookup kernel.mem cr3 a = lookup s.kernel.mem cr3 a

section Calls

variable {cr3 phys : Frame} {s : Heap} {brk value : BitVec 64} {heap : HeapT} {kernel m₁ : Kernel}

theorem HeapSpace.raised (inv : HeapSpace cr3 s) (low : brk.toNat ≤ stackUpperUspaceAddr)
    (grows : pageUp s.heap.higher < pageUp brk)
    (allocated : pmmAllocPages s.kernel (pagesBetween (pageUp s.heap.higher) (pageUp brk)) = .ok (phys, m₁))
    (mapped : Rights.map4kPages m₁ cr3 (pageUp s.heap.higher).toNat phys
      (pagesBetween (pageUp s.heap.higher) (pageUp brk)) heapFlags = .ok kernel) : Raised cr3 s brk phys kernel := by
  have old := toNat_pageUp inv.below
  have new := toNat_pageUp low
  have limit : stackUpperUspaceAddr = 2 ^ 47 := rfl
  have order : (pageUp s.heap.higher).toNat < (pageUp brk).toNat := grows
  have pages := pagesBetween_mul (by omega) (by omega) grows
  have positive : 1 ≤ pagesBetween (pageUp s.heap.higher) (pageUp brk) := by omega
  have ⟨handed, same⟩ := allocPages_handed inv.space.ready.reserve positive allocated
  have ⟨space, _, _⟩ := inv.space.alloc positive allocated
  have inside : (pageUp s.heap.higher).toNat + pagesBetween (pageUp s.heap.higher) (pageUp brk) * pageSize ≤
      stackUpperUspaceAddr := by
    rw [Pmm.mul_pageSize]
    omega
  have effect := space.pagesMapped inside mapped
  have added := space.addPages inside mapped
  have tables := effect.tables
  have kept := effect.kept
  have others := added.others
  rw [same] at tables kept others
  have frame : BrkFrame cr3 s.kernel kernel := by
    refine ⟨fun f free => ((handed.rest f).mp (effect.used f free)).1, fun f table => ?_, fun f used noTable => ?_⟩
    · rcases tables f table with before | free
      · exact .inl before
      · exact .inr ((handed.rest f).mp free).1
    · exact kept f noTable fun free => used ((handed.rest f).mp free).1
  refine ⟨frame, ?_, ?_, ?_, fun f member => ?_, added.pages, others⟩
  · show (pageUp s.heap.higher).toNat % 4096 = 0
    omega
  · rw [Pmm.mul_pageSize]
    omega
  · omega
  · have free := handed.free f member
    have taken : ¬ Free m₁.frames f := fun still => ((handed.rest f).mp still).2 member
    refine ⟨free.aligned inv.space.ready.reserve, free, fun still => taken (effect.used f still), fun table => ?_⟩
    rcases tables f table with before | still
    · exact inv.space.ready.tables f before free
    · exact taken still

variable {a i : Nat}

theorem Raised.page (raised : Raised cr3 s brk phys kernel) (low : (pageUp s.heap.higher).toNat ≤ a)
    (high : a < (pageUp brk).toNat) : ∃ i < pagesBetween (pageUp s.heap.higher) (pageUp brk),
      slotOf a = slotOf ((pageUp s.heap.higher).toNat + i * pageSize) := by
  rw [← raised.stop] at high
  exact ⟨_, slot_of_between raised.aligned (by rw [raised.stop]; exact raised.inside) low high⟩

theorem Raised.page_inside (raised : Raised cr3 s brk phys kernel) (user : a < stackUpperUspaceAddr)
    (below : i < pagesBetween (pageUp s.heap.higher) (pageUp brk))
    (same : slotOf a = slotOf ((pageUp s.heap.higher).toNat + i * pageSize)) :
    (pageUp s.heap.higher).toNat ≤ a ∧ a < (pageUp brk).toNat := by
  have stop := raised.stop
  have inside := raised.inside
  have aligned := raised.aligned
  have limit : stackUpperUspaceAddr = 2 ^ 47 := rfl
  have size : pageSize = 4096 := rfl
  rw [Pmm.mul_pageSize] at stop same
  have number := (slotOf_eq_iff (by omega) (by omega)).mp same
  rw [size] at number aligned
  omega

theorem mem_blockPages_of_lt (first : Frame) {count : Nat} (below : i < count) :
    first + BitVec.ofNat 64 (i * pageSize) ∈ blockPages first count :=
  List.mem_map.mpr ⟨i, List.mem_range.mpr below, rfl⟩

theorem isOwned_leaf (pa : Frame) {flags : Entry} (owned : isOwned flags = true) : isOwned (leafEntry pa flags) = true := by
  rw [leafEntry, isOwned_or, isOwned_or, owned, Bool.or_true, Bool.true_or]

theorem Raised.frameOf_page (raised : Raised cr3 s brk phys kernel)
    (below : i < pagesBetween (pageUp s.heap.higher) (pageUp brk)) :
    frameOf (leafEntry (phys + BitVec.ofNat 64 (i * pageSize)) heapFlags) = phys + BitVec.ofNat 64 (i * pageSize) := by
  rw [frameOf_leafEntry _ (by decide)]
  exact (raised.block _ (mem_blockPages_of_lt phys below)).1

theorem Raised.ownPages (raised : Raised cr3 s brk phys kernel) (own : OwnPages cr3 s.kernel) : OwnPages cr3 kernel := by
  have both : ∀ a e, a < stackUpperUspaceAddr → lookup kernel.mem cr3 a = some e → isOwned e = true →
      ¬ Free kernel.frames (frameOf e) ∧ ¬ IsTable lowerScope kernel.mem cr3 (frameOf e) := by
    intro a e user here owned
    by_cases new : ∃ i < pagesBetween (pageUp s.heap.higher) (pageUp brk),
        slotOf a = slotOf ((pageUp s.heap.higher).toNat + i * pageSize)
    · obtain ⟨i, below, same⟩ := new
      rw [raised.pages i below a user same] at here
      cases here
      rw [raised.frameOf_page below]
      exact (raised.block _ (mem_blockPages_of_lt phys below)).2.2
    · rw [raised.others a user fun i below same => new ⟨i, below, same⟩] at here
      exact raised.frame.apart (own.used a e user here owned) (own.noTable a e user here owned)
  exact ⟨fun a e user here owned => (both a e user here owned).1, fun a e user here owned => (both a e user here owned).2⟩

/-- Raising the break keeps the owned pages exactly if there are none in its way: a page that is
mapped again gets another frame. -/
theorem Raised.keeps_iff (raised : Raised cr3 s brk phys kernel) (own : OwnPages cr3 s.kernel) (nonzero : brk ≠ 0)
    (above : ¬ brk < s.heap.lower) : KeepsOwned cr3 s.kernel kernel ↔ GrowsFresh cr3 s brk := by
  constructor
  · intro keeps _ _ a e low high here
    by_contra owned
    have owned := Bool.eq_true_of_not_eq_false owned
    have user := Nat.lt_of_lt_of_le high raised.inside
    obtain ⟨i, below, same⟩ := raised.page low high
    have still := keeps.leaves a e user here owned
    rw [raised.pages i below a user same] at still
    cases still
    have used := own.used a _ user here owned
    rw [raised.frameOf_page below] at used
    exact used (raised.block _ (mem_blockPages_of_lt phys below)).2.1
  · intro fresh
    refine ⟨fun a e user here owned => ?_, raised.frame.contents⟩
    rw [raised.others a user, here]
    intro i below same
    have ⟨low, high⟩ := raised.page_inside user below same
    rw [fresh nonzero above a e low high here] at owned
    cases owned

end Calls

/-- What one call does to a process whose pages are its own. -/
structure BrkOutcome (cr3 : Frame) (s : Heap) (brk : BitVec 64) (kernel : Kernel) : Prop where
  frame : BrkFrame cr3 s.kernel kernel
  own : OwnPages cr3 kernel
  keeps : KeepsOwned cr3 s.kernel kernel ↔ GrowsFresh cr3 s brk
  obtained : ∀ f ∈ brkFrames s.kernel s.heap brk, ∃ a e, a < stackUpperUspaceAddr ∧ lookup kernel.mem cr3 a = some e ∧
    isOwned e = true ∧ frameOf e = f

section Outcome

variable {cr3 : Frame} {s : Heap} {brk value : BitVec 64} {heap : HeapT} {kernel : Kernel}

theorem brkOutcome_same (own : OwnPages cr3 s.kernel) (fresh : GrowsFresh cr3 s brk)
    (nothing : brkFrames s.kernel s.heap brk = []) : BrkOutcome cr3 s brk s.kernel where
  frame := .refl cr3 s.kernel
  own := own
  keeps := iff_of_true (.refl cr3 s.kernel) fresh
  obtained := by
    intro f member
    rw [nothing] at member
    cases member

theorem HeapSpace.brkOutcome (inv : HeapSpace cr3 s) (own : OwnPages cr3 s.kernel) (low : brk.toNat ≤ stackUpperUspaceAddr)
    (done : sysBrk s.kernel cr3 s.heap brk = .ok (value, heap, kernel)) : BrkOutcome cr3 s brk kernel := by
  cases sysBrk_effect done with
  | idle asked =>
    apply brkOutcome_same own
    · intro nonzero above
      exact absurd asked (not_or.mpr ⟨nonzero, above⟩)
    · exact if_pos (asked.elim .inl fun below => .inr (.inl below))
  | lowered nonzero above stays =>
    apply brkOutcome_same own
    · intro _ _ a e from' before
      exact absurd (Nat.lt_of_le_of_lt from' before) (Nat.not_lt.mpr (BitVec.not_lt.mp stays))
    · exact if_pos (.inr (.inr stays))
  | noMemory nonzero above grows allocated =>
    have old := toNat_pageUp inv.below
    have new := toNat_pageUp low
    have order : (pageUp s.heap.higher).toNat < (pageUp brk).toNat := grows
    have pages := pagesBetween_mul (by omega) (by omega) grows
    exact absurd rfl (inv.space.alloc (by omega) allocated).2.2
  | @raised _ _ _ phys m₁ _ allocated mapped =>
    rename_i nonzero above grows
    have raised := inv.raised low grows allocated mapped
    refine ⟨raised.frame, raised.ownPages own, raised.keeps_iff own nonzero above, fun f member => ?_⟩
    have busy : ¬ (brk = 0 ∨ brk < s.heap.lower ∨ ¬ pageUp s.heap.higher < pageUp brk) := by
      rintro (zero | below | stays)
      · exact nonzero zero
      · exact above below
      · exact stays grows
    rw [brkFrames, if_neg busy, allocated] at member
    obtain ⟨i, inside, rfl⟩ := List.mem_map.mp member
    have below := List.mem_range.mp inside
    have user : (pageUp s.heap.higher).toNat + i * pageSize < stackUpperUspaceAddr := by
      have stop := raised.stop
      have limit := raised.inside
      rw [Pmm.mul_pageSize] at stop ⊢
      omega
    exact ⟨_, _, user, raised.pages i below _ user rfl, isOwned_leaf _ (by decide), raised.frameOf_page below⟩

end Outcome

/-- Since `start`, no frame of the process has been lost. -/
structure NothingLost (cr3 : Frame) (start : Kernel) (l : Ledger) : Prop where
  keeps : KeepsOwned cr3 start l.process.kernel
  obtained : ∀ f ∈ l.obtained, ∃ a e, a < stackUpperUspaceAddr ∧ lookup l.process.kernel.mem cr3 a = some e ∧
    isOwned e = true ∧ frameOf e = f

structure LedgerSpace (cr3 : Frame) (start : Kernel) (l : Ledger) : Prop where
  heap : HeapSpace cr3 l.process
  own : OwnPages cr3 l.process.kernel
  frame : BrkFrame cr3 start l.process.kernel
  lost : NothingLost cr3 start l

section Run

variable {cr3 : Frame} {start m : Kernel} {l l' : Ledger} {brk : BitVec 64}

theorem LedgerSpace.initial (started : Started cr3 m) (own : OwnPages cr3 m) : LedgerSpace cr3 m ⟨newHeap m, []⟩ where
  heap := started.heapSpace
  own := own
  frame := .refl cr3 m
  lost := ⟨.refl cr3 m, fun _ member => nomatch member⟩

theorem breakLimit_user (low : brk.toNat < breakLimit) : brk.toNat ≤ stackUpperUspaceAddr :=
  Nat.le_trans (Nat.le_of_lt low) (by decide)

theorem LedgerSpace.keeps_iff (space : LedgerSpace cr3 start l) (low : brk.toNat < breakLimit)
    (taken : LedgerStep cr3 l brk l') :
    KeepsOwned cr3 l.process.kernel l'.process.kernel ↔ GrowsFresh cr3 l.process brk := by
  cases taken with
  | brk done => exact (space.heap.brkOutcome space.own (breakLimit_user low) done).keeps

theorem LedgerSpace.step (space : LedgerSpace cr3 start l) (taken : FreshBrk cr3 l brk l') : LedgerSpace cr3 start l' := by
  obtain ⟨taken, low, fresh⟩ := taken
  have modest : brk < l.process.heap.lower ∨ brk.toNat ≤ stackUpperUspaceAddr := .inr (breakLimit_user low)
  cases taken with
  | brk done =>
    have outcome := space.heap.brkOutcome space.own (breakLimit_user low) done
    have keeps := outcome.keeps.mpr fresh
    have frame := space.frame.trans outcome.frame
    have taken : ModestStep cr3 l.process (.brk brk) _ := ⟨.brk done, modest⟩
    have heap := taken.keeps space.heap
    refine ⟨heap, outcome.own, frame, ⟨fun a e user here owned => ?_, frame.contents⟩, fun f member => ?_⟩
    · exact keeps.leaves a e user (space.lost.keeps.leaves a e user here owned) owned
    · rcases List.mem_append.mp member with before | now
      · obtain ⟨a, e, user, here, owned, same⟩ := space.lost.obtained f before
        exact ⟨a, e, user, keeps.leaves a e user here owned, owned, same⟩
      · exact outcome.obtained f now

end Run

/-- Every user page of a process was free before the process was made. -/
def PagesTaken (old : Kernel) (root : Frame) (m : Kernel) : Prop :=
  ∀ s, s.User → ∀ e, leaf m.mem root s = some e → Free old.frames (frameOf e)

section Start

variable {old m m' : Kernel} {root : Frame}

theorem PagesTaken.added (taken : PagesTaken old root m) (reserve : Reserve old.frames) {va pages : Nat} {phys : Frame}
    {flags : Entry} {mem : Memory} (clean : flags &&& pteAddrMask = 0)
    (inside : va + pages * pageSize ≤ stackUpperUspaceAddr)
    (added : BlockAdded old root m va pages phys flags mem m') : PagesTaken old root m' := by
  intro s user e here
  by_cases member : s ∈ slotsFrom va pages
  · obtain ⟨i, below, rfl⟩ := List.mem_map.mp member
    have below := List.mem_range.mp below
    rw [added.mapped (slotsFrom_nodup inside) i below] at here
    cases here
    have free := (added.block _ (mem_blockPages_of_lt phys below)).1
    rw [frameOf_leafEntry _ clean, free.aligned reserve]
    exact free
  · rw [added.others s user member] at here
    exact taken s user e here

theorem newUsprocSpace_taken (reserve : Reserve old.frames) (building : Building old root m)
    (taken : PagesTaken old root m) {kernel files : Frame} {userStack : Nat → Index → Entry}
    (done : newUsprocSpace kernel root userStack m = .ok (some (files, m'))) :
    Building old root m' ∧ PagesTaken old root m' := by
  have ⟨_, _, _, _, _, _, _, _, ⟨_, added₁⟩, ⟨_, added₂⟩, _, added₃⟩ := newUsprocSpace_stages reserve building done
  have shared : PagesTaken old root ⟨shareKernelHalf m.mem root kernel, m.frames⟩ := by
    intro s user e here
    exact taken s user e (((building.sameEntries_of_share kernel).tables.leaf s user).symm.trans here)
  have taken₁ := shared.added reserve (by decide) (by decide) added₁
  have taken₂ := taken₁.added reserve (by decide) (by decide) added₂
  exact ⟨added₃.building, taken₂.added reserve (by decide) (by decide) added₃⟩

theorem PagesTaken.ownPages (taken : PagesTaken old root m) (building : Building old root m) : OwnPages root m := by
  have own : ∀ a e, a < stackUpperUspaceAddr → lookup m.mem root a = some e →
      ¬ Free m.frames (frameOf e) ∧ ¬ IsTable lowerScope m.mem root (frameOf e) := by
    intro a e low here
    have user : (slotOf a).User := slotOf_user low
    exact building.leaves _ user e here (taken _ user e here)
  exact ⟨fun a e low here _ => (own a e low here).1, fun a e low here _ => (own a e low here).2⟩

end Start

/-- As long as the break is raised only over pages that the process does not own, no page is
overwritten, every frame obtained is still mapped, and the data stays; the first call that raises it
over an owned page drops that page's frame. -/
theorem break_frames_kept_iff (cr3 : Frame) (m : Kernel) (started : Started cr3 m) (own : OwnPages cr3 m)
    (calls : List (BitVec 64)) (l : Ledger) (run : Run (FreshBrk cr3) ⟨newHeap m, []⟩ calls l) :
    NothingLost cr3 m l ∧ ∀ brk l', brk.toNat < breakLimit → LedgerStep cr3 l brk l' →
      (KeepsOwned cr3 l.process.kernel l'.process.kernel ↔ GrowsFresh cr3 l.process brk) := by
  have space : LedgerSpace cr3 m l :=
    run.invariant (LedgerSpace cr3 m) (fun _ _ _ space taken => space.step taken) (.initial started own)
  exact ⟨space.lost, fun brk l' low taken => space.keeps_iff low taken⟩

/-- A process that `new_usproc` has made, with four frames left. -/
structure BuiltProcess (old : Kernel) (cr3 : Frame) (m : Kernel) : Prop where
  started : Started cr3 m
  building : Building old cr3 m
  taken : PagesTaken old cr3 m
  ahead : Pmm.Ahead m.frames 4
  heap : ∀ a, defaultUserHeapStart ≤ a → a < defaultUserHeapEnd → ∃ f, lookup m.mem cr3 a = some (leafEntry f newHeapFlags)

theorem process_built : ∃ cr3 m, BuiltProcess emptyKernel cr3 m := by
  have reserve : Reserve emptyKernel.frames := smallPmm_reserve
  obtain ⟨root, files, start, m, blank, zeroed, noLeaf, done, room⟩ := emptyKernel_newUsprocSpace
  have granting : Granting lowerScope root start.mem := granting_of_blank fun i => by simp [zeroed, zeroPage]
  have none_ : PagesTaken emptyKernel root start := by
    intro s user e here
    cases (noLeaf s user).symm.trans here
  obtain ⟨building, taken⟩ := newUsprocSpace_taken reserve blank none_ done
  exact ⟨root, m, newUsprocSpace_started reserve blank granting done, building, taken, room.ahead,
    fun a low high => newUsprocSpace_heap reserve blank done low high⟩

theorem sysBrk_again (cr3 : Frame) {m : Kernel} (ahead : Pmm.Ahead m.frames 4) :
    ∃ kernel, sysBrk m cr3 (movedTo newHeapT 0x600000001000) 0x600000002000 =
      .ok (0x600000002000, movedTo newHeapT 0x600000002000, kernel) := by
  have split : Pmm.Ahead m.frames (1 + (3 + 0)) := ahead
  obtain ⟨phys, p', allocated, nonzero, after⟩ := pmmAllocPages_progress (Nat.le_refl 1) split
  have ⟨kernel, mapped, _⟩ := map4k_progress (m := ⟨m.mem, p'⟩) cr3 0x600000001000 phys heapFlags after
  have count : pagesBetween 0x600000001000 0x600000002000 = 1 := by decide
  have old : pageUp (movedTo newHeapT 0x600000001000).higher = 0x600000001000 := by decide
  have new : pageUp 0x600000002000 = 0x600000002000 := by decide
  have grows : (0x600000001000 : BitVec 64) < 0x600000002000 := by decide
  have single : Rights.map4kPages ⟨m.mem, p'⟩ cr3 (0x600000001000 : BitVec 64).toNat phys 1 heapFlags = .ok kernel := by
    have place : phys + BitVec.ofNat 64 (0 * pageSize) = phys := by simp
    simp only [Rights.map4kPages, List.range_one, List.foldlM_cons, List.foldlM_nil, place]
    exact Outcome.bind_eq_ok.mpr ⟨kernel, mapped, rfl⟩
  refine ⟨kernel, ?_⟩
  rw [sysBrk, if_neg (by decide), if_neg (by decide)]
  dsimp only
  rw [old, new, if_pos grows, count, allocated, Outcome.ok_bind]
  dsimp only
  rw [if_neg nonzero, single, Outcome.ok_bind]
  rfl

/-- A new process that has given its break back down to the first page. -/
def loweredProcess (m : Kernel) : Ledger := ⟨⟨m, movedTo newHeapT 0x600000001000, 0⟩, []⟩

theorem lowered_fresh (cr3 : Frame) (m : Kernel) : FreshBrk cr3 ⟨newHeap m, []⟩ 0x600000001000 (loweredProcess m) := by
  have lowered : sysBrk m cr3 newHeapT 0x600000001000 = .ok (0x600000001000, movedTo newHeapT 0x600000001000, m) := rfl
  have nothing : brkFrames m newHeapT 0x600000001000 = [] := rfl
  have taken : LedgerStep cr3 ⟨newHeap m, []⟩ 0x600000001000 ⟨_, [] ++ brkFrames m newHeapT 0x600000001000⟩ := .brk lowered
  rw [nothing] at taken
  refine ⟨taken, by decide, fun _ _ a e low high => ?_⟩
  have order : (pageUp 0x600000001000).toNat ≤ (pageUp newHeapT.higher).toNat := by decide
  exact absurd (Nat.lt_of_le_of_lt low high) (Nat.not_lt.mpr order)

/-- The break is lowered and not raised again. -/
theorem break_frames_kept_iff_lowered : ∃ cr3 m l, Started cr3 m ∧ OwnPages cr3 m ∧
    Run (FreshBrk cr3) ⟨newHeap m, []⟩ [0x600000001000] l ∧ NothingLost cr3 m l ∧
    ∀ brk l', brk.toNat < breakLimit → LedgerStep cr3 l brk l' →
      (KeepsOwned cr3 l.process.kernel l'.process.kernel ↔ GrowsFresh cr3 l.process brk) := by
  obtain ⟨cr3, m, built⟩ := process_built
  have own := built.taken.ownPages built.building
  have run : Run (FreshBrk cr3) ⟨newHeap m, []⟩ [0x600000001000] (loweredProcess m) := .single (lowered_fresh cr3 m)
  exact ⟨cr3, m, _, built.started, own, run, break_frames_kept_iff cr3 m built.started own _ _ run⟩

/-- The break is lowered and raised again by one page: the page that is still mapped there gets a
new frame, and its old frame is lost. -/
theorem lowered_page_dropped : ∃ cr3 m l l', Started cr3 m ∧ OwnPages cr3 m ∧
    LedgerStep cr3 ⟨newHeap m, []⟩ 0x600000001000 l ∧ LedgerStep cr3 l 0x600000002000 l' ∧
    ¬ KeepsOwned cr3 l.process.kernel l'.process.kernel := by
  obtain ⟨cr3, m, built⟩ := process_built
  have own := built.taken.ownPages built.building
  have ⟨f, here⟩ := built.heap 0x600000001000 (by decide) (by decide)
  have fresh := lowered_fresh cr3 m
  have space : LedgerSpace cr3 m (loweredProcess m) := (LedgerSpace.initial built.started own).step fresh
  have ⟨kernel, raised⟩ := sysBrk_again cr3 built.ahead
  have taken : LedgerStep cr3 (loweredProcess m) 0x600000002000 _ := .brk raised
  refine ⟨cr3, m, _, _, built.started, own, fresh.1, taken, fun keeps => ?_⟩
  have low : (0x600000002000 : BitVec 64).toNat < breakLimit := by decide
  have fresh := (space.keeps_iff low taken).mp keeps
  have above : ¬ 0x600000002000 < (movedTo newHeapT 0x600000001000).lower := by decide
  have start : (pageUp (movedTo newHeapT 0x600000001000).higher).toNat ≤ 0x600000001000 := by decide
  have unowned := fresh (by decide) above 0x600000001000 _ start (by decide) here
  rw [isOwned_leaf f (by decide)] at unowned
  cases unowned

end CreeperKernel.Libc

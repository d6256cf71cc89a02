import CreeperKernel.BreakFrames
import CreeperKernel.PageTableReads

namespace CreeperKernel.UserMemory

open Vmm RadixTree Fork Exec
open Rights (walkEntries indices isUser isWritable isNx isNx_eq)

def protNone : BitVec 64 := 0
def protWrite : BitVec 64 := 2
def protExec : BitVec 64 := 4

def protFlags (prot : BitVec 64) : Entry :=
  let flags := pteNx ||| pteUser
  let flags := if prot = protNone then flags &&& ~~~pteUser else flags
  let flags := if prot &&& protWrite ≠ 0 then flags ||| pteWritable else flags
  if prot &&& protExec ≠ 0 then flags &&& ~~~pteNx else flags

def protMask : Entry := pteUser ||| pteWritable ||| pteNx

/-- `ROUND_TO_PAGE_UP`. The result is the number of a page; that of `ROUND_TO_PAGE_DOWN`, which is
`pageDown`, is an address. -/
def roundToPageUp (size : BitVec 64) : BitVec 64 := size / 0x1000 + 1

/-- The values of `addr` in `for (addr = first; addr < stop; addr += PAGE_SIZE_4K)`, if the last
addition does not wrap around. -/
def pagesOfLoop (first stop : BitVec 64) : List Nat :=
  (List.range ((stop.toNat - first.toNat + 4095) / 4096)).map fun i => first.toNat + i * 4096

/-- The word that a store of the kernel to `va` changes, if it does not fault. With CR0.WP set, read
only pages are closed to the kernel too. -/
def storePlace (wp : Bool) (mem : Memory) (cr3 : Frame) (va : BitVec 64) : Option Word :=
  if va.toNat < 2 ^ 47 ∨ 2 ^ 64 - 2 ^ 47 ≤ va.toNat then
    match walkEntries mem cr3 va.toNat with
    | none => none
    | some entries =>
      if wp = true ∧ entries.all isWritable = false then none
      else some (frameOf (pageDirVirtToPhys mem cr3 va.toNat), wordIndex va.toNat)
  else none

def updateWord (wp : Bool) (cr3 : Frame) (p : BitVec 64) (change : Entry → Entry) (mem : Memory) : Outcome Memory :=
  match storePlace wp mem cr3 p with
  | none => .fault
  | some (f, i) => .ok (write mem f i (change (mem f i)))

/-- One round of the loop of `sys_mprotect`: the physical address is used as the address of the entry. -/
def protectPage (wp : Bool) (cr3 : Frame) (flags : Entry) (mem : Memory) (addr : Nat) : Outcome Memory :=
  let phys := pageDirVirtToPhys mem cr3 addr
  if phys = 0 ∨ phys = notMapped then pure mem
  else do
    let mem ← updateWord wp cr3 phys (· &&& ~~~protMask) mem
    updateWord wp cr3 phys (· ||| flags) mem

/-- `sys_mprotect` in the process with the PML4 `cr3`: the return value and the memory. A fault kills
the process. -/
def sysMprotect (wp : Bool) (mem : Memory) (cr3 : Frame) (start len prot : BitVec 64) :
    Outcome (BitVec 32 × Memory) := do
  let mem ← (pagesOfLoop (pageDown start) (roundToPageUp (start + len))).foldlM
    (protectPage wp cr3 (protFlags prot)) mem
  pure (0, mem)

/-- The rights in the entry are those that `prot` asks for. -/
structure Permits (prot : BitVec 64) (e : Entry) : Prop where
  user : isUser e = decide (prot ≠ protNone)
  writable : isWritable e = decide (prot &&& protWrite ≠ 0)
  nx : isNx e = decide (prot &&& protExec = 0)

/-- The page of `va` has a byte in the range. -/
def Overlaps (start len : BitVec 64) (va : Nat) : Prop :=
  ∃ b, start.toNat ≤ b ∧ b < start.toNat + len.toNat ∧ b / 4096 = va / 4096

/-- What `mprotect` is for: the pages of the range get their rights and keep their frames, and no
other word of memory is modified. -/
structure Protected (cr3 : Frame) (start len prot : BitVec 64) (mem mem' : Memory) : Prop where
  leaves : ∀ va e, va < stackUpperUspaceAddr → Overlaps start len va → lookup mem cr3 va = some e →
    ∃ e', lookup mem' cr3 va = some e' ∧ Permits prot e' ∧ frameOf e' = frameOf e
  others : ∀ f i, (∀ va, va < stackUpperUspaceAddr → Overlaps start len va →
    ¬ (tableAt mem cr3 (pathOf va) = some f ∧ ptIndex va = i)) → mem' f i = mem f i

/-- The user half of the page table of a process: it maps none of its own tables. -/
structure ProcessTables (cr3 : Frame) (mem : Memory) : Prop where
  paging : Paging lowerScope mem cr3
  apart : ∀ va e, va < stackUpperUspaceAddr → lookup mem cr3 va = some e →
    ¬ IsTable lowerScope mem cr3 (frameOf e)

/-- The word that `sys_mprotect` takes for the entry of the page at `addr`. -/
def target (wp : Bool) (mem : Memory) (cr3 : Frame) (addr : Nat) : Option Word :=
  if pageDirVirtToPhys mem cr3 addr = 0 ∨ pageDirVirtToPhys mem cr3 addr = notMapped then none
  else storePlace wp mem cr3 (pageDirVirtToPhys mem cr3 addr)

/-- There is nothing to do, neither for the pages of the range nor for the words that are modified
in place of their entries. -/
structure AlreadyProtected (wp : Bool) (cr3 : Frame) (start len prot : BitVec 64) (mem : Memory) : Prop where
  pages : ∀ va e, va < stackUpperUspaceAddr → Overlaps start len va → lookup mem cr3 va = some e → Permits prot e
  words : ∀ addr ∈ pagesOfLoop (pageDown start) (roundToPageUp (start + len)), ∀ f i,
    target wp mem cr3 addr = some (f, i) → Permits prot (mem f i)

section Bits

def protect (flags w : Entry) : Entry := (w &&& ~~~protMask) ||| flags

theorem protMask_getLsbD {i : Nat} (inside : i < 64) : protMask.getLsbD i = decide (i = 1 ∨ i = 2 ∨ i = 63) := by
  revert i
  decide

theorem protFlags_bits (prot : BitVec 64) : (protFlags prot).getLsbD 2 = decide (prot ≠ protNone) ∧
      (protFlags prot).getLsbD 1 = decide (prot &&& protWrite ≠ 0) ∧
      (protFlags prot).getLsbD 63 = decide (prot &&& protExec = 0) := by
  unfold protFlags
  by_cases nothing : prot = protNone <;> by_cases writes : prot &&& protWrite = 0 <;>
    by_cases executes : prot &&& protExec = 0 <;>
    simp only [nothing, writes, executes, ne_eq, not_true_eq_false, not_false_eq_true, if_true, if_false, decide_true,
      decide_false] <;> decide

theorem protFlags_inside (prot : BitVec 64) : protFlags prot &&& protMask = protFlags prot := by
  unfold protFlags
  dsimp only
  split <;> split <;> split <;> decide

variable {w flags : Entry}

theorem permits_iff {prot : BitVec 64} : Permits prot w ↔ w &&& protMask = protFlags prot := by
  have ⟨user, writable, nx⟩ := protFlags_bits prot
  constructor
  · intro permits
    have one := permits.writable
    have two := permits.user
    have last := permits.nx
    rw [Rights.isWritable_eq, ← writable] at one
    rw [Rights.isUser_eq, ← user] at two
    rw [isNx_eq, ← nx] at last
    rw [← protFlags_inside]
    apply BitVec.eq_of_getLsbD_eq
    intro i inside
    rw [BitVec.getLsbD_and, BitVec.getLsbD_and, protMask_getLsbD inside]
    by_cases bit : i = 1 ∨ i = 2 ∨ i = 63
    · rcases bit with rfl | rfl | rfl
      · rw [one]
      · rw [two]
      · rw [last]
    · rw [decide_eq_false bit, Bool.and_false, Bool.and_false]
  · intro same
    have bit : ∀ i < 64, (i = 1 ∨ i = 2 ∨ i = 63) → w.getLsbD i = (protFlags prot).getLsbD i := by
      intro i inside one
      rw [← same, BitVec.getLsbD_and, protMask_getLsbD inside, decide_eq_true one, Bool.and_true]
    refine ⟨?_, ?_, ?_⟩
    · rw [Rights.isUser_eq, bit 2 (by decide) (by decide), user]
    · rw [Rights.isWritable_eq, bit 1 (by decide) (by decide), writable]
    · rw [isNx_eq, bit 63 (by decide) (by decide), nx]

theorem protect_mask (inside : flags &&& protMask = flags) (w : Entry) : protect flags w &&& protMask = flags := by
  apply BitVec.eq_of_getLsbD_eq
  intro i low
  have bit : ((flags.getLsbD i) && (protMask.getLsbD i)) = flags.getLsbD i := by rw [← BitVec.getLsbD_and, inside]
  rw [protect, BitVec.getLsbD_and, BitVec.getLsbD_or, BitVec.getLsbD_and, BitVec.getLsbD_not]
  revert bit
  cases protMask.getLsbD i <;> cases flags.getLsbD i <;> simp

theorem protect_eq_self_iff (inside : flags &&& protMask = flags) : protect flags w = w ↔ w &&& protMask = flags := by
  constructor
  · intro same
    rw [← same, protect_mask inside]
  · rintro rfl
    apply BitVec.eq_of_getLsbD_eq
    intro i low
    rw [protect, BitVec.getLsbD_or, BitVec.getLsbD_and, BitVec.getLsbD_and, BitVec.getLsbD_not]
    cases protMask.getLsbD i <;> simp [low]

theorem protect_idem (inside : flags &&& protMask = flags) (w : Entry) : protect flags (protect flags w) = protect flags w :=
  (protect_eq_self_iff inside).mpr (protect_mask inside w)

theorem leafEntry_mask (pa : Frame) (flags : Entry) : leafEntry pa flags &&& protMask = flags &&& protMask := by
  have free : ∀ i < 64, protMask.getLsbD i = true → pteAddrMask.getLsbD i = false ∧ ptePresent.getLsbD i = false := by
    decide
  apply BitVec.eq_of_getLsbD_eq
  intro i low
  rw [leafEntry, BitVec.getLsbD_and, BitVec.getLsbD_or, BitVec.getLsbD_or, BitVec.getLsbD_and, BitVec.getLsbD_and]
  cases bit : protMask.getLsbD i with
  | false => rw [Bool.and_false, Bool.and_false]
  | true => rw [(free i low bit).1, (free i low bit).2, Bool.and_false, Bool.false_or, Bool.or_false]

end Bits

section Walks

variable {wp : Bool} {cr3 : Frame} {mem after : Memory} {va addr : Nat}

/-- Every word that the CPU reads on its walk is in a table. -/
theorem isTable_of_reads {scope : TableScope} (q path : List Index) {n : Frame} (here : tableAt mem cr3 q = some n)
    {last : Index} (inside : q ++ path ∈ scope.paths) {w : Word} (member : w ∈ reads mem n (path ++ [last])) :
    IsTable scope mem cr3 w.1 := by
  induction path generalizing q n with
  | nil =>
    rw [List.append_nil] at inside
    have only : w = (n, last) := by
      simpa [reads] using member
    rw [only]
    exact ⟨q, inside, here⟩
  | cons i path ih =>
    have front : q ∈ scope.paths := Rights.mem_of_front inside (List.prefix_append q _)
    have inside : (q ++ [i]) ++ path ∈ scope.paths := by
      rw [List.append_assoc]
      exact inside
    rw [List.cons_append, reads] at member
    rcases List.mem_cons.mp member with rfl | member
    · exact ⟨q, front, here⟩
    split at member
    · cases member
    · rename_i present
      split at member
      · cases member
      · apply ih (q ++ [i]) _ inside member
        rw [tableAt_concat, readEntry, readAt_of here]
        exact entryChild_of_present (not_not.mp present)

theorem user_path (low : va < stackUpperUspaceAddr) : pathOf va ∈ lowerScope.paths := (slotOf_user low).path_mem

section Tables

variable (same : ∀ f, IsTable lowerScope mem cr3 f → after f = mem f) (low : va < stackUpperUspaceAddr)
include same low

theorem walkEntries_of_tables : walkEntries after cr3 va = walkEntries mem cr3 va := by
  apply walkEntries_of_reads
  intro w member
  have table : IsTable lowerScope mem cr3 w.1 :=
    isTable_of_reads [] (pathOf va) (nodeAt_nil cr3) (user_path low) member
  rw [same w.1 table]

theorem pageDirVirtToPhys_of_tables : pageDirVirtToPhys after cr3 va = pageDirVirtToPhys mem cr3 va := by
  have reads := readEntry_of_tables same
  have path := user_path low
  have two : [pml4Index va, pdptIndex va] ∈ lowerScope.paths := lowerScope.closed path
  have one : [pml4Index va] ∈ lowerScope.paths := lowerScope.closed two
  have none : [] ∈ lowerScope.paths := lowerScope.closed one
  rw [pageDirVirtToPhys_views, pageDirVirtToPhys_views]
  simp only [Vmm.translate, reads _ none, reads _ one, reads _ two, reads _ path]

theorem lookup_of_tables : lookup after cr3 va = lookup mem cr3 va := by
  have path := user_path low
  have tables : ∀ p ∈ lowerScope.paths, tableAt after cr3 p = tableAt mem cr3 p := by
    apply tableAt_of_views
    intro p member i
    rw [readEntry_of_tables same p member i]
  apply leafAt_eq (tables _ path)
  intro pt reached
  rw [same pt ⟨_, path, reached⟩]

end Tables

theorem ProcessTables.of_tables (tables : ProcessTables cr3 mem)
    (same : ∀ f, IsTable lowerScope mem cr3 f → after f = mem f) : ProcessTables cr3 after where
  paging := tables.paging.of_tables same
  apart := by
    intro va e low here
    rw [lookup_of_tables same low] at here
    intro table
    apply tables.apart va e low here
    obtain ⟨p, inside, reached⟩ := table
    refine ⟨p, inside, ?_⟩
    rw [← reached]
    symm
    apply tableAt_of_views _ p inside
    intro p member i
    rw [readEntry_of_tables same p member i]

theorem frameOf_offset (va : Nat) : frameOf (BitVec.ofNat 64 (va % 2 ^ 12)) = 0 := by
  have small : va % 2 ^ 12 % 2 ^ 64 / 4096 % 2 ^ 40 = 0 := by omega
  rw [frameOf_eq_pageAt, BitVec.toNat_ofNat, small]
  rfl

theorem toNat_phys_lt (e : Entry) (va : Nat) : (frameOf e ||| BitVec.ofNat 64 (va % 2 ^ 12)).toNat < 2 ^ 52 := by
  rw [BitVec.toNat_or]
  apply Nat.or_lt_two_pow
  · rw [frameOf, BitVec.toNat_and]
    exact Nat.lt_of_le_of_lt Nat.and_le_right (by decide)
  · rw [BitVec.toNat_ofNat]
    omega

theorem ProcessTables.phys_small (tables : ProcessTables cr3 mem) (low : va < stackUpperUspaceAddr)
    (mapped : pageDirVirtToPhys mem cr3 va ≠ notMapped) : (pageDirVirtToPhys mem cr3 va).toNat < 2 ^ 52 := by
  rw [pageDirVirtToPhys_eq tables.paging (user_path low)] at mapped ⊢
  cases here : lookup mem cr3 va with
  | none =>
    rw [here] at mapped
    exact absurd rfl mapped
  | some e => exact toNat_phys_lt e va

/-- A physical address is an address of the user half, or none at all: the kernel half is not reached. -/
theorem storePlace_user {va : BitVec 64} (small : va.toNat < 2 ^ 52) (high : ¬ va.toNat < stackUpperUspaceAddr) :
    storePlace wp mem cr3 va = none := by
  have limit : stackUpperUspaceAddr = 2 ^ 47 := rfl
  exact if_neg (by omega)

theorem storePlace_of_tables {va : BitVec 64} (same : ∀ f, IsTable lowerScope mem cr3 f → after f = mem f)
    (small : va.toNat < 2 ^ 52) : storePlace wp after cr3 va = storePlace wp mem cr3 va := by
  by_cases low : va.toNat < stackUpperUspaceAddr
  · rw [storePlace, storePlace, walkEntries_of_tables same low, pageDirVirtToPhys_of_tables same low]
  · rw [storePlace_user small low, storePlace_user small low]

theorem ProcessTables.place_apart (tables : ProcessTables cr3 mem) {va : BitVec 64} (small : va.toNat < 2 ^ 52)
    {f : Frame} {i : Index} (found : storePlace wp mem cr3 va = some (f, i)) : ¬ IsTable lowerScope mem cr3 f := by
  by_cases low : va.toNat < stackUpperUspaceAddr
  · cases here : lookup mem cr3 va.toNat with
    | none =>
      have nothing := walkEntries_eq_none tables.paging (user_path low) here
      rw [storePlace, nothing] at found
      split at found <;> cases found
    | some e =>
      have phys : frameOf (pageDirVirtToPhys mem cr3 va.toNat) = frameOf e := by
        rw [pageDirVirtToPhys_eq tables.paging (user_path low), here]
        show frameOf (frameOf e ||| _) = _
        rw [frameOf_or, frameOf_frameOf, frameOf_offset]
        exact BitVec.or_zero
      have frame : f = frameOf e := by
        rw [storePlace, phys] at found
        split at found
        · split at found
          · cases found
          · split at found
            · cases found
            · cases found
              rfl
        · cases found
      rw [frame]
      exact tables.apart _ e low here
  · rw [storePlace_user small low] at found
    cases found

end Walks

section Loop

variable {wp : Bool} {cr3 : Frame} {mem now next after : Memory} {flags : Entry} {addr : Nat} {addrs : List Nat}

theorem target_of_tables (tables : ProcessTables cr3 mem) (same : ∀ f, IsTable lowerScope mem cr3 f → after f = mem f)
    (low : addr < stackUpperUspaceAddr) : target wp after cr3 addr = target wp mem cr3 addr := by
  rw [target, target, pageDirVirtToPhys_of_tables same low]
  split
  · rfl
  · rename_i mapped
    exact storePlace_of_tables same (tables.phys_small low fun none => mapped (.inr none))

theorem ProcessTables.target_apart (tables : ProcessTables cr3 mem) (low : addr < stackUpperUspaceAddr) {f : Frame}
    {i : Index} (found : target wp mem cr3 addr = some (f, i)) : ¬ IsTable lowerScope mem cr3 f := by
  rw [target] at found
  split at found
  · cases found
  · rename_i mapped
    exact tables.place_apart (tables.phys_small low fun none => mapped (.inr none)) found

theorem updateWord_eq {p : BitVec 64} {change : Entry → Entry} (done : updateWord wp cr3 p change mem = .ok after) :
    ∃ f i, storePlace wp mem cr3 p = some (f, i) ∧ after = write mem f i (change (mem f i)) := by
  unfold updateWord at done
  split at done
  · cases done
  · rename_i f i place
    cases done
    exact ⟨f, i, place, rfl⟩

/-- A round modifies the word that is taken for the entry. -/
theorem protectPage_eq (tables : ProcessTables cr3 mem) (low : addr < stackUpperUspaceAddr)
    (done : protectPage wp cr3 flags mem addr = .ok after) : target wp mem cr3 addr = none ∧ after = mem ∨
      ∃ f i, target wp mem cr3 addr = some (f, i) ∧ after = write mem f i (protect flags (mem f i)) := by
  unfold protectPage at done
  rw [target]
  dsimp only at done
  split at done
  · rename_i nothing
    cases done
    exact .inl ⟨if_pos nothing, rfl⟩
  · rename_i mapped
    have small := tables.phys_small low fun none => mapped (.inr none)
    obtain ⟨middle, first, second⟩ := Outcome.bind_eq_ok.mp done
    obtain ⟨f, i, place, rfl⟩ := updateWord_eq first
    obtain ⟨g, j, again, rfl⟩ := updateWord_eq second
    -- the first store does not change where the second one goes
    rw [storePlace_of_tables _ small, place] at again
    · cases again
      refine .inr ⟨f, i, (if_neg mapped).trans place, ?_⟩
      rw [write_self]
      funext g j
      rw [write_apply, write_apply, write_apply]
      split
      · rfl
      · rfl
    · intro t table
      funext j
      rw [write_of_ne_node]
      rintro rfl
      exact tables.place_apart small place table

/-- The memory after the rounds for `addrs`. -/
structure Marked (wp : Bool) (cr3 : Frame) (flags : Entry) (mem : Memory) (addrs : List Nat) (now : Memory) : Prop where
  tables : ∀ f, IsTable lowerScope mem cr3 f → now f = mem f
  touched : ∀ addr ∈ addrs, ∀ f i, target wp mem cr3 addr = some (f, i) → now f i = protect flags (mem f i)
  others : ∀ f i, (∀ addr ∈ addrs, target wp mem cr3 addr ≠ some (f, i)) → now f i = mem f i

theorem Marked.word (marked : Marked wp cr3 flags mem addrs now) (f : Frame) (i : Index) :
    now f i = mem f i ∨ now f i = protect flags (mem f i) := by
  by_cases hit : ∃ addr ∈ addrs, target wp mem cr3 addr = some (f, i)
  · obtain ⟨addr, member, found⟩ := hit
    exact .inr (marked.touched addr member f i found)
  · exact .inl (marked.others f i fun addr member found => hit ⟨addr, member, found⟩)

theorem Marked.step (tables : ProcessTables cr3 mem) (inside : flags &&& protMask = flags)
    (marked : Marked wp cr3 flags mem addrs now) (low : addr < stackUpperUspaceAddr)
    (done : protectPage wp cr3 flags now addr = .ok next) : Marked wp cr3 flags mem (addrs ++ [addr]) next := by
  have same : target wp now cr3 addr = target wp mem cr3 addr := target_of_tables tables marked.tables low
  have earlier : ∀ f i, (∀ a ∈ addrs ++ [addr], target wp mem cr3 a ≠ some (f, i)) → now f i = mem f i := by
    intro f i never
    exact marked.others f i fun a member => never a (List.mem_append_left [addr] member)
  rcases protectPage_eq (tables.of_tables marked.tables) low done with ⟨nothing, rfl⟩ | ⟨g, j, found, rfl⟩
  · rw [same] at nothing
    refine ⟨marked.tables, fun a member f i hit => ?_, earlier⟩
    rcases List.mem_append.mp member with before | last
    · exact marked.touched a before f i hit
    · rw [List.mem_singleton.mp last, nothing] at hit
      cases hit
  · rw [same] at found
    have word : protect flags (now g j) = protect flags (mem g j) := by
      rcases marked.word g j with before | already
      · rw [before]
      · rw [already, protect_idem inside]
    refine ⟨fun f table => ?_, fun a member f i hit => ?_, fun f i never => ?_⟩
    · rw [write_of_ne_node, marked.tables f table]
      rintro rfl
      exact tables.target_apart low found table
    · rw [write_apply]
      split
      · rename_i here
        rw [here.1, here.2, word]
      · rename_i other
        rcases List.mem_append.mp member with before | last
        · exact marked.touched a before f i hit
        · rw [List.mem_singleton.mp last, found] at hit
          cases hit
          exact absurd ⟨rfl, rfl⟩ other
    · rw [write_apply, if_neg, earlier f i never]
      rintro ⟨rfl, rfl⟩
      exact never addr (List.mem_append_right addrs List.mem_cons_self) found

theorem protectPages_marked (tables : ProcessTables cr3 mem) (inside : flags &&& protMask = flags)
    (low : ∀ addr ∈ addrs, addr < stackUpperUspaceAddr)
    (done : addrs.foldlM (protectPage wp cr3 flags) mem = .ok after) : Marked wp cr3 flags mem addrs after := by
  induction addrs using List.reverseRecOn generalizing after with
  | nil =>
    cases done
    exact ⟨fun _ _ => rfl, fun _ member => (nomatch member), fun _ _ _ => rfl⟩
  | append_singleton addrs addr ih =>
    obtain ⟨now, front, last⟩ := FallibleLoops.foldlM_concat done
    have marked := ih (fun a member => low a (List.mem_append_left [addr] member)) front
    exact marked.step tables inside (low addr (List.mem_append_right addrs List.mem_cons_self)) last

end Loop

section Calls

variable {wp : Bool} {cr3 : Frame} {mem mem' : Memory} {start len prot : BitVec 64}

theorem toNat_roundToPageUp (x : BitVec 64) : (roundToPageUp x).toNat = x.toNat / 4096 + 1 := by
  have bound := x.isLt
  have unit : (0x1000 : BitVec 64).toNat = 4096 := rfl
  have one : (1 : BitVec 64).toNat = 1 := rfl
  rw [roundToPageUp, BitVec.toNat_add, BitVec.toNat_udiv, unit, one, Nat.mod_eq_of_lt (by omega)]

variable {addr : Nat}

theorem pagesOfLoop_lt {first stop : BitVec 64} (member : addr ∈ pagesOfLoop first stop) : addr < stop.toNat := by
  obtain ⟨i, inside, rfl⟩ := List.mem_map.mp member
  have below := List.mem_range.mp inside
  omega

theorem pages_low (below : start.toNat + len.toNat < stackUpperUspaceAddr) :
    ∀ addr ∈ pagesOfLoop (pageDown start) (roundToPageUp (start + len)), addr < stackUpperUspaceAddr := by
  intro addr member
  have low := pagesOfLoop_lt member
  rw [toNat_roundToPageUp, BitVec.toNat_add] at low
  rw [stackUpperUspaceAddr] at below ⊢
  omega

/-- Unless the page number of the end exceeds the address of the start, the loop is not entered. -/
theorem sysMprotect_idle (short : (roundToPageUp (start + len)).toNat ≤ (pageDown start).toNat) :
    sysMprotect wp mem cr3 start len prot = .ok (0, mem) := by
  have none : (roundToPageUp (start + len)).toNat - (pageDown start).toNat = 0 := Nat.sub_eq_zero_of_le short
  have empty : pagesOfLoop (pageDown start) (roundToPageUp (start + len)) = [] := by
    rw [pagesOfLoop, none]
    rfl
  rw [sysMprotect, empty]
  rfl

theorem sysMprotect_marked (tables : ProcessTables cr3 mem) (below : start.toNat + len.toNat < stackUpperUspaceAddr)
    (done : sysMprotect wp mem cr3 start len prot = .ok (0, mem')) :
    Marked wp cr3 (protFlags prot) mem (pagesOfLoop (pageDown start) (roundToPageUp (start + len))) mem' := by
  obtain ⟨after, rounds, done⟩ := Outcome.bind_eq_ok.mp done
  cases done
  exact protectPages_marked tables (protFlags_inside prot) (pages_low below) rounds

variable {addrs : List Nat}

theorem Marked.pages_of_protected (marked : Marked wp cr3 (protFlags prot) mem addrs mem')
    (protects : Protected cr3 start len prot mem mem') {va : Nat} {e : Entry} (low : va < stackUpperUspaceAddr)
    (overlaps : Overlaps start len va) (here : lookup mem cr3 va = some e) : Permits prot e := by
  obtain ⟨e', after, permits, -⟩ := protects.leaves va e low overlaps here
  rw [lookup_of_tables marked.tables low, here] at after
  cases after
  exact permits

theorem Marked.words_of_protected (tables : ProcessTables cr3 mem) (low : ∀ addr ∈ addrs, addr < stackUpperUspaceAddr)
    (marked : Marked wp cr3 (protFlags prot) mem addrs mem') (protects : Protected cr3 start len prot mem mem')
    (member : addr ∈ addrs) {f : Frame} {i : Index} (found : target wp mem cr3 addr = some (f, i)) :
    Permits prot (mem f i) := by
  have noTable := tables.target_apart (low addr member) found
  have kept : mem' f i = mem f i := by
    apply protects.others f i
    intro va user _ entry
    exact noTable ⟨pathOf va, user_path user, entry.1⟩
  rw [marked.touched addr member f i found, protect_eq_self_iff (protFlags_inside prot)] at kept
  exact permits_iff.mpr kept

theorem Marked.unchanged (marked : Marked wp cr3 (protFlags prot) mem addrs mem')
    (words : ∀ addr ∈ addrs, ∀ f i, target wp mem cr3 addr = some (f, i) → Permits prot (mem f i)) : mem' = mem := by
  funext f i
  by_cases hit : ∃ addr ∈ addrs, target wp mem cr3 addr = some (f, i)
  · obtain ⟨addr, member, found⟩ := hit
    have same := permits_iff.mp (words addr member f i found)
    rw [marked.touched addr member f i found]
    exact (protect_eq_self_iff (protFlags_inside prot)).mpr same
  · exact marked.others f i fun addr member found => hit ⟨addr, member, found⟩

end Calls

/-- A call that returns 0 has done what it reports exactly if there was nothing to do. -/
theorem mprotect_honest_iff (wp : Bool) (cr3 : Frame) (mem : Memory) (tables : ProcessTables cr3 mem)
    (start len prot : BitVec 64) (below : start.toNat + len.toNat < stackUpperUspaceAddr) (mem' : Memory)
    (done : sysMprotect wp mem cr3 start len prot = .ok (0, mem')) :
    Protected cr3 start len prot mem mem' ↔ AlreadyProtected wp cr3 start len prot mem := by
  have marked := sysMprotect_marked tables below done
  constructor
  · intro protects
    refine ⟨fun va e low overlaps here => marked.pages_of_protected protects low overlaps here, ?_⟩
    intro addr member f i found
    exact marked.words_of_protected tables (pages_low below) protects member found
  · intro already
    rw [marked.unchanged already.words]
    exact ⟨fun va e low overlaps here => ⟨e, here, already.pages va e low overlaps here, rfl⟩, fun _ _ _ => rfl⟩

theorem processTables_of_building {old m : Kernel} {root : Frame} (building : Building old root m)
    (taken : Libc.PagesTaken old root m) : ProcessTables root m.mem where
  paging := building.paging
  apart := by
    intro va e low here
    have user := slotOf_user low
    exact (building.leaves _ user e here (taken _ user e here)).2

/-- The heap of a new process is asked to be writable and executable, which it is. -/
theorem mprotect_honest_iff_heap : ∃ cr3 mem, ProcessTables cr3 mem ∧
    sysMprotect true mem cr3 0x600000000000 0x10000 6 = .ok (0, mem) ∧
    Protected cr3 0x600000000000 0x10000 6 mem mem := by
  obtain ⟨cr3, m, built⟩ := Libc.process_built
  have tables := processTables_of_building built.building built.taken
  have done : sysMprotect true m.mem cr3 0x600000000000 0x10000 6 = .ok (0, m.mem) := sysMprotect_idle (by decide)
  refine ⟨cr3, m.mem, tables, done, (mprotect_honest_iff _ _ _ tables _ _ _ (by decide) _ done).mpr ⟨?_, ?_⟩⟩
  · intro va e low ⟨b, from', stop, page⟩ here
    have size : (0x600000000000 : BitVec 64).toNat = 0x600000000000 ∧ (0x10000 : BitVec 64).toNat = 0x10000 := by decide
    rw [size.1] at from' stop
    rw [size.2] at stop
    have inside : defaultUserHeapStart ≤ va ∧ va < defaultUserHeapEnd := by
      have bounds : defaultUserHeapStart = 0x600000000000 ∧ defaultUserHeapEnd = 0x600000010000 := by decide
      omega
    have ⟨f, mapped⟩ := built.heap va inside.1 inside.2
    cases mapped.symm.trans here
    rw [permits_iff, leafEntry_mask]
    decide
  · intro addr member
    have none : pagesOfLoop (pageDown 0x600000000000) (roundToPageUp (0x600000000000 + 0x10000)) = [] := by decide
    rw [none] at member
    cases member

/-- The second page of the heap is asked to be read only: the call returns 0, and the page is still
writable. -/
theorem mprotect_ignored : ∃ cr3 mem, ProcessTables cr3 mem ∧
    sysMprotect true mem cr3 0x600000001000 0x1000 1 = .ok (0, mem) ∧
    ¬ Protected cr3 0x600000001000 0x1000 1 mem mem := by
  obtain ⟨cr3, m, built⟩ := Libc.process_built
  have ⟨f, here⟩ := built.heap 0x600000001000 (by decide) (by decide)
  refine ⟨cr3, m.mem, processTables_of_building built.building built.taken, sysMprotect_idle (by decide), fun protects => ?_⟩
  have overlaps : Overlaps 0x600000001000 0x1000 0x600000001000 := ⟨0x600000001000, by decide, by decide, rfl⟩
  obtain ⟨e, after, permits, -⟩ := protects.leaves _ _ (by decide) overlaps here
  cases here.symm.trans after
  rw [permits_iff, leafEntry_mask] at permits
  revert permits
  decide

end CreeperKernel.UserMemory

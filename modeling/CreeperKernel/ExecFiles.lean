import CreeperKernel.ExecProgress
import CreeperKernel.ForkDuplicates

namespace CreeperKernel.Exec

open Vmm Fork FallibleLoops RadixTree
open Pmm (pageSize mul_pageSize)

variable {old m : Kernel} {cr3 root : Frame} {mem mem' : Memory} {start : Memory} {va : Nat} {stdin : Stdin}

/-- The frames that were free before the call are as in `start`; elsewhere words may
have been cleared. -/
structure Scrubbed (old : Kernel) (start mem : Memory) : Prop where
  own : ∀ f, Free old.frames f → mem f = start f
  rest : ∀ f i, mem f i = start f i ∨ mem f i = 0

theorem Scrubbed.refl (old : Kernel) (mem : Memory) : Scrubbed old mem mem :=
  ⟨fun _ _ => rfl, fun _ _ => .inl rfl⟩

theorem Scrubbed.present (scrubbed : Scrubbed old start mem) {f : Frame} {i : Index}
    (present : isPresent (mem f i) = true) : mem f i = start f i := by
  rcases scrubbed.rest f i with same | zero
  · exact same
  · rw [zero] at present
    cases present

theorem Scrubbed.table (scrubbed : Scrubbed old start mem) {p : List Index}
    {f : Frame} (reached : tableAt mem cr3 p = some f) : tableAt start cr3 p = some f := by
  induction p using List.reverseRecOn generalizing f with
  | nil => exact reached
  | append_singleton p i ih =>
    rw [tableAt, nodeAt_concat] at reached
    obtain ⟨t, above, child⟩ := Option.bind_eq_some_iff.mp reached
    rw [tableAt, nodeAt_concat_of (ih above), ← scrubbed.present (isPresent_of_entryChild child).1]
    exact child

theorem Scrubbed.lookup (scrubbed : Scrubbed old start mem) {e : Entry}
    (found : lookup mem cr3 va = some e) : lookup start cr3 va = some e := by
  obtain ⟨pt, reached, entry⟩ := Option.bind_eq_some_iff.mp found
  split at entry
  · rename_i present
    cases entry
    have same := scrubbed.present present
    rw [Vmm.lookup, leafAt, scrubbed.table reached, Option.bind_some, same, if_pos]
    rw [← same]
    exact present
  · cases entry

theorem readVirtual_eq_ok {w : Entry} :
    readVirtual mem cr3 va = .ok w ↔ ∃ e, lookup mem cr3 va = some e ∧ w = mem (frameOf e) (wordIndex va) := by
  unfold readVirtual wordAt
  cases lookup mem cr3 va with
  | none => simp
  | some e => simp [eq_comm]

theorem writeVirtual_eq_ok {w : Entry} : writeVirtual mem cr3 va w = .ok mem' ↔ ∃ e, lookup mem cr3 va = some e ∧
      mem' = write mem (frameOf e) (wordIndex va) w := by
  unfold writeVirtual
  cases lookup mem cr3 va with
  | none => simp
  | some e => simp [eq_comm]

theorem copyFile_self {addr : Nat} (done : copyFile cr3 addr addr mem = .ok mem') : mem' = mem := by
  refine foldlM_keeps (fun now => now = mem) ?_ rfl done
  intro k _ now next same round
  subst same
  obtain ⟨w, read, written⟩ := Outcome.bind_eq_ok.mp round
  obtain ⟨e, found, rfl⟩ := readVirtual_eq_ok.mp read
  obtain ⟨d, again, rfl⟩ := writeVirtual_eq_ok.mp written
  cases found.symm.trans again
  simp [write]

theorem Scrubbed.used (building : Building old root m) (occupied : Occupied old cr3)
    (scrubbed : Scrubbed old m.mem mem) (low : va < stackUpperUspaceAddr) {e : Entry}
    (found : Vmm.lookup mem cr3 va = some e) : ¬ Free old.frames (frameOf e) := by
  have user := slotOf_user low
  have before : leaf m.mem cr3 (slotOf va) = some e := scrubbed.lookup found
  rw [building.parent_leaf occupied user] at before
  exact occupied.pages _ user e before

theorem clearFile_scrubs (building : Building old root m) (occupied : Occupied old cr3) {addr : Nat}
    (low : addr + fileSize ≤ stackUpperUspaceAddr) (scrubbed : Scrubbed old m.mem mem)
    (done : clearFile cr3 addr mem = .ok mem') : Scrubbed old m.mem mem' := by
  refine foldlM_keeps (Scrubbed old m.mem) ?_ scrubbed done
  intro k member now next scrubbed round
  have inside : addr + k * 8 < stackUpperUspaceAddr := by
    have below := List.mem_range.mp member
    simp only [fileWords, fileSize] at below low
    omega
  obtain ⟨e, found, rfl⟩ := writeVirtual_eq_ok.mp round
  have used := scrubbed.used building occupied inside found
  refine ⟨fun f free => ?_, fun f i => ?_⟩
  · rw [write_of_ne_node]
    · exact scrubbed.own f free
    · intro same
      rw [← same] at used
      exact used free
  · rw [write_apply]
    split
    · exact .inr rfl
    · exact scrubbed.rest f i

/-- The descriptor loop only clears words of the old process: the two tables have the
same address, so each open file is copied onto itself and then wiped. -/
theorem moveFiles_scrubs (building : Building old root m) (occupied : Occupied old cr3)
    (done : moveFiles cr3 defaultFileTableStart defaultFileTableStart m.mem = .ok mem') : Scrubbed old m.mem mem' := by
  refine foldlM_keeps (Scrubbed old m.mem) ?_ (Scrubbed.refl old m.mem) done
  intro i member now next scrubbed round
  obtain ⟨fInode, -, rest⟩ := Outcome.bind_eq_ok.mp round
  split at rest
  · cases rest
    exact scrubbed
  · obtain ⟨copied, same, cleared⟩ := Outcome.bind_eq_ok.mp rest
    rw [copyFile_self same] at cleared
    refine clearFile_scrubs building occupied ?_ scrubbed cleared
    have below := List.mem_range.mp member
    simp only [fileAddr, fileSize, defaultFileTableStart, stackUpperUspaceAddr]
    omega

section Table

variable {files : Frame} {contents : Nat → Index → Entry}
  (table : FileTable old root files contents m) (scrubbed : Scrubbed old m.mem mem)

include table scrubbed

theorem FileTable.sameEntries : SameEntries root m mem := by
  intro p inside f reached i _
  rw [scrubbed.own f (table.building.tables f ⟨p, inside, reached⟩).1]

theorem FileTable.word_eq (reserve : Reserve old.frames) {offset : Nat} (below : offset < defaultFileTablePages * pageSize) :
    wordAt mem root (defaultFileTableStart + offset) = some (contents (offset / pageSize) (wordIndex offset)) := by
  have page : offset / pageSize < defaultFileTablePages := by
    simp only [defaultFileTablePages, pageSize] at below ⊢
    omega
  have slot : slotOf (defaultFileTableStart + offset) =
      slotOf (defaultFileTableStart + offset / pageSize * pageSize) := by
    simp only [slotOf, pml4Index, pdptIndex, pdIndex, ptIndex, Slot.mk.injEq, Fin.mk.injEq,
      defaultFileTableStart, pageSize]
    omega
  have index : wordIndex (defaultFileTableStart + offset) = wordIndex offset := by
    simp only [wordIndex, Fin.mk.injEq, defaultFileTableStart]
    omega
  obtain ⟨free, -, -⟩ := table.own _ (page_mem_block _ page)
  have aligned : frameOf (leafEntry (files + BitVec.ofNat 64 (offset / pageSize * pageSize))
      (pteWritable ||| pteLocalOwned)) = files + BitVec.ofNat 64 (offset / pageSize * pageSize) := by
    rw [frameOf_leafEntry _ (by decide), free.aligned reserve]
  rw [wordAt, lookup_eq_leaf, slot,
    (table.sameEntries scrubbed).tables.leaf _ (fileSlot_user page), table.mapped _ page,
    Option.map_some, aligned, index, scrubbed.own _ free, table.contents _ page]

end Table

/-- What a system call finds in slot `i` of the table that `load_elf_from_vfs` leaves. -/
def freshFile (stdin : Stdin) (i : Nat) : FileView :=
  if i = 0 then ⟨stdin.inode, 0, 0, 0, stdin.iFop⟩ else ⟨0, 0, 0, 0, 0⟩

theorem freshFiles_slot (stdin : Stdin) {i k : Nat} (below : i < 256) (small : k < fileWords) :
    freshFiles stdin (i / 64) (wordIndex (i * fileSize + k * 8)) = if i = 0 then
        if k = 0 then stdin.inode else if k = 3 then stdin.iPrivate else if k = 4 then stdin.iFop else 0 else 0 := by
  simp only [fileWords, fileSize] at small
  have page : i / 64 = 0 ↔ i < 64 := by omega
  have word : ∀ n : Index, wordIndex (i * fileSize + k * 8) = n ↔ (i * 8 + k) % 512 = n.val := by
    intro n
    simp only [wordIndex, fileSize, Fin.ext_iff]
    omega
  simp only [freshFiles, page, word]
  by_cases first : i = 0
  · subst first
    have index : (0 * 8 + k) % 512 = k := by omega
    simp only [index]
    rfl
  · rw [if_neg first]
    by_cases here : i < 64
    · have offset : 8 ≤ (i * 8 + k) % 512 := by omega
      have apart : ∀ n : Index, n.val < 8 → ¬ (i * 8 + k) % 512 = n.val := by
        intro n low
        omega
      rw [if_pos here, if_neg (apart 0 (by decide)), if_neg (apart 3 (by decide)),
        if_neg (apart 4 (by decide))]
    · rw [if_neg here]

theorem FileTable.file_eq {files : Frame} (reserve : Reserve old.frames)
    (table : FileTable old root files (freshFiles stdin) m) (scrubbed : Scrubbed old m.mem mem) {i : Nat}
    (below : i < 256) : fileAt mem root defaultFileTableStart i = some (freshFile stdin i) := by
  have word : ∀ k < fileWords, wordAt mem root (fileAddr defaultFileTableStart i + k * 8) =
      some (freshFiles stdin (i / 64) (wordIndex (i * fileSize + k * 8))) := by
    intro k small
    simp only [fileWords, fileSize] at small
    have inside : i * fileSize + k * 8 < defaultFileTablePages * pageSize := by
      simp only [fileSize, defaultFileTablePages, pageSize]
      omega
    have page : (i * fileSize + k * 8) / pageSize = i / 64 := by
      simp only [fileSize, pageSize]
      omega
    rw [fileAddr, Nat.add_assoc, table.word_eq scrubbed reserve inside, page]
  have fInode := word 0 (by decide)
  have fPos := word 1 (by decide)
  have flags := word 2 (by decide)
  have fOps := word 4 (by decide)
  rw [freshFiles_slot stdin below (by decide)] at fInode fPos flags fOps
  simp only [Nat.zero_mul, Nat.add_zero, Nat.one_mul, Nat.reduceMul] at fInode fPos flags fOps
  simp only [fileAt, fInode, fPos, flags, fOps, freshFile]
  by_cases first : i = 0
  · simp [first]
  · simp [first]

/-- The table of the new process after a successful exec does not depend on the old one. -/
theorem exec_fileAt (reserve : Reserve old.frames) {kernel : Frame} {proc : Parent} {program : Program}
    (occupied : Occupied old proc.cr3) (table : proc.openedFileTable = defaultFileTableStart)
    (done : execElfFromVfs kernel proc program stdin old = .ok (some (root, m))) {i : Nat}
    (below : i < 256) : fileAt m.mem root defaultFileTableStart i = some (freshFile stdin i) := by
  obtain ⟨⟨newPml4, loaded⟩, first, rest⟩ := withSome_eq_some.mp done
  obtain ⟨mem, moved, last⟩ := Outcome.bind_eq_ok.mp rest
  cases last
  obtain ⟨files, fresh⟩ := loadElfFromVfs_spec reserve first
  rw [table] at moved
  exact fresh.file_eq reserve (moveFiles_scrubs fresh.building occupied moved) below

/-- Open files survive exec exactly when nothing is open but a standard input as
`load_elf_from_vfs` opens it anew. -/
theorem exec_keeps_files_iff (kernel : Frame) (proc : Parent) (program : Program) (stdin : Stdin)
    (old m : Kernel) (newPml4 : Frame) (reserve : Reserve old.frames)
    (occupied : Occupied old proc.cr3) (table : proc.openedFileTable = defaultFileTableStart)
    (done : execElfFromVfs kernel proc program stdin old = .ok (some (newPml4, m))) :
    (∀ i < 256, ∀ file, fileAt old.mem proc.cr3 proc.openedFileTable i = some file →
      file.fInode ≠ 0 → fileAt m.mem newPml4 defaultFileTableStart i = some file) ↔
    ∀ i < 256, ∀ file, fileAt old.mem proc.cr3 proc.openedFileTable i = some file →
      file.fInode ≠ 0 → i = 0 ∧ file = ⟨stdin.inode, 0, 0, 0, stdin.iFop⟩ := by
  have fresh : ∀ i < 256, fileAt m.mem newPml4 defaultFileTableStart i = some (freshFile stdin i) :=
    fun i below => exec_fileAt reserve occupied table done below
  constructor
  · intro kept i below file here isOpen
    have same := (fresh i below).symm.trans (kept i below file here isOpen)
    have view : freshFile stdin i = file := Option.some.inj same
    by_cases first : i = 0
    · rw [freshFile, if_pos first] at view
      exact ⟨first, view.symm⟩
    · rw [freshFile, if_neg first] at view
      rw [← view] at isOpen
      exact absurd rfl isOpen
  · intro only i below file here isOpen
    obtain ⟨rfl, rfl⟩ := only i below file here isOpen
    rw [fresh 0 below, freshFile, if_pos rfl]

/-- The file table of the sample process: standard input, and a file opened as
descriptor 3. -/
def usprocFiles (word : Nat) : Entry :=
  match word with
  | 0 => 0xFFFFA00000002000
  | 3 => 0xFFFFA00000003000
  | 4 => 0xFFFFFFFF80020000
  | 24 => 0xFFFFA00000004000
  | 25 => 6
  | 28 => 0xFFFFFFFF80030000
  | _ => 0

def usprocStdin : Stdin := ⟨0xFFFFA00000002000, 0xFFFFFFFF80020000, 0xFFFFA00000003000, by decide⟩

def execMem : Memory := fun f i => if f = pageAt 48 then usprocFiles i else usprocMem f i

def execKernel : Kernel := ⟨execMem, smallPmm⟩

def smallProgram : Program :=
  { imageSize := 4096
    rawImage := fun _ _ => 0
    segments := [⟨0x400000, 4096, false, true, fun _ _ => 0, by decide, by decide⟩]
    userStack := fun _ _ => 0 }

theorem usprocFiles_not_present (word : Nat) : isPresent (usprocFiles word) = false := by
  unfold usprocFiles
  split <;> decide

theorem execMem_occupied : Occupied execKernel usprocParent.cr3 := by
  refine occupied_of_present (smallPmm_used (n := 1) (by decide)) fun f i present => ?_
  show ¬ Free smallPmm (frameOf (execMem f i))
  replace present : isPresent (execMem f i) = true := present
  unfold execMem at present ⊢
  by_cases table : f = pageAt 48
  · rw [if_pos table, usprocFiles_not_present] at present
    cases present
  · rw [if_neg table] at present ⊢
    exact usprocMem_used present

theorem execMem_walk : TableWalk execMem (pageAt 1) (pageAt 5) (pageAt 6) (pageAt 7) := by
  refine ⟨⟨?_, ?_, ?_⟩, ?_, ?_⟩
  · decide +kernel
  · decide +kernel
  · decide +kernel
  · decide +kernel
  · decide +kernel

theorem usproc_execs (kernel : Frame) : ∃ newPml4 m,
    execElfFromVfs kernel usprocParent smallProgram usprocStdin execKernel = .ok (some (newPml4, m)) := by
  refine exec_succeeds smallPmm_reserve kernel smallProgram usprocStdin rfl execMem_walk ?_ ?_
  · intro f member
    have low : ∃ n < 256, f = pageAt n := by
      simp only [List.mem_cons, List.not_mem_nil, or_false] at member
      rcases member with rfl | rfl | rfl | rfl
      · exact ⟨1, by decide, rfl⟩
      · exact ⟨5, by decide, rfl⟩
      · exact ⟨6, by decide, rfl⟩
      · exact ⟨7, by decide, rfl⟩
    obtain ⟨n, small, rfl⟩ := low
    exact smallPmm_used small
  · exact smallPmm_ahead (by decide +kernel)

/-- Descriptor 3 of a process is gone after exec. -/
theorem usproc_exec_loses_file : ∃ newPml4 m,
    execElfFromVfs (pageAt 14) usprocParent smallProgram usprocStdin execKernel =
      .ok (some (newPml4, m)) ∧
    fileAt execKernel.mem usprocParent.cr3 usprocParent.openedFileTable 3 =
      some ⟨0xFFFFA00000004000, 6, 0, 0, 0xFFFFFFFF80030000⟩ ∧
    fileAt m.mem newPml4 defaultFileTableStart 3 = some ⟨0, 0, 0, 0, 0⟩ := by
  obtain ⟨newPml4, m, done⟩ := usproc_execs (pageAt 14)
  refine ⟨newPml4, m, done, by decide +kernel, ?_⟩
  exact exec_fileAt smallPmm_reserve execMem_occupied rfl done (by decide)

/-- The process with descriptor 3 open does not keep its files. -/
theorem exec_keeps_files_iff_usproc : ∃ newPml4 m,
    execElfFromVfs (pageAt 14) usprocParent smallProgram usprocStdin execKernel =
      .ok (some (newPml4, m)) ∧
    ¬ ∀ i < 256, ∀ file, fileAt execKernel.mem usprocParent.cr3 usprocParent.openedFileTable i =
      some file → file.fInode ≠ 0 → fileAt m.mem newPml4 defaultFileTableStart i = some file := by
  obtain ⟨newPml4, m, done⟩ := usproc_execs (pageAt 14)
  refine ⟨newPml4, m, done, fun kept => ?_⟩
  have only := (exec_keeps_files_iff _ _ _ _ _ _ _ smallPmm_reserve execMem_occupied rfl done).mp kept
  have three : fileAt execKernel.mem usprocParent.cr3 usprocParent.openedFileTable 3 =
      some ⟨0xFFFFA00000004000, 6, 0, 0, 0xFFFFFFFF80030000⟩ := by decide +kernel
  obtain ⟨first, -⟩ := only 3 (by decide) _ three (by decide)
  cases first

end CreeperKernel.Exec

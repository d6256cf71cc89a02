import CreeperKernel.ElfLoading

namespace CreeperKernel.Exec

open Vmm Fork FallibleLoops
open Pmm (pageSize)

/-- A byte that the loader touches: one of the image, at this offset, or one of the frames
allocated for a segment, at this offset from the first. -/
inductive Access where
  | read (offset : Nat)
  | write (offset pages : Nat)

def Access.Inside (image : List Byte) : Access → Prop
  | .read offset => offset < image.length
  | .write offset pages => offset < pages * pageSize

def ehdrSize : Nat := 64

/-- The bytes of a structure or of a copy. An offset is that of a pointer from `raw`, which is
outside the image also where the sum wraps. -/
def readsFrom (start count : Nat) : List Access := (List.range count).map fun k => .read (start + k)

/-- The bytes that the `memcpy` of a segment reads and writes. -/
def Phdr.copies (ph : Phdr) : List Access :=
  if ph.pType ≠ ptLoad then []
  else readsFrom ph.pOffset ph.pFilesz ++ (List.range ph.pFilesz).map fun k => .write (ph.pageOffset + k) ph.segPages

def phdrReads (image : List Byte) (i : Nat) : List Access := readsFrom (ePhoff image + i * phdrSize) phdrSize

/-- The segment loop, with what it touches. A segment that gets no frames is not copied. -/
def loadPhdrsTraced (pml4 : Frame) (image : List Byte) : List Nat → Kernel → Outcome (Option Kernel × List Access)
  | [], m => pure (some m, [])
  | i :: rest, m => do
    match ← loadPhdr pml4 image (phdrAt image i) m with
    | none => pure (none, phdrReads image i)
    | some m => do
      let (result, later) ← loadPhdrsTraced pml4 image rest m
      pure (result, phdrReads image i ++ (phdrAt image i).copies ++ later)

/-- `loadElfSegments`, with what it touches. -/
def loadElfTraced (image : List Byte) (m : Kernel) : Outcome (Option (Frame × Kernel) × List Access) := do
  let (pml4, m) ← pmmAllocPages m 1
  let m := { m with mem := zeroPage m.mem pml4 }
  if pml4 = 0 then pure (none, [])
  else do
    let (raw, m) ← pmmAllocPages m (rawPages image)
    let m := { m with mem := fillPages m.mem raw (rawPages image) (imageWords image) }
    if raw = 0 then pure (none, [])
    else if elf64Validate image < 0 then pure (none, readsFrom 0 ehdrSize)
    else do
      let (result, later) ← loadPhdrsTraced pml4 image (List.range (ePhnum image)) m
      pure (result.map fun m => (pml4, m), readsFrom 0 ehdrSize ++ later)

section Traces

variable {pml4 : Frame} {image : List Byte} {is : List Nat} {m : Kernel} {accesses : List Access}
    {result : Option Kernel}

theorem loadPhdrs_eq_traced (is : List Nat) (m : Kernel) : loadPhdrs pml4 image (is.map (phdrAt image)) m =
    loadPhdrsTraced pml4 image is m >>= fun traced => pure traced.1 := by
  induction is generalizing m with
  | nil => rfl
  | cons i rest ih =>
    rw [List.map_cons, loadPhdrs, withSome, loadPhdrsTraced]
    cases loadPhdr pml4 image (phdrAt image i) m with
    | ok next =>
      cases next with
      | none => rfl
      | some m₁ =>
        refine (ih m₁).trans ?_
        show _ = (loadPhdrsTraced pml4 image rest m₁ >>= _) >>= _
        cases loadPhdrsTraced pml4 image rest m₁ <;> rfl
    | _ => rfl

theorem loadElfSegments_eq_traced (image : List Byte) (m : Kernel) :
    loadElfSegments image m = loadElfTraced image m >>= fun traced => pure traced.1 := by
  unfold loadElfSegments loadElfTraced
  cases pmmAllocPages m 1 with
  | ok allocated =>
    simp only [Outcome.ok_bind]
    split
    · rfl
    cases pmmAllocPages { allocated.2 with mem := zeroPage allocated.2.mem allocated.1 } (rawPages image) with
    | ok scratch =>
      simp only [Outcome.ok_bind]
      split
      · rfl
      split
      · rfl
      rw [withSome, phdrs, loadPhdrs_eq_traced]
      cases loadPhdrsTraced allocated.1 image (List.range (ePhnum image)) _ with
      | ok looped =>
        obtain ⟨result, later⟩ := looped
        cases result <;> rfl
      | _ => rfl
    | _ => rfl
  | _ => rfl

/-- What one round of the loop touches when its segment gets frames. -/
def roundAccesses (image : List Byte) (i : Nat) : List Access := phdrReads image i ++ (phdrAt image i).copies

/-- The loop touches nothing else, and if it comes to its end it touches all of it. -/
theorem loadPhdrsTraced_accesses (done : loadPhdrsTraced pml4 image is m = .ok (result, accesses)) :
    (∀ a ∈ accesses, ∃ i ∈ is, a ∈ roundAccesses image i) ∧
      (result.isSome → ∀ i ∈ is, ∀ a ∈ roundAccesses image i, a ∈ accesses) := by
  induction is generalizing m accesses with
  | nil =>
    cases done
    exact ⟨fun a none_ => absurd none_ List.not_mem_nil, fun _ i none_ => absurd none_ List.not_mem_nil⟩
  | cons i rest ih =>
    have ⟨next, loaded, done⟩ := Outcome.bind_eq_ok.mp done
    cases next with
    | none =>
      cases done
      exact ⟨fun a member => ⟨i, List.mem_cons_self, List.mem_append_left _ member⟩, fun some_ => nomatch some_⟩
    | some m₁ =>
      have ⟨⟨r, later⟩, looped, done⟩ := Outcome.bind_eq_ok.mp done
      cases done
      have ⟨only, all⟩ := ih looped
      constructor
      · intro a member
        rcases List.mem_append.mp member with here | there
        · exact ⟨i, List.mem_cons_self, here⟩
        · have ⟨j, listed, its⟩ := only a there
          exact ⟨j, List.mem_cons_of_mem i listed, its⟩
      · intro some_ j listed a its
        rcases List.mem_cons.mp listed with same | listed
        · subst same
          exact List.mem_append_left _ its
        · exact List.mem_append_right _ (all some_ j listed a its)

theorem readsFrom_inside {start count : Nat} :
    (∀ a ∈ readsFrom start count, a.Inside image) ↔ (0 < count → start + count ≤ image.length) := by
  constructor
  · intro inside positive
    have last := inside (.read (start + (count - 1))) (List.mem_map.mpr ⟨count - 1, List.mem_range.mpr (by omega), rfl⟩)
    have below : start + (count - 1) < image.length := last
    omega
  · intro fits a member
    have ⟨k, low, same⟩ := List.mem_map.mp member
    have below := List.mem_range.mp low
    have room := fits (by omega)
    subst same
    show start + k < image.length
    omega

theorem writes_inside {off count pages : Nat} :
    (∀ a ∈ (List.range count).map fun k => Access.write (off + k) pages, a.Inside image) ↔
      (0 < count → off + count ≤ pages * pageSize) := by
  constructor
  · intro inside positive
    have last := inside (.write (off + (count - 1)) pages)
      (List.mem_map.mpr ⟨count - 1, List.mem_range.mpr (by omega), rfl⟩)
    have below : off + (count - 1) < pages * pageSize := last
    omega
  · intro fits a member
    have ⟨k, low, same⟩ := List.mem_map.mp member
    have below := List.mem_range.mp low
    have room := fits (by omega)
    subst same
    show off + k < pages * pageSize
    omega

end Traces

/-- The header, the program headers and the bytes of the segments lie in the image, and the
bytes of a segment in its frames. -/
structure ElfBounds (image : List Byte) : Prop where
  header : ehdrSize ≤ image.length
  table : ∀ i < ePhnum image, ePhoff image + i * phdrSize + phdrSize ≤ image.length
  file : ∀ ph ∈ loads image, 0 < ph.pFilesz → ph.pOffset + ph.pFilesz ≤ image.length
  frames : ∀ ph ∈ loads image, 0 < ph.pFilesz → ph.pageOffset + ph.pFilesz ≤ ph.segPages * pageSize

/-- What a load that comes to its end touches is inside just if the fields of the image ask for
nothing else. -/
theorem elfBounds_iff {image : List Byte} : ElfBounds image ↔ (∀ a ∈ readsFrom 0 ehdrSize, a.Inside image) ∧
    ∀ i < ePhnum image, ∀ a ∈ roundAccesses image i, a.Inside image := by
  have load : ∀ i < ePhnum image, (phdrAt image i).pType = ptLoad → phdrAt image i ∈ loads image := fun i low isLoad =>
    mem_loads.mpr ⟨List.mem_map.mpr ⟨i, List.mem_range.mpr low, rfl⟩, isLoad⟩
  constructor
  · intro bounds
    constructor
    · rw [readsFrom_inside]
      intro _
      have header := bounds.header
      omega
    · intro i low a member
      rcases List.mem_append.mp member with head | copy
      · exact readsFrom_inside.mpr (fun _ => bounds.table i low) a head
      · unfold Phdr.copies at copy
        split at copy
        · cases copy
        · rename_i isLoad
          have listed := load i low (not_not.mp isLoad)
          rcases List.mem_append.mp copy with source | target
          · exact readsFrom_inside.mpr (bounds.file _ listed) a source
          · exact writes_inside.mpr (bounds.frames _ listed) a target
  · intro ⟨head, rounds⟩
    have copies : ∀ ph ∈ loads image, ∀ a, (a ∈ readsFrom ph.pOffset ph.pFilesz ∨
        a ∈ (List.range ph.pFilesz).map fun k => Access.write (ph.pageOffset + k) ph.segPages) → a.Inside image := by
      intro ph listed a member
      have ⟨here, isLoad⟩ := mem_loads.mp listed
      have ⟨i, low, same⟩ := List.mem_map.mp here
      subst same
      apply rounds i (List.mem_range.mp low) a
      apply List.mem_append_right
      rw [Phdr.copies, if_neg (not_not.mpr isLoad)]
      exact List.mem_append.mpr member
    refine ⟨?_, fun i low => ?_, fun ph listed => ?_, fun ph listed => ?_⟩
    · have whole := readsFrom_inside.mp head (by decide)
      omega
    · exact readsFrom_inside.mp (fun a member => rounds i low a (List.mem_append_left _ member)) (by decide)
    · exact readsFrom_inside.mp fun a member => copies ph listed a (.inl member)
    · exact writes_inside.mp fun a member => copies ph listed a (.inr member)

/-- No load leaves the image or the frames of a segment if the fields of the image are in bounds;
and a load that comes to its end stays inside only then. -/
theorem elf_accesses_inside_iff {image : List Byte} {m : Kernel} {result : Option (Frame × Kernel)}
    {accesses : List Access} (done : loadElfTraced image m = .ok (result, accesses)) :
    (ElfBounds image → ∀ a ∈ accesses, a.Inside image) ∧
      (result.isSome → ((∀ a ∈ accesses, a.Inside image) ↔ ElfBounds image)) := by
  rw [elfBounds_iff]
  have ⟨⟨root, m₁⟩, _, done⟩ := Outcome.bind_eq_ok.mp done
  dsimp only at done
  split at done
  · cases done
    exact ⟨fun _ a none_ => absurd none_ List.not_mem_nil, fun some_ => nomatch some_⟩
  have ⟨⟨raw, m₂⟩, _, done⟩ := Outcome.bind_eq_ok.mp done
  dsimp only at done
  split at done
  · cases done
    exact ⟨fun _ a none_ => absurd none_ List.not_mem_nil, fun some_ => nomatch some_⟩
  split at done
  · cases done
    exact ⟨fun bounds => bounds.1, fun some_ => nomatch some_⟩
  have ⟨⟨r, later⟩, looped, done⟩ := Outcome.bind_eq_ok.mp done
  cases done
  have ⟨only, all⟩ := loadPhdrsTraced_accesses looped
  have safe : ((∀ a ∈ readsFrom 0 ehdrSize, a.Inside image) ∧
      ∀ i < ePhnum image, ∀ a ∈ roundAccesses image i, a.Inside image) →
      ∀ a ∈ readsFrom 0 ehdrSize ++ later, a.Inside image := by
    intro ⟨head, rounds⟩ a member
    rcases List.mem_append.mp member with here | there
    · exact head a here
    · have ⟨i, low, its⟩ := only a there
      exact rounds i (List.mem_range.mp low) a its
  refine ⟨safe, fun some_ => ⟨fun inside => ?_, safe⟩⟩
  rw [Option.isSome_map] at some_
  refine ⟨fun a member => inside a (List.mem_append_left _ member), fun i low a its => ?_⟩
  exact inside a (List.mem_append_right _ (all some_ i (List.mem_range.mpr low) a its))

theorem loadElfTraced_nothing {image : List Byte} (accepted : elf64Validate image = 0)
    (one : ePhnum image = 1) (other : (phdrAt image 0).pType ≠ ptLoad)
    (ahead : Pmm.Ahead usprocKernel.frames (1 + rawPages image)) :
    ∃ root m, loadElfTraced image usprocKernel = .ok (some (root, m), readsFrom 0 ehdrSize ++ phdrReads image 0) := by
  have ⟨root, p₁, allocated, nonzero, ahead₁⟩ := pmmAllocPages_progress (Nat.le_refl 1) ahead
  have ⟨raw, p₂, scratch, here, _⟩ :=
    pmmAllocPages_progress (m := ⟨zeroPage usprocKernel.mem root, p₁⟩) (rawPages_pos image)
      (show Pmm.Ahead p₁ (rawPages image + 0) from ahead₁)
  refine ⟨root, ⟨fillPages (zeroPage usprocKernel.mem root) raw (rawPages image) (imageWords image), p₂⟩, ?_⟩
  simp only [loadElfTraced, allocated, Outcome.ok_bind, if_neg nonzero, scratch, if_neg here, accepted,
    Int.lt_irrefl, if_false, one, List.range_one, loadPhdrsTraced, loadPhdr, if_pos other, Outcome.pure_eq, Phdr.copies,
    List.append_nil, Option.map_some]

theorem elf_accesses_inside_iff_sample : ∃ root m accesses, loadElfTraced sampleImage usprocKernel =
    .ok (some (root, m), accesses) ∧ ElfBounds sampleImage ∧ ∀ a ∈ accesses, a.Inside sampleImage := by
  obtain ⟨root, m, done⟩ := sampleImage_loads
  rw [loadElfSegments_eq_traced] at done
  obtain ⟨⟨result, accesses⟩, traced, done⟩ := Outcome.bind_eq_ok.mp done
  cases done
  have bounds : ElfBounds sampleImage := by
    refine ⟨by decide +kernel, by decide +kernel, ?_, ?_⟩
    all_goals
      rw [loads, phdrs_sampleImage]
      decide +kernel
  exact ⟨root, m, accesses, traced, bounds, (elf_accesses_inside_iff traced).1 bounds⟩

/-- An ELF header that announces a program header behind the end of the file. -/
def truncatedImage : List Byte := sampleImage.take 64

/-- The loader reads a program header that is not in the image. -/
theorem truncated_image_read_outside : ∃ root m accesses, elf64Validate truncatedImage = 0 ∧
    loadElfTraced truncatedImage usprocKernel = .ok (some (root, m), accesses) ∧
    Access.read 64 ∈ accesses ∧ ¬ (Access.read 64).Inside truncatedImage := by
  have ⟨root, m, done⟩ := loadElfTraced_nothing (show elf64Validate truncatedImage = 0 by decide) (by decide) (by decide)
    (smallPmm_ahead (by decide +kernel))
  refine ⟨root, m, _, by decide, done, ?_, ?_⟩
  · apply List.mem_append_right
    exact List.mem_map.mpr ⟨0, List.mem_range.mpr (by decide), rfl⟩
  · show ¬ 64 < truncatedImage.length
    decide

end CreeperKernel.Exec

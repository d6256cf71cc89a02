import CreeperKernel.PmmAlloc
import CreeperKernel.Transitions

namespace CreeperKernel.Pmm

open Transitions (Run)

/-- The allocator together with the blocks its callers hold. -/
structure Session where
  pmm : State
  outstanding : List Block

inductive Op where
  | alloc
  | allocPages (count : Nat)
  | free (phys : Nat)
  | freePages (phys count : Nat)
  deriving DecidableEq, Repr

/-- What a caller still holds of a block after giving back one frame of it. -/
def Block.without (b : Block) (frame : Nat) : List Block :=
  [⟨b.first, frame - b.first⟩, ⟨frame + 1, b.first + b.count - (frame + 1)⟩].filter
    fun c => 0 < c.count

/-- One call on the allocator. A `pmm_free_pages` names an outstanding block, a
`pmm_free` one frame of an outstanding block (`unmap_4k` returns the frames of a
multi-page block one by one). A call that panics has no successor. -/
inductive Step : Session → Op → Session → Prop where
  | alloc {s : Session} {phys : Nat} {p : State} (done : pmmAlloc s.pmm = .ok (phys, p)) :
      Step s .alloc ⟨p, ⟨phys / pageSize, 1⟩ :: s.outstanding⟩
  | allocPages {s : Session} {count phys : Nat} {p : State} (positive : 1 ≤ count)
      (done : pmmAllocPages s.pmm count = .ok (phys, p)) :
      Step s (.allocPages count) ⟨p, ⟨phys / pageSize, count⟩ :: s.outstanding⟩
  | free {s : Session} {b : Block} {frame : Nat} (held : b ∈ s.outstanding)
      (within : frame ∈ b.frames) :
      Step s (.free (frame * pageSize))
        ⟨pmmFree s.pmm (frame * pageSize), b.without frame ++ s.outstanding.erase b⟩
  | freePages {s : Session} {b : Block} (held : b ∈ s.outstanding) :
      Step s (.freePages (b.first * pageSize) b.count)
        ⟨pmmFreePages s.pmm (b.first * pageSize) b.count, s.outstanding.erase b⟩

def Apart (a b : Block) : Prop := Disjoint a.frames b.frames

variable {b c : Block}

theorem Apart.symm {a : Block} (apart : Apart a b) : Apart b a := Disjoint.symm apart

/-- The frames of a block are in range and marked used. -/
structure Held (p : State) (b : Block) : Prop where
  inside : b.first + b.count ≤ p.totalPages
  used : ∀ frame ∈ b.frames, bitmapTest p.bitmap frame = true

structure Sound (s : Session) : Prop where
  bounded : Bounded s.pmm
  held : ∀ b ∈ s.outstanding, Held s.pmm b
  apart : s.outstanding.Pairwise Apart

variable {p p' : State}

theorem Held.of_took (took : Took p p' b) (held : Held p c) : Held p' c := by
  refine ⟨by rw [took.total]; exact held.inside, fun frame member => ?_⟩
  rw [took.marked, held.used frame member, Bool.true_or]

theorem Held.of_gave (gave : Gave p p' b) (held : Held p c) (apart : Apart b c) : Held p' c := by
  refine ⟨by rw [gave.total]; exact held.inside, fun frame member => ?_⟩
  have absent : frame ∉ b.frames := fun both => Finset.disjoint_left.mp apart both member
  simp [gave.cleared, held.used frame member, absent]

theorem Took.apart (took : Took p p' b) (held : Held p c) : Apart b c := by
  refine Finset.disjoint_left.mpr fun frame mine theirs => ?_
  have free := (mem_freeFrames p frame).mp (took.wasFree mine)
  rw [held.used frame theirs] at free
  cases free.2

variable {s s' : Session}

theorem Sound.took (sound : Sound s) (took : Took s.pmm p b) : Sound ⟨p, b :: s.outstanding⟩ := by
  refine ⟨took.bounded, fun c member => ?_, ?_⟩
  · rcases List.mem_cons.mp member with rfl | member
    · refine ⟨by rw [took.total]; exact took.inside, fun frame inside => ?_⟩
      rw [took.marked]
      simp [inside]
    · exact Held.of_took took (sound.held c member)
  · exact List.pairwise_cons.mpr
      ⟨fun c member => took.apart (sound.held c member), sound.apart⟩

theorem Sound.apart_erase (sound : Sound s) (held : b ∈ s.outstanding) : ∀ c ∈ s.outstanding.erase b, Apart b c := by
  have moved : (b :: s.outstanding.erase b).Pairwise Apart :=
    ((List.perm_cons_erase held).pairwise_iff fun h => h.symm).mp sound.apart
  exact (List.pairwise_cons.mp moved).1

theorem Sound.erase {freed : Block} (sound : Sound s) (held : b ∈ s.outstanding) (part : freed.frames ⊆ b.frames)
    (gave : Gave s.pmm p freed) : Sound ⟨p, s.outstanding.erase b⟩ := by
  refine ⟨gave.bounded, fun c member => ?_, sound.apart.sublist List.erase_sublist⟩
  have apart : Apart freed c :=
    Finset.disjoint_of_subset_left part (sound.apart_erase held c member)
  exact (sound.held c (List.mem_of_mem_erase member)).of_gave gave apart

variable {frame : Nat}

theorem mem_without (within : frame ∈ b.frames) (member : c ∈ b.without frame) :
    c.first + c.count ≤ b.first + b.count ∧ c.frames ⊆ b.frames ∧ frame ∉ c.frames := by
  have bounds := (Block.mem_frames b frame).mp within
  simp only [Block.without, List.mem_filter, List.mem_cons, List.not_mem_nil, or_false,
    decide_eq_true_eq] at member
  obtain ⟨rfl | rfl, nonempty⟩ := member
  · refine ⟨by simp only; omega, fun other inside => ?_, fun inside => ?_⟩ <;>
      simp only [Block.mem_frames] at inside ⊢ <;> omega
  · simp only at nonempty
    refine ⟨by simp only; omega, fun other inside => ?_, fun inside => ?_⟩ <;>
      simp only [Block.mem_frames] at inside ⊢ <;> omega

theorem without_apart (b : Block) (frame : Nat) : (b.without frame).Pairwise Apart := by
  refine List.Pairwise.filter _ (List.pairwise_pair.mpr ?_)
  refine Finset.disjoint_left.mpr fun other low high => ?_
  simp only [Block.mem_frames] at low high
  omega

theorem Sound.split (sound : Sound s) (held : b ∈ s.outstanding) (within : frame ∈ b.frames)
    (gave : Gave s.pmm p ⟨frame, 1⟩) : Sound ⟨p, b.without frame ++ s.outstanding.erase b⟩ := by
  have single : (Block.mk frame 1).frames = {frame} := by
    ext other
    simp only [Block.mem_frames, Finset.mem_singleton]
    omega
  have rest := sound.erase held (by simpa [single] using (Block.mem_frames b frame).mp within) gave
  refine ⟨gave.bounded, fun c member => ?_, ?_⟩
  · rcases List.mem_append.mp member with piece | other
    · obtain ⟨upper, subset, absent⟩ := mem_without within piece
      have whole := sound.held b held
      have kept : Held s.pmm c :=
        ⟨by have := whole.inside; omega, fun g inside => whole.used g (subset inside)⟩
      refine kept.of_gave gave ?_
      rw [Apart, single]
      exact Finset.disjoint_singleton_left.mpr absent
    · exact rest.held c other
  · refine List.pairwise_append.mpr ⟨without_apart b frame, rest.apart, fun c piece d other => ?_⟩
    obtain ⟨_, subset, _⟩ := mem_without within piece
    exact Finset.disjoint_of_subset_left subset (sound.apart_erase held d other)

theorem step_sound {op : Op} (sound : Sound s) (taken : Step s op s') :
    Sound s' ∧ s'.pmm.totalPages = s.pmm.totalPages ∧ Counted s.pmm s'.pmm := by
  cases taken with
  | alloc done =>
    obtain ⟨frame, rfl, took⟩ := pmmAlloc_spec sound.bounded done
    rw [Nat.mul_div_cancel _ (by decide)]
    exact ⟨sound.took took, took.total, took.counted⟩
  | allocPages positive done =>
    obtain ⟨first, rfl, took⟩ := pmmAllocPages_spec sound.bounded positive done
    rw [Nat.mul_div_cancel _ (by decide)]
    exact ⟨sound.took took, took.total, took.counted⟩
  | @free b frame held within =>
    have whole := sound.held b held
    have bounds := (Block.mem_frames b frame).mp within
    have gave := pmmFree_spec sound.bounded (by have := whole.inside; omega)
      (whole.used frame within)
    exact ⟨sound.split held within gave, gave.total, gave.counted⟩
  | @freePages b held =>
    have whole := sound.held b held
    have gave := pmmFreePages_spec sound.bounded whole.inside whole.used
    exact ⟨sound.erase held (Finset.Subset.refl _) gave, gave.total, gave.counted⟩

theorem run_sound {ops : List Op} (run : Run Step s ops s') (sound : Sound s) :
    Sound s' ∧ s'.pmm.totalPages = s.pmm.totalPages ∧ Counted s.pmm s'.pmm :=
  run.invariant (fun t => Sound t ∧ t.pmm.totalPages = s.pmm.totalPages ∧ Counted s.pmm t.pmm)
    (fun _ _ _ inv taken => by
      obtain ⟨next, total, counted⟩ := step_sound inv.1 taken
      exact ⟨next, total.trans inv.2.1, inv.2.2.trans counted⟩) ⟨sound, rfl, rfl⟩

/-- The frames named by an address and a count are all in range and free. -/
def BlockFree (p : State) (phys count : Nat) : Prop :=
  ∃ first, phys = first * pageSize ∧ first + count ≤ p.totalPages ∧
    ∀ frame, first ≤ frame → frame < first + count → bitmapTest p.bitmap frame = false

theorem Took.blockFree (took : Took p p' b) : BlockFree p (b.first * pageSize) b.count := by
  refine ⟨b.first, rfl, took.inside, fun frame lower upper => ?_⟩
  exact ((mem_freeFrames p frame).mp
    (took.wasFree ((Block.mem_frames b frame).mpr ⟨lower, upper⟩))).2

/-- Soundness over whole runs of the allocator, from any consistent state with
nothing outstanding. -/
theorem pmm_runs_sound (p : State) (start : Consistent p) (ops : List Op) (s : Session)
    (run : Run Step ⟨p, []⟩ ops s) :
    s.outstanding.Pairwise (fun a b => Disjoint a.frames b.frames) ∧
    (∀ b ∈ s.outstanding, ∀ frame ∈ b.frames,
      frame < p.totalPages ∧ bitmapTest s.pmm.bitmap frame = true) ∧
    s.pmm.freePages = (freeFrames s.pmm).card ∧
    s.pmm.totalPages = p.totalPages ∧
    s.pmm.bitmapNext ≤ p.totalPages ∧
    (∀ phys p', pmmAlloc s.pmm = .ok (phys, p') → BlockFree s.pmm phys 1) ∧
    (∀ count phys p', 1 ≤ count → pmmAllocPages s.pmm count = .ok (phys, p') →
      BlockFree s.pmm phys count) ∧
    (∀ reason, pmmAlloc s.pmm = .panic reason →
      ∀ bit < p.totalPages, bitmapTest s.pmm.bitmap bit = true) := by
  obtain ⟨sound, total, counted⟩ := run_sound run ⟨start.toBounded, by simp, List.Pairwise.nil⟩
  simp only at total
  have exact' : s.pmm.freePages = (freeFrames s.pmm).card := by
    have few := freeFrames_card_le s.pmm
    have small := sound.bounded.counter
    have bound := start.frames
    simp only [Counted, start.free_eq] at counted
    omega
  refine ⟨sound.apart, ?_, exact', total, ?_, ?_, ?_, ?_⟩
  · intro b member frame inside
    have whole := sound.held b member
    have bounds := (Block.mem_frames b frame).mp inside
    exact ⟨by have := whole.inside; omega, whole.used frame inside⟩
  · rw [← total]
    exact sound.bounded.next_le
  · intro phys p' done
    obtain ⟨frame, rfl, took⟩ := pmmAlloc_spec sound.bounded done
    exact took.blockFree
  · intro count phys p' positive done
    obtain ⟨first, rfl, took⟩ := pmmAllocPages_spec sound.bounded positive done
    exact took.blockFree
  · intro reason failed bit inside
    rw [← total] at inside
    exact pmmAlloc_panic sound.bounded failed bit inside

/-- A machine with eight free frames. -/
def eightFrames : State :=
  { bitmap := fun _ => 0, bitmapBits := 8, bitmapNext := 0, totalPages := 8, freePages := 8 }

theorem eightFrames_consistent : Consistent eightFrames :=
  ⟨⟨rfl, by decide, by decide, by decide⟩, by decide⟩

theorem eightFrames_run : ∃ s, Run Step ⟨eightFrames, []⟩ [.alloc, .allocPages 2, .free 0x2000] s ∧
    s.outstanding = [⟨1, 1⟩, ⟨0, 1⟩] := by
  exact ⟨_, .cons (.alloc rfl) (.cons (.allocPages (by decide) rfl)
    (.single (@Step.free _ ⟨1, 2⟩ 2 (by decide) (by decide)))), by decide⟩

theorem pmm_runs_sound_eightFrames : ∃ s : Session, s.outstanding = [⟨1, 1⟩, ⟨0, 1⟩] ∧
    s.outstanding.Pairwise (fun a b => Disjoint a.frames b.frames) ∧
    s.pmm.freePages = (freeFrames s.pmm).card := by
  obtain ⟨s, run, held⟩ := eightFrames_run
  obtain ⟨apart, _, counted, _⟩ := pmm_runs_sound eightFrames eightFrames_consistent _ s run
  exact ⟨s, held, apart, counted⟩

/-- A frame is free or in a block that a caller holds. -/
def Conserved (s : Session) (frame : Nat) : Prop :=
  frame ∈ freeFrames s.pmm ∨ ∃ b ∈ s.outstanding, frame ∈ b.frames

theorem mem_split (within : frame ∈ b.frames) (other : Nat) :
    other ∈ b.frames ↔ other = frame ∨ ∃ c ∈ b.without frame, other ∈ c.frames := by
  simp only [Block.mem_frames] at within
  simp only [Block.without, List.mem_filter, List.mem_cons, List.not_mem_nil, or_false, decide_eq_true_eq,
    Block.mem_frames]
  constructor
  · intro inside
    rcases Nat.lt_trichotomy other frame with below | same | above
    · exact .inr ⟨_, ⟨.inl rfl, by simp only; omega⟩, by simp only; omega⟩
    · exact .inl same
    · exact .inr ⟨_, ⟨.inr rfl, by simp only; omega⟩, by simp only; omega⟩
  · rintro (rfl | ⟨c, ⟨rfl | rfl, -⟩, inside⟩)
    · exact within
    · simp only at inside
      omega
    · simp only at inside
      omega

theorem mem_outstanding (held : b ∈ s.outstanding) (other : Nat) : (∃ c ∈ s.outstanding, other ∈ c.frames) ↔
    other ∈ b.frames ∨ ∃ c ∈ s.outstanding.erase b, other ∈ c.frames := by
  simp only [(List.perm_cons_erase held).mem_iff, List.mem_cons, exists_eq_or_imp]

theorem Took.conserved (took : Took s.pmm p b) (other : Nat) :
    Conserved ⟨p, b :: s.outstanding⟩ other ↔ Conserved s other := by
  have free := @took.wasFree other
  simp only [Conserved, took.freeFrames, Finset.mem_sdiff, List.mem_cons, exists_eq_or_imp]
  tauto

theorem Gave.conserved (gave : Gave s.pmm p b) (inside : b.first + b.count ≤ s.pmm.totalPages) {rest : List Block}
    {other : Nat} (parts : (∃ c ∈ s.outstanding, other ∈ c.frames) ↔ other ∈ b.frames ∨ ∃ c ∈ rest, other ∈ c.frames) :
    Conserved ⟨p, rest⟩ other ↔ Conserved s other := by
  have bounded : ∀ bit ∈ b.frames, bit < s.pmm.totalPages := by
    intro bit member
    have := (Block.mem_frames b bit).mp member
    omega
  have grown : freeFrames p = freeFrames s.pmm ∪ b.frames := by
    rw [freeFrames, gave.total]
    exact WordBitmap.clearBits_union bounded gave.cleared
  rw [Conserved, Conserved, parts, grown, Finset.mem_union, or_assoc]

theorem step_conserved {op : Op} (sound : Sound s) (taken : Step s op s') (other : Nat) :
    Conserved s' other ↔ Conserved s other := by
  cases taken with
  | alloc done =>
    obtain ⟨frame, rfl, took⟩ := pmmAlloc_spec sound.bounded done
    rw [Nat.mul_div_cancel _ (by decide)]
    exact took.conserved other
  | allocPages positive done =>
    obtain ⟨first, rfl, took⟩ := pmmAllocPages_spec sound.bounded positive done
    rw [Nat.mul_div_cancel _ (by decide)]
    exact took.conserved other
  | @free b frame held within =>
    have whole := sound.held b held
    have bounds := (Block.mem_frames b frame).mp within
    have inside : frame < s.pmm.totalPages := by
      have := whole.inside
      omega
    apply (pmmFree_spec sound.bounded inside (whole.used frame within)).conserved inside
    have single : other ∈ (Block.mk frame 1).frames ↔ other = frame := by
      simp only [Block.mem_frames]
      omega
    rw [mem_outstanding held, mem_split within, single]
    simp only [List.mem_append, or_and_right, exists_or, or_assoc]
  | @freePages b held =>
    have whole := sound.held b held
    exact (pmmFreePages_spec sound.bounded whole.inside whole.used).conserved whole.inside (mem_outstanding held other)

/-- No frame is lost and none is gained: over whole runs, the frames that were free at the start are those that
are free now and those that callers hold, and with nothing outstanding the count is the first one again. -/
theorem pmm_conserves_frames (p : State) (start : Bounded p) (ops : List Op) (s : Session)
    (run : Run Step ⟨p, []⟩ ops s) :
    (∀ frame, frame ∈ freeFrames p ↔ Conserved s frame) ∧
    (s.outstanding = [] → freeFrames s.pmm = freeFrames p ∧ s.pmm.freePages = p.freePages) := by
  have sound : Sound ⟨p, []⟩ := ⟨start, by simp, List.Pairwise.nil⟩
  obtain ⟨after, -, counted⟩ := run_sound run sound
  have kept := (run.invariant (fun s => Sound s ∧ ∀ frame, frame ∈ freeFrames p ↔ Conserved s frame)
    (fun s _ s' good taken => ⟨(step_sound good.1 taken).1, fun frame =>
      (good.2 frame).trans (step_conserved good.1 taken frame).symm⟩) ⟨sound, by simp [Conserved]⟩).2
  refine ⟨kept, fun none_ => ?_⟩
  have same : freeFrames s.pmm = freeFrames p := by
    ext frame
    rw [kept frame, Conserved, none_]
    simp
  have small := after.bounded.counter
  have small' := start.counter
  simp only [Counted, same] at counted
  exact ⟨same, by omega⟩

theorem pmm_conserves_frames_eightFrames : ∃ s : Session, s.outstanding = [⟨1, 1⟩, ⟨0, 1⟩] ∧
    ∀ frame, frame ∈ freeFrames eightFrames ↔ Conserved s frame := by
  obtain ⟨s, run, held⟩ := eightFrames_run
  exact ⟨s, held, (pmm_conserves_frames eightFrames eightFrames_consistent.toBounded _ s run).1⟩

end CreeperKernel.Pmm

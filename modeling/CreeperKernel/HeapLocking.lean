import CreeperKernel.HeapRuns
import CreeperKernel.HeapSizes
import CreeperKernel.Vfs

namespace CreeperKernel.Heap

open Pmm (pageSize)

/-- Four seed pages at the bottom of the kernel's address range. -/
def seeded : State := initAllocator (boot fun _ => 0) (countingUp 0xFFFFA00000000 16)

def entries (m : RegionMap) : List FreeRegion := (List.range m.freeRegionCount).map m.freeRegions

/-- What the items of a list cover together. -/
def covers {α β : Type} (cells : α → Set β) (items : List α) : Set β := {x | ∃ r ∈ items, x ∈ cells r}

/-- The heap together with `heap_lock`. -/
structure Machine where
  heap : State
  held : Bool

/-- `heap_lock_acquire`: a lock that its own caller holds is never released while it spins. -/
def Machine.acquire (s : Machine) : Outcome Machine :=
  if s.held then .hang else .ok { s with held := true }

def Machine.release (s : Machine) : Machine := { s with held := false }

/-- `kmalloc_impl`, with the lock taken and released where the code does. -/
def lockedKmalloc (s : Machine) (size pa va : Nat) : Outcome (Nat × Machine) :=
  if size = 0 then .ok (0, s)
  else if size > 2 ^ 64 - 1 - headerSize then .ok (0, s)
  else do
    let s ← s.acquire
    let (found, map) ← firstRegionOfSizeOrMore s.heap.map (fullSize size)
    let s := { s with heap := { s.heap with map } }
    match usableRegion map found with
    | some i => do
      let (ptr, heap) ← carve s.heap i size
      pure (ptr, { s with heap }.release)
    | none =>
      let pages := pagesNeeded size
      let s := { s with heap := { s.heap with bytes := zeroFrames s.heap.bytes pa pages } }
      if pa = 0 then .ok (0, s.release)
      else if va = 0 then .ok (0, s.release)
      else do
        let s := { s with heap := { s.heap with
          table := mapPages s.heap.table va pa pages
          map := forceFreeNolock s.heap.map va (pages * pageSize) } }
        let (found, map) ← firstRegionOfSizeOrMore s.heap.map (fullSize size)
        let s := { s with heap := { s.heap with map } }
        match usableRegion map found with
        | none => pure (0, s.release)
        | some i => do
          let (ptr, heap) ← carve s.heap i size
          pure (ptr, { s with heap }.release)

def lockedKfree (s : Machine) (ptr : Nat) : Outcome Machine :=
  if ptr = 0 then .ok s
  else do
    let s ← s.acquire
    let stored ← orFault (s.heap.space.loadWord (sub64 ptr headerSize))
    let size := (stored + headerSize) % 2 ^ 64
    if size = 0 then pure s.release
    else
      match placeFree s.heap.map.freeRegions ⟨sub64 ptr headerSize, alignUp8 size⟩ with
      | none => pure s.release
      | some regs => do
        let regs ← mergeRegions (sortRegions regs) (List.range (maxFreeRegions - 1))
        pure { s with heap := { s.heap with map := ⟨regs, recount regs⟩ } }.release

def copyBytes (h : State) (dst src : Nat) : Nat → Outcome State
  | 0 => .ok h
  | n + 1 => do
    let h ← copyBytes h dst src n
    let byte ← orFault (h.space.load ((src + n) % 2 ^ 64))
    h.storeByte ((dst + n) % 2 ^ 64) byte

/-- `krealloc_impl` calls `kmalloc` and `kfree` with the lock held, and two of its exits do not release it. -/
def lockedKrealloc (s : Machine) (ptr size pa va : Nat) : Outcome (Nat × Machine) := do
  let s ← s.acquire
  if size = 0 then do
    let s ← lockedKfree s ptr
    pure (0, s.release)
  else if ptr = 0 then lockedKmalloc s size pa va
  else do
    let (newPtr, s) ← lockedKmalloc s size pa va
    if newPtr = 0 then pure (0, s.release)
    else do
      let oldLen ← orFault (s.heap.space.loadWord (sub64 ptr headerSize))
      let heap ← copyBytes s.heap newPtr ptr (if size < oldLen then size else oldLen)
      let s ← lockedKfree { s with heap } ptr
      pure (newPtr, s)

def lockedForceFree (s : Machine) (address size : Nat) : Outcome Machine := do
  let s ← s.acquire
  pure { s with heap := { s.heap with map := forceFreeNolock s.heap.map address size } }.release

section ForceAlloc

/-- One round of the first loop of `force_alloc_nolock`: the parts of a page in front of and behind the range. -/
def freePageRests (address finish pageAddr : Nat) (m : RegionMap) : RegionMap :=
  let pageEnd := (pageAddr + pageSize) % 2 ^ 64
  let m := if pageAddr < address then forceFreeNolock m pageAddr (sub64 address pageAddr) else m
  if finish < pageEnd then forceFreeNolock m finish (sub64 pageEnd finish) else m

/-- `for (page_addr = address & ~0xFFF; page_addr < end; page_addr += 0x1000)`, for so many rounds. -/
def freePagesRests (address finish : Nat) : Nat → Nat → RegionMap → Outcome RegionMap
  | 0, _, _ => .hang
  | fuel + 1, pageAddr, m =>
    if pageAddr < finish then
      freePagesRests address finish fuel ((pageAddr + pageSize) % 2 ^ 64) (freePageRests address finish pageAddr m)
    else .ok m

/-- `for (j = count; j > i + 1; j--) free_regions[j] = free_regions[j - 1];` -/
def shiftUp (regs : Regions) (i count : Nat) : Regions := fun k =>
  if i + 1 < k ∧ k ≤ count then regs (k - 1) else regs k

/-- The second loop of `force_alloc_nolock`, from slot `i` on: what lies between `address` and `lockEnd` is cut out of
the regions. -/
def cutRange (address lockEnd : Nat) : Nat → Nat → RegionMap → Outcome RegionMap
  | 0, _, _ => .hang
  | fuel + 1, i, m =>
    if i < m.freeRegionCount then
      let region := m.freeRegions i
      let regionEnd := region.stop
      if lockEnd ≤ region.baseAddr ∨ regionEnd ≤ address then cutRange address lockEnd fuel (i + 1) m
      else if address ≤ region.baseAddr ∧ regionEnd ≤ lockEnd then
        cutRange address lockEnd fuel i ⟨shiftDown m.freeRegions i m.freeRegionCount, m.freeRegionCount - 1⟩
      else if address ≤ region.baseAddr then
        cutRange address lockEnd fuel (i + 1)
          ⟨Function.update m.freeRegions i ⟨lockEnd, sub64 regionEnd lockEnd⟩, m.freeRegionCount⟩
      else if regionEnd ≤ lockEnd then
        cutRange address lockEnd fuel (i + 1)
          ⟨Function.update m.freeRegions i ⟨region.baseAddr, sub64 address region.baseAddr⟩, m.freeRegionCount⟩
      else
        let regs := Function.update m.freeRegions i ⟨region.baseAddr, sub64 address region.baseAddr⟩
        cutRange address lockEnd fuel (i + 1)
          (if m.freeRegionCount < maxFreeRegions then
            ⟨Function.update (shiftUp regs i m.freeRegionCount) (i + 1) ⟨lockEnd, sub64 regionEnd lockEnd⟩,
              m.freeRegionCount + 1⟩
          else ⟨regs, m.freeRegionCount⟩)
    else .ok m

/-- More rounds than there are pages. -/
def pageRounds : Nat := 2 ^ 52 + 1

def forceAllocNolock (m : RegionMap) (address size : Nat) : Outcome RegionMap := do
  let finish := (address + size) % 2 ^ 64
  let m ← freePagesRests address finish pageRounds (address / pageSize * pageSize) m
  cutRange address finish (3 * maxFreeRegions + 1) 0 m

def lockedForceAlloc (s : Machine) (address size : Nat) : Outcome Machine := do
  let s ← s.acquire
  let map ← forceAllocNolock s.heap.map address size
  pure { s with heap := { s.heap with map } }.release

end ForceAlloc

def lockedPrint (s : Machine) : Outcome (List (Nat × FreeRegion) × Machine) := do
  let s ← s.acquire
  let lines := ((List.range maxFreeRegions).filter fun i => 0 < (s.heap.map.freeRegions i).length).map
    fun i => (i, s.heap.map.freeRegions i)
  pure (lines, s.release)

section Returning

variable {α β : Type}

theorem orFault_returns (access : Option α) : orFault access ≠ .hang := by
  cases access with
  | none => exact fun hang => (nomatch hang)
  | some value => exact fun hang => (nomatch hang)

variable {m : RegionMap}

theorem firstRegionScan_returns (count : m.freeRegionCount ≤ maxFreeRegions) (requested : Nat) (indices : List Nat) :
    ∃ found m', firstRegionScan m requested indices = .ok (found, m') ∧ m'.freeRegionCount = m.freeRegionCount := by
  induction indices with
  | nil => exact ⟨none, m, rfl, rfl⟩
  | cons i indices ih =>
    unfold firstRegionScan
    split
    · exact ih
    · obtain ⟨c, followed⟩ := chain_returns count (m.freeRegions i).baseAddr
        ⟨(m.freeRegions i).length, fun k => decide (k = i), false⟩
      rw [followed, Outcome.ok_bind]
      split
      · exact ⟨some i, _, rfl, rfl⟩
      · exact ih

theorem carve_returns (h : State) (i size : Nat) : carve h i size ≠ .hang := by
  unfold carve
  apply Outcome.bind_ne_hang
  · unfold State.storeWord
    apply Outcome.bind_ne_hang (orFault_returns _)
    exact fun _ hang => (nomatch hang)
  · exact fun _ hang => (nomatch hang)

theorem absorbNeighbours_count (slot fuel i j : Nat) (m : RegionMap) :
    (absorbNeighbours slot fuel i j m).freeRegionCount ≤ m.freeRegionCount := by
  induction fuel generalizing i j m with
  | zero => exact Nat.le_refl _
  | succ fuel ih =>
    unfold absorbNeighbours
    split
    · split
      · exact ih i (j + 1) m
      · dsimp only
        split
        · exact (ih _ _ _).trans (Nat.sub_le _ _)
        · exact ih i (j + 1) m
    · exact Nat.le_refl _

theorem forceFreeNolock_count (count : m.freeRegionCount ≤ maxFreeRegions) (address size : Nat) :
    (forceFreeNolock m address size).freeRegionCount ≤ maxFreeRegions := by
  have scan : ∀ newStart newEnd indices, (forceFreeScan newStart newEnd m indices).freeRegionCount ≤ maxFreeRegions := by
    intro newStart newEnd indices
    induction indices with
    | nil =>
      unfold forceFreeScan
      split
      · assumption
      · exact count
    | cons i indices ih =>
      unfold forceFreeScan
      dsimp only
      split
      · exact (absorbNeighbours_count ..).trans count
      · exact ih
  unfold forceFreeNolock
  dsimp only
  split
  · exact count
  · exact scan _ _ _

theorem mergeInto_returns {i fuel j : Nat} {regs : Regions} (behind : i < j)
    (enough : maxFreeRegions - j + (usedFrom regs j).card < fuel) : ∃ regs', mergeInto i fuel j regs = .ok regs' := by
  induction fuel generalizing j regs with
  | zero => omega
  | succ fuel ih =>
    have fewer := usedFrom_succ_le regs j
    unfold mergeInto
    split
    · rename_i inside
      split
      · exact ih (by omega) (by omega)
      · rename_i used
        split
        · have shrunk := usedFrom_drop_lt ⟨(regs i).baseAddr, ((regs i).length + (regs j).length) % 2 ^ 64⟩ behind inside used
          exact ih behind (by omega)
        · exact ih (by omega) (by omega)
    · exact ⟨regs, rfl⟩

theorem mergeRegions_returns (regs : Regions) (indices : List Nat) : ∃ regs', mergeRegions regs indices = .ok regs' := by
  induction indices generalizing regs with
  | nil => exact ⟨regs, rfl⟩
  | cons i indices ih =>
    unfold mergeRegions
    split
    · exact ih regs
    · obtain ⟨middle, merged⟩ := mergeInto_returns (Nat.lt_succ_self i) (usedFrom_bound regs i)
      rw [merged, Outcome.ok_bind]
      exact ih middle

theorem returnBlock_returns (m : RegionMap) (block : FreeRegion) : ∃ m', returnBlock m block = .ok m' := by
  unfold returnBlock
  split
  · exact ⟨m, rfl⟩
  · rename_i regs _
    obtain ⟨merged, done⟩ := mergeRegions_returns (sortRegions regs) (List.range (maxFreeRegions - 1))
    exact ⟨_, by rw [done]; rfl⟩

variable {h : State}

theorem expandAndCarve_returns (count : h.map.freeRegionCount ≤ maxFreeRegions) (size pa va : Nat) :
    expandAndCarve h size pa va ≠ .hang := by
  unfold expandAndCarve
  dsimp only
  split
  · exact fun hang => (nomatch hang)
  · split
    · exact fun hang => (nomatch hang)
    · obtain ⟨found, m', searched, _⟩ := firstRegionScan_returns
        (forceFreeNolock_count count va (pagesNeeded size * pageSize)) (fullSize (fullSize size)) _
      rw [firstRegionOfSizeOrMore, searched, Outcome.ok_bind]
      dsimp only
      split
      · exact carve_returns _ _ _
      · exact fun hang => (nomatch hang)

theorem kmallocImpl_returns (count : h.map.freeRegionCount ≤ maxFreeRegions) (size pa va : Nat) :
    kmallocImpl h size pa va ≠ .hang := by
  unfold kmallocImpl
  split
  · exact fun hang => (nomatch hang)
  · split
    · exact fun hang => (nomatch hang)
    · obtain ⟨found, m', searched, same⟩ := firstRegionScan_returns count (fullSize (fullSize size)) _
      rw [firstRegionOfSizeOrMore, searched, Outcome.ok_bind]
      dsimp only
      split
      · exact carve_returns _ _ _
      · exact expandAndCarve_returns (same.trans_le count) size pa va

theorem kfreeImpl_returns (h : State) (ptr : Nat) : kfreeImpl h ptr ≠ .hang := by
  unfold kfreeImpl
  split
  · exact fun hang => (nomatch hang)
  · apply Outcome.bind_ne_hang (orFault_returns _)
    intro stored
    dsimp only
    split
    · exact fun hang => (nomatch hang)
    · obtain ⟨m', returned⟩ := returnBlock_returns h.map
        ⟨sub64 ptr headerSize, alignUp8 ((stored + headerSize) % 2 ^ 64)⟩
      rw [returned]
      exact fun hang => (nomatch hang)

end Returning

section ForceAllocReturns

variable {finish address : Nat}

/-- Rounds of the page loop that do not wrap around come to an end. -/
theorem freePagesRests_returns (low : finish ≤ 2 ^ 64 - pageSize) (rounds pageAddr : Nat) (m : RegionMap)
    (enough : finish ≤ pageAddr + rounds * pageSize) (count : m.freeRegionCount ≤ maxFreeRegions) :
    ∃ m', freePagesRests address finish (rounds + 1) pageAddr m = .ok m' ∧ m'.freeRegionCount ≤ maxFreeRegions := by
  induction rounds generalizing pageAddr m with
  | zero =>
    have past : ¬pageAddr < finish := by omega
    exact ⟨m, by rw [freePagesRests, if_neg past], count⟩
  | succ rounds ih =>
    rw [freePagesRests]
    split
    · rename_i inside
      have next : (pageAddr + pageSize) % 2 ^ 64 = pageAddr + pageSize := by
        apply Nat.mod_eq_of_lt
        have page : pageSize = 4096 := rfl
        omega
      rw [next]
      apply ih
      · rw [Nat.succ_mul] at enough
        omega
      · unfold freePageRests
        dsimp only
        have front : (if pageAddr < address then forceFreeNolock m pageAddr (sub64 address pageAddr) else m).freeRegionCount ≤
            maxFreeRegions := by
          split
          · exact forceFreeNolock_count count _ _
          · exact count
        split
        · exact forceFreeNolock_count front _ _
        · exact front
    · exact ⟨m, rfl, count⟩

/-- A range that ends in the last page is never left: `page_addr` goes from the last page to address 0. -/
theorem freePagesRests_endless (high : 2 ^ 64 - pageSize < finish) (fuel page : Nat) (m : RegionMap)
    (inside : page * pageSize < 2 ^ 64) : freePagesRests address finish fuel (page * pageSize) m = .hang := by
  induction fuel generalizing page m with
  | zero => rfl
  | succ fuel ih =>
    have size : pageSize = 4096 := rfl
    rw [size] at inside high
    have before : page * pageSize < finish := by
      rw [size]
      omega
    have wrap : (page * pageSize + pageSize) % 2 ^ 64 = (page + 1) % 2 ^ 52 * pageSize := by
      rw [size]
      omega
    rw [freePagesRests, if_pos before, wrap]
    apply ih
    calc (page + 1) % 2 ^ 52 * pageSize < 2 ^ 52 * pageSize :=
          Nat.mul_lt_mul_of_pos_right (Nat.mod_lt _ (by decide)) (by decide)
      _ = 2 ^ 64 := by decide

variable {m : RegionMap}

theorem cutRange_returns {lockEnd fuel i : Nat} (count : m.freeRegionCount ≤ maxFreeRegions)
    (enough : 2 * (maxFreeRegions - i) + m.freeRegionCount < fuel) : cutRange address lockEnd fuel i m ≠ .hang := by
  induction fuel generalizing i m with
  | zero => omega
  | succ fuel ih =>
    unfold cutRange
    split
    · rename_i inside
      have next : 2 * (maxFreeRegions - (i + 1)) + m.freeRegionCount + 1 < fuel := by omega
      dsimp only
      split
      · exact ih count (by omega)
      · split
        -- the region goes and the next one comes into its slot
        · exact ih ((Nat.sub_le _ _).trans count) (by dsimp only; omega)
        · split
          · exact ih count (by dsimp only; omega)
          · split
            · exact ih count (by dsimp only; omega)
            · split
              · exact ih (by dsimp only; omega) (by dsimp only; omega)
              · exact ih count (by dsimp only; omega)
    · exact fun hang => (nomatch hang)

/-- `force_alloc_nolock` comes to an end unless the range ends in the last page. -/
theorem forceAllocNolock_hang_iff (count : m.freeRegionCount ≤ maxFreeRegions) (size : Nat) (word : address < 2 ^ 64)
    : forceAllocNolock m address size = .hang ↔ 2 ^ 64 - pageSize < (address + size) % 2 ^ 64 := by
  have page : pageSize = 4096 := rfl
  constructor
  · intro hang
    by_contra low
    have enough : (address + size) % 2 ^ 64 ≤ address / pageSize * pageSize + 2 ^ 52 * pageSize := by
      rw [page]
      omega
    obtain ⟨m', freed, count'⟩ := freePagesRests_returns (Nat.le_of_not_lt low) (2 ^ 52) _ m enough count
    rw [forceAllocNolock, pageRounds, freed, Outcome.ok_bind] at hang
    exact cutRange_returns count' (by omega) hang
  · intro high
    have start : address / pageSize * pageSize < 2 ^ 64 := (Nat.div_mul_le_self _ _).trans_lt word
    rw [forceAllocNolock, freePagesRests_endless high _ _ m start]
    rfl

end ForceAllocReturns

section Locked

/-- Entered with the lock free, the routine with the lock does what the routine without it does and releases it. -/
theorem lockedKmalloc_eq (h : State) (size pa va : Nat) : lockedKmalloc ⟨h, false⟩ size pa va =
      kmallocImpl h size pa va >>= fun result => .ok (result.1, ⟨result.2, false⟩) := by
  unfold lockedKmalloc kmallocImpl
  split
  · rfl
  · split
    · rfl
    · simp only [Machine.acquire, Bool.false_eq_true, if_false, Outcome.ok_bind, Outcome.bind_assoc]
      congr 1
      funext searched
      cases usableRegion searched.2 searched.1 with
      | some i => rfl
      | none =>
        unfold expandAndCarve
        dsimp only
        split
        · rfl
        · split
          · rfl
          · rw [Outcome.bind_assoc]
            congr 1
            funext again
            cases usableRegion again.2 again.1 with
            | some i => rfl
            | none => rfl

theorem lockedKfree_eq (h : State) (ptr : Nat) :
    lockedKfree ⟨h, false⟩ ptr = kfreeImpl h ptr >>= fun heap => .ok ⟨heap, false⟩ := by
  unfold lockedKfree kfreeImpl
  split
  · rfl
  · simp only [Machine.acquire, Bool.false_eq_true, if_false, Outcome.ok_bind, Outcome.bind_assoc]
    congr 1
    funext stored
    split
    · rfl
    · unfold returnBlock
      cases placeFree h.map.freeRegions ⟨sub64 ptr headerSize, alignUp8 ((stored + headerSize) % 2 ^ 64)⟩ with
      | none => rfl
      | some regs =>
        simp only [Outcome.bind_assoc, Outcome.pure_eq, Outcome.ok_bind]
        rfl

/-- A size that `kmalloc_impl` refuses before it takes the lock. -/
def Refused (size : Nat) : Prop := size = 0 ∨ 2 ^ 64 - 1 - headerSize < size

instance (size : Nat) : Decidable (Refused size) := inferInstanceAs (Decidable (_ ∨ _))

variable {size : Nat}

theorem lockedKmalloc_refused (s : Machine) (refused : Refused size) (pa va : Nat) :
    lockedKmalloc s size pa va = .ok (0, s) := by
  unfold lockedKmalloc
  rcases refused with zero | huge
  · rw [if_pos zero]
  · rw [if_pos huge, ite_self]

theorem lockedKmalloc_held (h : State) (admitted : ¬Refused size) (pa va : Nat) :
    lockedKmalloc ⟨h, true⟩ size pa va = .hang := by
  unfold lockedKmalloc
  rw [if_neg fun zero => admitted (.inl zero), if_neg fun huge => admitted (.inr huge)]
  rfl

theorem lockedKfree_held (h : State) {ptr : Nat} (set : ptr ≠ 0) : lockedKfree ⟨h, true⟩ ptr = .hang := by
  unfold lockedKfree
  rw [if_neg set]
  rfl

/-- What `krealloc_impl` does on each of its paths. It never returns a new block. -/
theorem lockedKrealloc_eq (h : State) (ptr size pa va : Nat) : lockedKrealloc ⟨h, false⟩ ptr size pa va =
      if Refused size then
        if ptr = 0 then .ok (0, ⟨h, decide (size ≠ 0)⟩) else if size = 0 then .hang else .ok (0, ⟨h, false⟩) else .hang := by
  have entered : Machine.acquire ⟨h, false⟩ = .ok ⟨h, true⟩ := rfl
  unfold lockedKrealloc
  rw [entered, Outcome.ok_bind]
  by_cases zero : size = 0
  · rw [if_pos zero, if_pos (show Refused size from .inl zero)]
    by_cases null : ptr = 0
    · rw [if_pos null, lockedKfree, if_pos null, Outcome.ok_bind, zero]
      rfl
    · rw [if_neg null, if_pos zero, lockedKfree_held h null]
      rfl
  · rw [if_neg zero]
    by_cases refused : Refused size
    · rw [if_pos refused, lockedKmalloc_refused _ refused, if_neg zero, Outcome.ok_bind]
      by_cases null : ptr = 0
      · rw [if_pos null, if_pos null, decide_eq_true zero]
      · rw [if_neg null, if_neg null]
        rfl
    · rw [if_neg refused, lockedKmalloc_held h refused]
      split
      · rfl
      · rfl

end Locked

section Growing

/-- `struct ramfile_info` -/
structure RamfileInfo where
  start : Nat
  size : Nat
  fixedSize : Bool

def writeBytes (h : State) (dst : Nat) : List (BitVec 8) → Outcome State
  | [] => .ok h
  | byte :: rest => do
    let h ← h.storeByte (dst % 2 ^ 64) byte
    writeBytes h (dst + 1) rest

/-- `ramfile_write`; the result, the new offset, the file and the heap. -/
def ramfileWrite (s : Machine) (info : RamfileInfo) (buf : List (BitVec 8)) (pos pa va : Nat) :
    Outcome (Int × Nat × RamfileInfo × Machine) :=
  let count := buf.length
  if info.fixedSize then
    if info.start = 0 then .ok (-Vfs.eInval, pos, info, s)
    else if info.size < pos then .ok (-Vfs.eInval, pos, info, s)
    else do
      let available := info.size - pos
      let toWrite := if count < available then count else available
      let heap ← writeBytes s.heap (info.start + pos) (buf.take toWrite)
      pure (toWrite, pos + toWrite, info, { s with heap })
  else if count = 0 then .ok (0, pos, info, s)
  else if (pos + count) % 2 ^ 64 < pos then .ok (-Vfs.eInval, pos, info, s)
  else
    let newEnd := (pos + count) % 2 ^ 64
    if newEnd ≤ info.size then do
      let heap ← writeBytes s.heap (info.start + pos) buf
      pure (count, pos + count, info, { s with heap })
    else do
      let (newMem, s) ← lockedKrealloc s info.start newEnd pa va
      if newMem = 0 then pure (-Vfs.eNomem, pos, info, s)
      else do
        let heap ← writeBytes s.heap (newMem + info.size) (List.replicate (pos - info.size) 0)
        let heap ← writeBytes heap (newMem + pos) buf
        pure (count, pos + count, { info with start := newMem, size := newEnd }, { s with heap })

/-- A write behind the end of a RAM file never succeeds: of the sizes a file can have, it hangs on all that
`kmalloc_impl` accepts, and the others leave the file as it is. -/
theorem ramfileWrite_never_grows (h : State) {info : RamfileInfo} {buf : List (BitVec 8)} {pos : Nat} (pa va : Nat)
    (resizable : info.fixedSize = false) (representable : pos + buf.length < 2 ^ 64) (behind : info.size < pos + buf.length)
    (some_bytes : buf.length ≠ 0) :
    ramfileWrite ⟨h, false⟩ info buf pos pa va = .hang ∨
      ∃ s, ramfileWrite ⟨h, false⟩ info buf pos pa va = .ok (-Vfs.eNomem, pos, info, s) := by
  have exact' : (pos + buf.length) % 2 ^ 64 = pos + buf.length := Nat.mod_eq_of_lt representable
  have reached : ¬pos + buf.length < pos := by omega
  have positive : pos + buf.length ≠ 0 := by omega
  unfold ramfileWrite
  simp only [resizable, Bool.false_eq_true, if_false, some_bytes, exact', reached, positive, Nat.not_le.mpr behind, lockedKrealloc_eq]
  by_cases refused : Refused (pos + buf.length)
  · right
    rw [if_pos refused]
    split
    · exact ⟨_, rfl⟩
    · exact ⟨_, rfl⟩
  · left
    rw [if_neg refused]
    rfl

theorem ramfileWrite_never_grows_empty :
    ramfileWrite ⟨boot fun _ => 0, false⟩ ⟨0, 0, false⟩ [1] 0 0 0 = .hang ∨
      ∃ s, ramfileWrite ⟨boot fun _ => 0, false⟩ ⟨0, 0, false⟩ [1] 0 0 0 = .ok (-Vfs.eNomem, 0, ⟨0, 0, false⟩, s) :=
  ramfileWrite_never_grows _ 0 0 rfl (by decide) (by decide) (by decide)

end Growing

/-- A call of one of the six routines that take the lock. `pa` and `va` are what the page allocators answer. -/
inductive HeapCall where
  | kmalloc (size : UInt64) (pa va : Nat)
  | kfree (ptr : UInt64)
  | krealloc (ptr size : UInt64) (pa va : Nat)
  | forceAlloc (address size : UInt64)
  | forceFree (address size : UInt64)
  | printFreeRegions

/-- The returned pointer, 0 where there is none, and what is left. -/
def HeapCall.run (s : Machine) : HeapCall → Outcome (Nat × Machine)
  | .kmalloc size pa va => lockedKmalloc s size.toNat pa va
  | .kfree ptr => lockedKfree s ptr.toNat >>= fun s => pure (0, s)
  | .krealloc ptr size pa va => lockedKrealloc s ptr.toNat size.toNat pa va
  | .forceAlloc address size => lockedForceAlloc s address.toNat size.toNat >>= fun s => pure (0, s)
  | .forceFree address size => lockedForceFree s address.toNat size.toNat >>= fun s => pure (0, s)
  | .printFreeRegions => lockedPrint s >>= fun printed => pure (0, printed.2)

/-- The block at `p` has moved to `q`: its bytes are there, and its old place is free. -/
structure Moved (h after : State) (p q size : Nat) : Prop where
  bytes : ∀ oldLen, h.space.loadWord (sub64 p headerSize) = some oldLen → ∀ k, k < min oldLen size →
    after.space.load ((q + k) % 2 ^ 64) = h.space.load ((p + k) % 2 ^ 64)
  freed : ∀ oldLen, h.space.loadWord (sub64 p headerSize) = some oldLen →
    cells ⟨sub64 p headerSize, fullSize oldLen⟩ ⊆ covers cells (entries after.map)

/-- The call does not wait for the lock it holds itself, returns with the lock free, and a reallocation moves the block. -/
structure Disciplined (h : State) (call : HeapCall) : Prop where
  returns : call.run ⟨h, false⟩ ≠ .hang
  released : ∀ q s, call.run ⟨h, false⟩ = .ok (q, s) → s.held = false
  moved : ∀ p size pa va, call = .krealloc p size pa va → size ≠ 0 →
    ∀ q s, call.run ⟨h, false⟩ = .ok (q, s) → q ≠ 0 → Moved h s.heap p.toNat q size.toNat

/-- `krealloc_impl` with nothing to free and nothing to allocate, or with a size that cannot be had; and a range that
does not end in the last page of the address space. -/
def HeapCall.Harmless : HeapCall → Prop
  | .krealloc ptr size _ _ => (ptr = 0 ∧ size = 0) ∨ (ptr ≠ 0 ∧ 2 ^ 64 - 1 - headerSize < size.toNat)
  | .forceAlloc address size => (address.toNat + size.toNat) % 2 ^ 64 ≤ 2 ^ 64 - pageSize
  | _ => True

variable {call : HeapCall} {h : State}

theorem Disciplined.of_result {α : Type} {body : Outcome α} {pointer : α → Nat} {heap : α → State}
    (result : call.run ⟨h, false⟩ = body >>= fun value => .ok (pointer value, ⟨heap value, false⟩))
    (finished : body ≠ .hang) (other : ∀ p size pa va, call ≠ .krealloc p size pa va) : Disciplined h call where
  returns := by
    rw [result]
    exact Outcome.bind_ne_hang finished fun _ hang => (nomatch hang)
  released := by
    intro q s returned
    rw [result] at returned
    obtain ⟨value, _, same⟩ := Outcome.bind_eq_ok.mp returned
    cases same
    rfl
  moved := fun p size pa va is_krealloc => absurd is_krealloc (other p size pa va)

/-- Every call but the reallocations keeps the discipline, and `force_alloc` if it ends. -/
theorem disciplined_other_iff (count : h.map.freeRegionCount ≤ maxFreeRegions)
    (other : ∀ p size pa va, call ≠ .krealloc p size pa va) : Disciplined h call ↔ call.Harmless := by
  cases call with
  | kmalloc size pa va =>
    have result : HeapCall.run ⟨h, false⟩ (.kmalloc size pa va) =
        kmallocImpl h size.toNat pa va >>= fun result => .ok (result.1, ⟨result.2, false⟩) := lockedKmalloc_eq ..
    exact ⟨fun _ => trivial, fun _ => .of_result result (kmallocImpl_returns count _ _ _) other⟩
  | kfree ptr =>
    have result : HeapCall.run ⟨h, false⟩ (.kfree ptr) =
        kfreeImpl h ptr.toNat >>= fun heap => .ok (0, ⟨heap, false⟩) := by
      rw [HeapCall.run, lockedKfree_eq, Outcome.bind_assoc]
      rfl
    exact ⟨fun _ => trivial, fun _ => .of_result result (kfreeImpl_returns h _) other⟩
  | krealloc ptr size pa va => exact absurd rfl (other ptr size pa va)
  | forceAlloc address size =>
    have result : HeapCall.run ⟨h, false⟩ (.forceAlloc address size) =
        forceAllocNolock h.map address.toNat size.toNat >>= fun map => .ok (0, ⟨{ h with map }, false⟩) := by
      change (lockedForceAlloc ⟨h, false⟩ _ _ >>= fun s => pure (0, s)) = _
      simp only [lockedForceAlloc, Machine.acquire, Bool.false_eq_true, if_false, Outcome.ok_bind, Outcome.bind_assoc]
      rfl
    have ends := forceAllocNolock_hang_iff count size.toNat address.toNat_lt
    constructor
    · intro kept
      apply Nat.le_of_not_lt
      intro high
      apply kept.returns
      rw [result, ends.mpr high]
      rfl
    · intro low
      exact .of_result result (fun hang => Nat.not_lt.mpr low (ends.mp hang)) other
  | forceFree address size =>
    have result : HeapCall.run ⟨h, false⟩ (.forceFree address size) =
        .ok (forceFreeNolock h.map address.toNat size.toNat) >>= fun map => .ok (0, ⟨{ h with map }, false⟩) := rfl
    exact ⟨fun _ => trivial, fun _ => .of_result result (fun hang => (nomatch hang)) other⟩
  | printFreeRegions =>
    have result : HeapCall.run ⟨h, false⟩ .printFreeRegions = .ok h >>= fun heap => .ok (0, ⟨heap, false⟩) := rfl
    exact ⟨fun _ => trivial, fun _ => .of_result result (fun hang => (nomatch hang)) other⟩

/-- `krealloc_impl` keeps the discipline only where it does nothing. -/
theorem disciplined_krealloc_iff (h : State) (ptr size : UInt64) (pa va : Nat) :
    Disciplined h (.krealloc ptr size pa va) ↔ (HeapCall.krealloc ptr size pa va).Harmless := by
  have result : HeapCall.run ⟨h, false⟩ (.krealloc ptr size pa va) = _ := lockedKrealloc_eq h ptr.toNat size.toNat pa va
  have null : ptr.toNat = 0 ↔ ptr = 0 := UInt64.toNat_inj (b := 0)
  have none' : size.toNat = 0 ↔ size = 0 := UInt64.toNat_inj (b := 0)
  constructor
  · intro kept
    have returns := kept.returns
    have released := kept.released
    rw [result] at returns released
    by_cases refused : Refused size.toNat
    · rw [if_pos refused] at returns released
      by_cases p : ptr.toNat = 0
      · rw [if_pos p] at released
        have zero := released 0 _ rfl
        exact .inl ⟨null.mp p, none'.mp (by simpa using zero)⟩
      · rw [if_neg p] at returns
        have positive : size.toNat ≠ 0 := fun zero => returns (if_pos zero)
        exact .inr ⟨fun zero => p (null.mpr zero), refused.resolve_left positive⟩
    · rw [if_neg refused] at returns
      exact absurd rfl returns
  · intro harmless
    have nothing : HeapCall.run ⟨h, false⟩ (.krealloc ptr size pa va) = .ok (0, ⟨h, false⟩) := by
      rw [result]
      rcases harmless with ⟨p, zero⟩ | ⟨p, huge⟩
      · rw [if_pos (show Refused size.toNat from .inl (none'.mpr zero)), if_pos (null.mpr p), none'.mpr zero]
        rfl
      · have positive : size.toNat ≠ 0 := by omega
        rw [if_pos (show Refused size.toNat from .inr huge), if_neg fun zero => p (null.mp zero), if_neg positive]
    refine ⟨by rw [nothing]; exact fun hang => (nomatch hang), fun q s returned => ?_, ?_⟩
    · rw [nothing] at returned
      cases returned
      rfl
    · intro _ _ _ _ _ _ q s returned block
      rw [nothing] at returned
      cases returned
      exact absurd rfl block

/-- Of the calls of the six routines, entered with the lock free, exactly the harmless ones keep the discipline. The
table has 102 slots. -/
theorem lock_discipline_iff (h : State) (count : h.map.freeRegionCount ≤ maxFreeRegions) (call : HeapCall) :
    Disciplined h call ↔ call.Harmless := by
  cases call with
  | krealloc ptr size pa va => exact disciplined_krealloc_iff h ptr size pa va
  | kmalloc size pa va => exact disciplined_other_iff count fun _ _ _ _ same => (nomatch same)
  | kfree ptr => exact disciplined_other_iff count fun _ _ _ _ same => (nomatch same)
  | forceAlloc address size => exact disciplined_other_iff count fun _ _ _ _ same => (nomatch same)
  | forceFree address size => exact disciplined_other_iff count fun _ _ _ _ same => (nomatch same)
  | printFreeRegions => exact disciplined_other_iff count fun _ _ _ _ same => (nomatch same)

theorem lock_discipline_iff_seeded : Disciplined seeded (.kmalloc 64 0 0) :=
  (lock_discipline_iff seeded (by decide) _).mpr trivial

/-- A block of 64 bytes from the heap as it is after boot cannot be made larger, and neither can a RAM file that has
it for its contents: `krealloc_impl` waits for the lock it holds. Nor can an empty RAM file get its first block. -/
theorem reallocation_hangs :
    (∃ h, kmallocImpl seeded 64 0 0 = .ok (0xFFFFA00000000008, h) ∧
        HeapCall.run ⟨h, false⟩ (.krealloc 0xFFFFA00000000008 128 0 0) = .hang ∧
        ramfileWrite ⟨h, false⟩ ⟨0xFFFFA00000000008, 64, false⟩ (List.replicate 64 1) 64 0 0 = .hang) ∧
      HeapCall.run ⟨seeded, false⟩ (.krealloc 0 128 0 0) = .hang := by
  have returned : pointerOf (kmallocImpl seeded 64 0 0) = some 0xFFFFA00000000008 := by decide +kernel
  obtain ⟨h, allocated⟩ := eq_ok_of_pointerOf returned
  have admitted : ¬Refused (UInt64.toNat 128) := by decide
  refine ⟨⟨h, allocated, ?_, ?_⟩, ?_⟩
  · exact (lockedKrealloc_eq h _ _ 0 0).trans (if_neg admitted)
  · rfl
  · exact (lockedKrealloc_eq seeded _ _ 0 0).trans (if_neg admitted)

end CreeperKernel.Heap

import CreeperKernel.FallibleLoops
import CreeperKernel.PageTableExtensions

namespace CreeperKernel.Vmm

open RadixTree
open Pmm (pageSize)

/-- The test of `uvma_is_range_free` for one page. -/
def uvmaIsPageFree (mem : Memory) (pml4 : Frame) (cur : Nat) : Bool :=
  let pml4e := mem pml4 (pml4Index cur)
  if ¬ isPresent pml4e then true else
  let pdpte := mem (frameOf pml4e) (pdptIndex cur)
  if ¬ isPresent pdpte then true else
  if isHuge pdpte then false else
  let pde := mem (frameOf pdpte) (pdIndex cur)
  if ¬ isPresent pde then true else
  if isHuge pde then false else
  !isPresent (mem (frameOf pde) (ptIndex cur))

/-- The address of page `i` of a range. Addresses are 64-bit words. -/
def pageFrom (va i : Nat) : Nat := (va + i * pageSize) % 2 ^ 64

def uvmaIsRangeFree (mem : Memory) (pml4 : Frame) (va count : Nat) : Bool :=
  (List.range count).all fun i => uvmaIsPageFree mem pml4 (pageFrom va i)

/-- The search of `uvma_map_pages`. The loop has no bound of its own. -/
def uvmaSearch (mem : Memory) (pml4 : Frame) (count searchStart : Nat) : Nat → Nat → Outcome (Option Nat)
  | 0, _ => .hang
  | fuel + 1, va =>
    if uvmaIsRangeFree mem pml4 va count then .ok (some va) else
    let va := (va + pageSize) % 2 ^ 64
    if va < searchStart then .ok none else uvmaSearch mem pml4 count searchStart fuel va

/-- `uvma_map_pages`. The lock is left out. -/
def uvmaMapPages {σ : Type} [FrameAllocator σ] (fuel : Nat) (m : Machine σ) (pml4 : Option Frame) (pa : Frame)
    (count : Nat) (flags : Entry) (searchStart : Nat) : Outcome (Nat × Machine σ) :=
  match pml4 with
  | none => .ok (0, m)
  | some pml4 =>
    if count = 0 then .ok (0, m) else
    if pa.toNat % pageSize ≠ 0 ∨ searchStart % pageSize ≠ 0 then .ok (0, m) else do
    let flags := flags ||| ptePresent
    match ← uvmaSearch m.mem pml4 count searchStart fuel searchStart with
    | none => pure (0, m)
    | some va =>
      let m ← (List.range count).foldlM (fun m i =>
        map4k m pml4 (pageFrom va i) (pa + BitVec.ofNat 64 (i * pageSize)) flags) m
      pure (va, m)

/-- Nothing is mapped at the `count` pages from `va` on. -/
def FreeRange (mem : Memory) (root : Frame) (va count : Nat) : Prop :=
  ∀ i < count, pageDirVirtToPhys mem root (pageFrom va i) = notMapped

section Search

variable {mem : Memory} {root : Frame} {va count start fuel : Nat}

theorem uvmaIsPageFree_iff (mem : Memory) (root : Frame) (va : Nat) :
    uvmaIsPageFree mem root va = true ↔ pageDirVirtToPhys mem root va = notMapped := by
  have offset : ∀ n, n ≤ 30 → va % 2 ^ n < 2 ^ 30 := fun n bound =>
    Nat.lt_of_lt_of_le (Nat.mod_lt _ (Nat.two_pow_pos n)) (Nat.pow_le_pow_right (by decide) bound)
  unfold uvmaIsPageFree pageDirVirtToPhys
  dsimp only
  split
  · simp
  split
  · simp
  split
  · exact iff_of_false Bool.false_ne_true (frameOf_or_ne_notMapped _ (offset 30 (by decide)))
  split
  · simp
  split
  · exact iff_of_false Bool.false_ne_true (frameOf_or_ne_notMapped _ (offset 21 (by decide)))
  split
  · rename_i absent
    simp [Bool.eq_false_of_not_eq_true absent]
  · rename_i present
    rw [not_not.mp present]
    exact iff_of_false Bool.false_ne_true (frameOf_or_ne_notMapped _ (offset 12 (by decide)))

theorem uvmaIsRangeFree_iff (mem : Memory) (root : Frame) (va count : Nat) :
    uvmaIsRangeFree mem root va count = true ↔ FreeRange mem root va count := by
  rw [uvmaIsRangeFree, List.all_eq_true]
  simp only [List.mem_range, uvmaIsPageFree_iff]
  rfl

/-- What the search comes to from `va` on. -/
def Searched (mem : Memory) (root : Frame) (count va : Nat) : Option Nat → Prop
  | none => ∀ v, va ≤ v → v < 2 ^ 64 → v % pageSize = 0 → ¬ FreeRange mem root v count
  | some found => va ≤ found ∧ found % pageSize = 0 ∧ FreeRange mem root found count ∧
      ∀ v, va ≤ v → v < found → v % pageSize = 0 → ¬ FreeRange mem root v count

theorem Searched.next {result : Option Nat} (aligned : va % pageSize = 0) (taken : ¬ FreeRange mem root va count)
    (later : Searched mem root count (va + pageSize) result) : Searched mem root count va result := by
  have size : pageSize = 4096 := rfl
  have skip : ∀ v, va ≤ v → v % pageSize = 0 → v ≠ va → va + pageSize ≤ v := by
    intro v above multiple other
    rw [size] at aligned multiple ⊢
    omega
  cases result with
  | none =>
    intro v above below multiple
    by_cases same : v = va
    · rw [same]
      exact taken
    · exact later v (skip v above multiple same) below multiple
  | some found =>
    refine ⟨Nat.le_trans (Nat.le_add_right va pageSize) later.1, later.2.1, later.2.2.1, fun v above below multiple => ?_⟩
    by_cases same : v = va
    · rw [same]
      exact taken
    · exact later.2.2.2 v (skip v above multiple same) below multiple

/-- The search ends: the address space has 2^52 pages, and behind the last one the address
wraps to 0, below the start. -/
theorem uvmaSearch_spec (mem : Memory) (root : Frame) (count : Nat) (positive : 0 < start) (above : start ≤ va)
    (small : va < 2 ^ 64) (aligned : va % pageSize = 0) (enough : 2 ^ 64 ≤ va + fuel * pageSize) :
    ∃ result, uvmaSearch mem root count start fuel va = .ok result ∧ Searched mem root count va result := by
  have size : pageSize = 4096 := rfl
  induction fuel generalizing va with
  | zero => omega
  | succ fuel ih =>
    rw [uvmaSearch]
    by_cases free : uvmaIsRangeFree mem root va count = true
    · rw [if_pos free]
      refine ⟨some va, rfl, Nat.le_refl va, aligned, (uvmaIsRangeFree_iff mem root va count).mp free, ?_⟩
      intro v low high
      omega
    · rw [if_neg free]
      have taken : ¬ FreeRange mem root va count := fun yes => free ((uvmaIsRangeFree_iff mem root va count).mpr yes)
      dsimp only
      rw [size] at aligned enough
      by_cases last : va + 4096 = 2 ^ 64
      · have wrapped : (va + pageSize) % 2 ^ 64 = 0 := by
          rw [size]
          omega
        rw [wrapped, if_pos positive]
        refine ⟨none, rfl, ?_⟩
        intro v low high multiple
        rw [size] at multiple
        have same : v = va := by omega
        rw [same]
        exact taken
      · have next : (va + pageSize) % 2 ^ 64 = va + pageSize := by
          rw [size]
          omega
        rw [next, if_neg (by omega)]
        have above' : start ≤ va + pageSize := by omega
        obtain ⟨result, found, searched⟩ := ih above' (by omega) (by rw [size]; omega) (by rw [size]; omega)
        exact ⟨result, found, searched.next (by rw [size]; exact aligned) taken⟩

end Search

section Progress

variable {table root : Frame} {i : Index} {flags : Entry} {m : Machine (List Frame)}

/-- The frames `table_get_or_create` needs when it finds `e`. -/
def tablesNeeded (e : Entry) : Nat := if isPresent e then 0 else 1

theorem tablesNeeded_le (e : Entry) : tablesNeeded e ≤ 1 := by
  unfold tablesNeeded
  split
  · exact Nat.zero_le 1
  · exact Nat.le_refl 1

theorem tableGetOrCreate_returns (table : Frame) (i : Index) (flags : Entry)
    (left : tablesNeeded (m.mem table i) ≤ m.frames.length) : ∃ next m', tableGetOrCreate m table i flags = .ok (next, m') ∧
      m.frames.length = m'.frames.length + tablesNeeded (m.mem table i) := by
  unfold tableGetOrCreate
  dsimp only
  split
  · rename_i absent
    have one : tablesNeeded (m.mem table i) = 1 := if_neg absent
    rw [one] at left ⊢
    obtain ⟨mem, frames⟩ := m
    cases frames with
    | nil => exact absurd left (Nat.lt_irrefl 0)
    | cons f rest =>
      by_cases zero : f = 0
      · subst zero
        exact ⟨_, _, rfl, rfl⟩
      · have given : pmmAllocZeroed (Machine.mk mem (f :: rest)) = .ok (f, ⟨zeroPage mem f, rest⟩) := if_neg zero
        rw [given]
        exact ⟨_, _, rfl, rfl⟩
  · rename_i present
    have none : tablesNeeded (m.mem table i) = 0 := if_pos (not_not.mp present)
    rw [none]
    split
    · exact ⟨_, _, rfl, rfl⟩
    · exact ⟨_, _, rfl, rfl⟩

theorem map4k_returns (root : Frame) (va : Nat) (pa : Frame) (flags : Entry) (left : 3 ≤ m.frames.length) :
    ∃ m', map4k m root va pa flags = .ok m' ∧ m.frames.length ≤ m'.frames.length + 3 := by
  have cost₁ := tablesNeeded_le (m.mem root (pml4Index va))
  obtain ⟨pdpt, m₁, first, left₁⟩ := tableGetOrCreate_returns root (pml4Index va) flags (m := m) (by omega)
  have cost₂ := tablesNeeded_le (m₁.mem pdpt (pdptIndex va))
  obtain ⟨pd, m₂, second, left₂⟩ := tableGetOrCreate_returns pdpt (pdptIndex va) flags (m := m₁) (by omega)
  have cost₃ := tablesNeeded_le (m₂.mem pd (pdIndex va))
  obtain ⟨pt, m₃, third, left₃⟩ := tableGetOrCreate_returns pd (pdIndex va) flags (m := m₂) (by omega)
  refine ⟨m₃.store pt (ptIndex va) (leafEntry pa flags), ?_, ?_⟩
  · rw [map4k, first, Outcome.ok_bind]
    dsimp only
    rw [second, Outcome.ok_bind]
    dsimp only
    rw [third, Outcome.ok_bind]
    rfl
  · show m.frames.length ≤ m₃.frames.length + 3
    omega

end Progress

/-- The first `k` pages of a range are mapped, and nothing else has changed. -/
structure MappedUpTo (old : Memory) (root : Frame) (va : Nat) (pa : Frame) (flags : Entry) (k : Nat)
    (m : Machine (List Frame)) : Prop where
  paging : Paging (smallScope old root) m.mem root
  fresh : FreshIn (smallScope old root) root m.mem m.frames
  along : ∃ ways, ExtendsAlong (smallScope old root) root old ways m.mem
  pages : ∀ i < k, ∀ a, vpn a = vpn (pageFrom va i) →
    lookup m.mem root a = some (leafEntry (pa + BitVec.ofNat 64 (i * pageSize)) flags)
  others : ∀ a, pathOf a ∈ (smallScope old root).paths → (∀ i < k, vpn a ≠ vpn (pageFrom va i)) →
    lookup m.mem root a = lookup old root a

section Loop

variable {old : Memory} {root pa : Frame} {va count : Nat} {flags : Entry} {m : Machine (List Frame)}

theorem vpn_pageFrom (va i : Nat) : vpn (pageFrom va i) = (va / 4096 + i) % 2 ^ 36 := by
  rw [vpn, pageFrom, Pmm.mul_pageSize]
  omega

variable {i a b : Nat}

theorem vpn_pageFrom_injective (bound : count ≤ 2 ^ 36) {j : Nat} (left : i < count) (right : j < count)
    (same : vpn (pageFrom va i) = vpn (pageFrom va j)) : i = j := by
  rw [vpn_pageFrom, vpn_pageFrom] at same
  omega

theorem lookup_congr (mem : Memory) (root : Frame) (same : vpn a = vpn b) : lookup mem root a = lookup mem root b := by
  have ⟨path, index⟩ := (same_page_iff a b).mpr same
  rw [lookup, lookup, path, index]

theorem pathOf_congr (same : vpn a = vpn b) : pathOf a = pathOf b := ((same_page_iff a b).mpr same).1

theorem MappedUpTo.step (formed : PageTree old root) (bound : count ≤ 2 ^ 36) (free : FreeRange old root va count)
    {k : Nat} (inside : k < count) (mapped : MappedUpTo old root va pa flags k m) {m' : Machine (List Frame)}
    (done : map4k m root (pageFrom va k) (pa + BitVec.ofNat 64 (k * pageSize)) flags = .ok m') :
    MappedUpTo old root va pa flags (k + 1) m' := by
  have ⟨covered, absent⟩ := formed.unmapped (free k inside)
  have supply := freshIn_supply (smallScope old root) root
  obtain ⟨taken, new⟩ := map4k_spec supply mapped.fresh mapped.paging covered done
  obtain ⟨ways, along⟩ := mapped.along
  refine ⟨new.paging, mapped.fresh.taken new.allocs new.nodes new.kept,
    ⟨_, map4k_along supply mapped.fresh mapped.paging along covered absent done⟩, fun i below a same => ?_,
    fun a within apart => ?_⟩
  · by_cases last : i = k
    · rw [last] at same ⊢
      rw [lookup_congr _ _ same]
      exact new.lookup_self covered
    · have earlier : i < k := by omega
      have different : vpn a ≠ vpn (pageFrom va k) := by
        intro other
        rw [same] at other
        exact last (vpn_pageFrom_injective bound (Nat.lt_trans earlier inside) inside other)
      have within : pathOf a ∈ (smallScope old root).paths := by
        rw [pathOf_congr same]
        exact (formed.unmapped (free i (Nat.lt_trans earlier inside))).1
      rw [new.lookup_other within different]
      exact mapped.pages i earlier a same
  · rw [new.lookup_other within (apart k (Nat.lt_succ_self k))]
    exact mapped.others a within fun i below => apart i (Nat.lt_succ_of_lt below)

/-- The pages are mapped one after the other, each with three new tables at most. -/
theorem mapPages_returns (pa : Frame) (flags : Entry) (formed : PageTree m.mem root) (bound : count ≤ 2 ^ 36)
    (free : FreeRange m.mem root va count) (fresh : FreshIn (smallScope m.mem root) root m.mem m.frames)
    (enough : 3 * count ≤ m.frames.length) : ∃ m', (List.range count).foldlM (fun m i =>
        map4k m root (pageFrom va i) (pa + BitVec.ofNat 64 (i * pageSize)) flags) m = .ok m' ∧
      MappedUpTo m.mem root va pa flags count m' := by
  have start : MappedUpTo m.mem root va pa flags 0 m :=
    ⟨formed.paging, fresh, ⟨∅, ExtendsAlong.refl _ _ _⟩, fun i below => absurd below (Nat.not_lt_zero i),
      fun _ _ _ => rfl⟩
  have each : ∀ k < count, ∀ middle : Machine (List Frame),
      3 * (count - k) ≤ middle.frames.length ∧ MappedUpTo m.mem root va pa flags k middle →
      ∃ after, map4k middle root (pageFrom va k) (pa + BitVec.ofNat 64 (k * pageSize)) flags = .ok after ∧
        3 * (count - (k + 1)) ≤ after.frames.length ∧ MappedUpTo m.mem root va pa flags (k + 1) after := by
    intro k inside middle ⟨left, mapped⟩
    obtain ⟨after, done, fewer⟩ := map4k_returns root (pageFrom va k) (pa + BitVec.ofNat 64 (k * pageSize)) flags
      (m := middle) (by omega)
    exact ⟨after, done, by omega, mapped.step formed bound free inside done⟩
  obtain ⟨m', done, _, mapped⟩ := FallibleLoops.foldlM_range_succeeds _ each ⟨enough, start⟩
  exact ⟨m', done, mapped⟩

theorem frameOf_page {n : Nat} (aligned : pa.toNat % pageSize = 0) (small : pa.toNat + n * pageSize < 2 ^ 52) :
    frameOf (pa + BitVec.ofNat 64 (n * pageSize)) = pa + BitVec.ofNat 64 (n * pageSize) := by
  rw [Pmm.mul_pageSize] at small
  have multiple : pa.toNat % 4096 = 0 := aligned
  have page : pa = pageAt (pa.toNat / 4096) := by
    apply BitVec.eq_of_toNat_eq
    rw [pageAt_toNat (by omega)]
    omega
  rw [page, ← pageAt_add]
  apply frameOf_pageAt
  omega

theorem MappedUpTo.translation (formed : PageTree old root) (free : FreeRange old root va count)
    (clean : flags &&& pteAddrMask = 0) (aligned : pa.toNat % pageSize = 0)
    (small : pa.toNat + count * pageSize ≤ 2 ^ 52) (mapped : MappedUpTo old root va pa flags count m)
    (inside : i < count) (same : vpn a = vpn (pageFrom va i)) :
    pageDirVirtToPhys m.mem root a = pa + BitVec.ofNat 64 (i * pageSize) ||| BitVec.ofNat 64 (a % 2 ^ 12) := by
  have size : pageSize = 4096 := rfl
  have covered : pathOf a ∈ (smallScope old root).paths := by
    rw [pathOf_congr same]
    exact (formed.unmapped (free i inside)).1
  have frame : frameOf (pa + BitVec.ofNat 64 (i * pageSize)) = pa + BitVec.ofNat 64 (i * pageSize) := by
    apply frameOf_page aligned
    rw [size] at small ⊢
    omega
  rw [pageDirVirtToPhys_eq mapped.paging covered, mapped.pages i inside a same]
  dsimp only
  rw [frameOf_leafEntry _ clean, frame]

theorem MappedUpTo.translation_other (formed : PageTree old root) (mapped : MappedUpTo old root va pa flags count m)
    (other : ∀ i < count, vpn a ≠ vpn (pageFrom va i)) : pageDirVirtToPhys m.mem root a = pageDirVirtToPhys old root a := by
  by_cases nothing : pageDirVirtToPhys old root a = notMapped
  · have ⟨covered, _⟩ := formed.unmapped nothing
    rw [pageDirVirtToPhys_eq mapped.paging covered, mapped.others a covered other,
      pageDirVirtToPhys_eq formed.paging covered]
  · obtain ⟨ways, along⟩ := mapped.along
    exact along.translation formed nothing

end Loop

/-- What `uvma_map_pages` is asked for. -/
structure MapRequest (pa : Frame) (count : Nat) (flags : Entry) (searchStart : Nat) : Prop where
  aligned : pa.toNat % pageSize = 0
  positive : 1 ≤ count
  bound : count ≤ 2 ^ 36
  inside : pa.toNat + count * pageSize ≤ 2 ^ 52
  clean : flags &&& pteAddrMask = 0
  start : searchStart % pageSize = 0
  nonzero : 0 < searchStart
  word : searchStart < 2 ^ 64

/-- The range at `va` is the lowest one that was free, and it alone has been mapped. -/
structure MappedRange (mem after : Memory) (root pa : Frame) (count searchStart va : Nat) : Prop where
  above : searchStart ≤ va
  aligned : va % pageSize = 0
  free : FreeRange mem root va count
  lowest : ∀ v, searchStart ≤ v → v < va → v % pageSize = 0 → ¬ FreeRange mem root v count
  pages : ∀ i < count, ∀ a, vpn a = vpn (pageFrom va i) →
    pageDirVirtToPhys after root a = pa + BitVec.ofNat 64 (i * pageSize) ||| BitVec.ofNat 64 (a % 2 ^ 12)
  others : ∀ a, (∀ i < count, vpn a ≠ vpn (pageFrom va i)) →
    pageDirVirtToPhys after root a = pageDirVirtToPhys mem root a

/-- `uvma_map_pages` ends after at most 2^52 rounds. With three frames for each page the
physical allocator never runs out. -/
theorem uvma_map_pages_lowest {m : Machine (List Frame)} {pml4 pa : Frame} {count searchStart fuel : Nat} {flags : Entry}
    (formed : PageTree m.mem pml4) (fresh : FreshIn (smallScope m.mem pml4) pml4 m.mem m.frames)
    (enough : 3 * count ≤ m.frames.length) (request : MapRequest pa count flags searchStart)
    (rounds : 2 ^ 52 ≤ fuel) :
    ∃ va after, uvmaMapPages fuel m (some pml4) pa count flags searchStart = .ok (va, after) ∧
      (va ≠ 0 → MappedRange m.mem after.mem pml4 pa count searchStart va) ∧
      (va = 0 → (∀ v, searchStart ≤ v → v < 2 ^ 64 → v % pageSize = 0 → ¬ FreeRange m.mem pml4 v count) ∧
        ∀ a, pageDirVirtToPhys after.mem pml4 a = pageDirVirtToPhys m.mem pml4 a) := by
  have enoughRounds : 2 ^ 64 ≤ searchStart + fuel * pageSize := by
    rw [Pmm.mul_pageSize]
    omega
  obtain ⟨result, search, searched⟩ := uvmaSearch_spec m.mem pml4 count request.nonzero (Nat.le_refl searchStart)
    request.word request.start enoughRounds
  have run : uvmaMapPages fuel m (some pml4) pa count flags searchStart =
      (uvmaSearch m.mem pml4 count searchStart fuel searchStart >>= fun
        | none => pure (0, m)
        | some va => do
          let m ← (List.range count).foldlM (fun m i =>
            map4k m pml4 (pageFrom va i) (pa + BitVec.ofNat 64 (i * pageSize)) (flags ||| ptePresent)) m
          pure (va, m)) := by
    have positive := request.positive
    rw [uvmaMapPages, if_neg (by omega), if_neg (by rw [request.aligned, request.start]; simp)]
  rw [run, search, Outcome.ok_bind]
  cases result with
  | none => exact ⟨0, m, rfl, fun nonzero => absurd rfl nonzero, fun _ => ⟨searched, fun _ => rfl⟩⟩
  | some va =>
    obtain ⟨above, aligned, free, lowest⟩ := searched
    have clean : (flags ||| ptePresent) &&& pteAddrMask = 0 := by
      show frameOf (flags ||| ptePresent) = 0
      have none : frameOf flags = 0 := request.clean
      rw [frameOf_or, none, frameOf_ptePresent]
      rfl
    obtain ⟨after, done, mapped⟩ := mapPages_returns pa (flags ||| ptePresent) formed request.bound
      free fresh enough
    refine ⟨va, after, ?_, fun _ => ?_, fun zero => ?_⟩
    · dsimp only
      rw [done]
      rfl
    · exact ⟨above, aligned, free, lowest,
        fun i inside a same => mapped.translation formed free clean request.aligned request.inside
          inside same,
        fun a other => mapped.translation_other formed other⟩
    · have nonzero := request.nonzero
      omega

/-- An address space with the direct map of the first GiB in its kernel half, and frames for tables. -/
def direct : Machine (List Frame) where
  mem f i :=
    if f = pageAt 1 ∧ i = 256 then pageAt 2 ||| (ptePresent ||| pteWritable)
    else if f = pageAt 2 ∧ i = 0 then ptePresent ||| pteWritable ||| pteHuge else 0
  frames := (List.range 384).map fun i => pageAt (200 + i)

theorem direct_top (i : Index) :
    direct.mem (pageAt 1) i = if i = 256 then pageAt 2 ||| (ptePresent ||| pteWritable) else 0 := by
  have other : ¬ (pageAt 1 = pageAt 2 ∧ i = 0) := fun same => absurd same.1 (by decide)
  simp only [direct, true_and, if_neg other]

theorem direct_second (i : Index) :
    direct.mem (pageAt 2) i = if i = 0 then ptePresent ||| pteWritable ||| pteHuge else 0 := by
  have other : ¬ (pageAt 2 = pageAt 1 ∧ i = 256) := fun same => absurd same.1 (by decide)
  simp only [direct, true_and, if_neg other]

theorem direct_tables {p : List Index} {f : Frame} (inside : p ∈ (smallScope direct.mem (pageAt 1)).paths)
    (reached : tableAt direct.mem (pageAt 1) p = some f) : p = [] ∧ f = pageAt 1 ∨ p = [256] ∧ f = pageAt 2 := by
  have step : entryChild (direct.mem (pageAt 1) 256) = some (pageAt 2) := by decide
  cases p with
  | nil => exact .inl ⟨rfl, (Option.some.inj reached).symm⟩
  | cons i p =>
    by_cases same : i = 256
    · subst same
      rw [tableAt, nodeAt, step] at reached
      cases p with
      | nil => exact .inr ⟨rfl, (Option.some.inj reached).symm⟩
      | cons j p =>
        simp only [Option.bind_some, nodeAt, direct_second] at reached
        by_cases zero : j = 0
        · have small := inside.2 [256] j (by simp) (by rw [zero]; decide)
          rw [zero] at small
          exact absurd small (by decide)
        · rw [if_neg zero] at reached
          cases reached
    · simp only [tableAt, nodeAt, direct_top, if_neg same] at reached
      cases reached

theorem direct_tree : PageTree direct.mem (pageAt 1) := by
  constructor
  · intro p left q right f first second
    rcases direct_tables left first with ⟨rfl, rfl⟩ | ⟨rfl, rfl⟩ <;>
      rcases direct_tables right second with ⟨rfl, other⟩ | ⟨rfl, other⟩
    · rfl
    · exact absurd other (by decide)
    · exact absurd other (by decide)
    · rfl
  · intro i present
    rw [direct_top] at present ⊢
    split
    · decide
    · rename_i other
      rw [if_neg other] at present
      cases present

theorem direct_fresh : FreshIn (smallScope direct.mem (pageAt 1)) (pageAt 1) direct.mem direct.frames := by
  refine ⟨?_, fun f member => ?_⟩
  · apply List.Nodup.map_on _ List.nodup_range
    intro a left b right same
    have first := List.mem_range.mp left
    have second := List.mem_range.mp right
    have equal := pageAt_injective (by omega) (by omega) same
    omega
  · obtain ⟨i, below, rfl⟩ := List.mem_map.mp member
    have bound := List.mem_range.mp below
    have apart : ∀ n < 200, pageAt (200 + i) ≠ pageAt n := by
      intro n small same
      have equal := pageAt_injective (by omega) (by omega) same
      omega
    refine ⟨frameOf_pageAt (by omega), ?_, fun zero => absurd zero (apart 0 (by decide))⟩
    rintro ⟨p, inside, reached⟩
    rcases direct_tables inside reached with ⟨-, same⟩ | ⟨-, same⟩
    · exact apart 1 (by decide) same
    · exact apart 2 (by decide) same

theorem direct_unmapped {a : Nat} (outside : pml4Index a ≠ 256 ∨ pdptIndex a ≠ 0) :
    pageDirVirtToPhys direct.mem (pageAt 1) a = notMapped := by
  have next : frameOf (direct.mem (pageAt 1) 256) = pageAt 2 := by decide
  unfold pageDirVirtToPhys
  by_cases kernel : pml4Index a = 256
  · have other := outside.resolve_left (not_not_intro kernel)
    have absent : ¬ isPresent (direct.mem (pageAt 2) (pdptIndex a)) = true := by
      rw [direct_second, if_neg other]
      decide
    rw [kernel, if_neg (by decide), next, if_pos absent]
  · rw [direct_top, if_neg kernel, if_pos (by decide)]

theorem direct_mapped {a : Nat} (kernel : pml4Index a = 256) (first : pdptIndex a = 0) :
    pageDirVirtToPhys direct.mem (pageAt 1) a ≠ notMapped := by
  have next : frameOf (direct.mem (pageAt 1) 256) = pageAt 2 := by decide
  unfold pageDirVirtToPhys
  rw [kernel, if_neg (by decide), next, first, if_neg (by decide), if_pos (by decide)]
  exact frameOf_or_ne_notMapped _ (Nat.mod_lt _ (by decide))

/-- A page that is asked for from the start of the direct map on comes right behind it. -/
theorem uvma_map_pages_lowest_direct : ∃ after,
    uvmaMapPages (2 ^ 52) direct (some (pageAt 1)) (pageAt 5) 1 pteUser 0xFFFF800000000000 =
      .ok (0xFFFF800040000000, after) ∧
    MappedRange direct.mem after.mem (pageAt 1) (pageAt 5) 1 0xFFFF800000000000 0xFFFF800040000000 := by
  have free : FreeRange direct.mem (pageAt 1) 0xFFFF800040000000 1 := by
    intro i below
    cases Nat.lt_one_iff.mp below
    exact direct_unmapped (by decide)
  have taken : ∀ v, 0xFFFF800000000000 ≤ v → v < 0xFFFF800040000000 → ¬ FreeRange direct.mem (pageAt 1) v 1 := by
    intro v low high range
    have same : pageFrom v 0 = v := by
      rw [pageFrom, Nat.zero_mul]
      omega
    have here := range 0 (by decide)
    rw [same] at here
    exact direct_mapped (Fin.ext (by show v / 2 ^ 39 % 512 = 256; omega))
      (Fin.ext (by show v / 2 ^ 30 % 512 = 0; omega)) here
  have request : MapRequest (pageAt 5) 1 pteUser 0xFFFF800000000000 :=
    ⟨by decide, by decide, by decide, by decide, by decide, by decide, by decide, by decide⟩
  obtain ⟨va, after, done, found, failed⟩ :=
    uvma_map_pages_lowest direct_tree direct_fresh (by simp [direct]) request (Nat.le_refl (2 ^ 52))
  by_cases zero : va = 0
  · exact absurd free ((failed zero).1 _ (by decide) (by decide) (by decide))
  · have range := found zero
    have low : ¬ va < 0xFFFF800040000000 := fun below => taken va range.above below range.free
    have high : ¬ 0xFFFF800040000000 < va := fun above => range.lowest _ (by decide) above (by decide) free
    cases Nat.le_antisymm (Nat.not_lt.mp high) (Nat.not_lt.mp low)
    exact ⟨after, done, range⟩

end CreeperKernel.Vmm

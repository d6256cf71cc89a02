import CreeperKernel.ForkCopy
import CreeperKernel.PageTableGrants
import CreeperKernel.UserMappings
import CreeperKernel.UserStackArgs

namespace CreeperKernel.Stacks

open Vmm Rights FallibleLoops
open Fork (defaultStackPageAmount defaultStackPageBytes stackUpperUspaceAddr)
open Pmm (pageSize mul_pageSize)
open UserStack (Byte)

def stackLowerUspaceAddr : Nat := 0x7F0000000000

def stackFlags : Entry := pteWritable ||| pteNx ||| pteUser ||| pteLocalOwned

/-- What a constructor leaves for a new user thread: the stack pointer in its start frame and `user_stack.top`, the
physical address of the block that was allocated for its stack. -/
structure Start where
  rsp : Nat
  top : Frame

section Constructors

variable {σ : Type} [FrameAllocator σ]

/-- The user stack in `new_usproc`; `usStackPages` is what `pmm_alloc_pages` returned. The start frame holds the
stack pointer of `_setup_user_stack_args`. -/
def newUsprocStack (m : Machine σ) (pDir usStackPages : Frame) (host : UserStack.Mem) (khostTop : Nat)
    (argv envp : List (List Byte)) : Outcome (Option Start × Machine σ) :=
  if usStackPages = 0 then pure (none, m) else do
  let m ← (List.range defaultStackPageAmount).foldlM (fun m i =>
    map4k m pDir (stackUpperUspaceAddr - (defaultStackPageBytes - i * pageSize))
      (usStackPages + BitVec.ofNat 64 (i * pageSize)) stackFlags) m
  match UserStack.setupUserStackArgs host khostTop stackUpperUspaceAddr argv envp with
  | none => pure (none, m)
  | some (userRsp, _) => pure (some ⟨userRsp, usStackPages⟩, m)

/-- The user stack in `new_thread`. The start frame holds the result of `uvma_map_pages`, whose search takes at most
2^52 rounds. -/
def newThreadStack (m : Machine σ) (cr3 ustackPages : Frame) : Outcome (Option Start × Machine σ) :=
  if ustackPages = 0 then pure (none, m) else do
  let (ustackVbase, m) ← uvmaMapPages (2 ^ 52) m (some cr3) ustackPages defaultStackPageAmount stackFlags
    stackLowerUspaceAddr
  if ustackVbase = 0 then pure (none, m) else pure (some ⟨ustackVbase, ustackPages⟩, m)

end Constructors

/-- The user may write the byte at `a`, and it lies in the block at `top`. -/
structure OnStack (mem : Memory) (root top : Frame) (a : Nat) : Prop where
  user : a < stackUpperUspaceAddr
  backed : ∃ i < defaultStackPageAmount,
    pageDirVirtToPhys mem root a = top + BitVec.ofNat 64 (i * pageSize) ||| BitVec.ofNat 64 (a % 2 ^ 12)
  writable : ∃ entries, walkEntries mem root a = some entries ∧ entries.all isWritable = true ∧ entries.all isUser = true

/-- The 8 bytes just below the stack pointer are on the thread's own stack. -/
def Start.OnOwnStack (start : Start) (mem : Memory) (root : Frame) : Prop :=
  ∀ k, 1 ≤ k → k ≤ 8 → OnStack mem root start.top (start.rsp - k)

inductive Constructor where
  | newUsproc
  | newThread
  deriving DecidableEq

/-- A user thread was created with a new block at `top` for its stack. The arguments of a process leave 8 bytes. -/
inductive Created (m : Machine (List Frame)) (root top : Frame) : Constructor → Start → Machine (List Frame) → Prop
  | newUsproc {host : UserStack.Mem} {khostTop : Nat} {argv envp : List (List Byte)} {start : Start}
      {m' : Machine (List Frame)} (fits : UserStack.total argv envp + 8 ≤ UserStack.stackBytes)
      (done : newUsprocStack m root top host khostTop argv envp = .ok (some start, m')) :
      Created m root top .newUsproc start m'
  | newThread {start : Start} {m' : Machine (List Frame)} (done : newThreadStack m root top = .ok (some start, m')) :
      Created m root top .newThread start m'

/-- The page table of the process before the thread was created. User memory has no huge pages, and the block was not
mapped there yet; the direct map of the kernel half may well have it. -/
structure Ready (m : Machine (List Frame)) (root top : Frame) : Prop where
  formed : PageTree m.mem root
  fresh : FreshIn (smallScope m.mem root) root m.mem m.frames
  small : ∀ a < stackUpperUspaceAddr, pathOf a ∈ (smallScope m.mem root).paths
  aligned : top.toNat % pageSize = 0
  inside : top.toNat + defaultStackPageAmount * pageSize ≤ 2 ^ 52
  unmapped : ∀ a < stackUpperUspaceAddr, ∀ i < defaultStackPageAmount,
    pageDirVirtToPhys m.mem root a ≠ top + BitVec.ofNat 64 (i * pageSize) ||| BitVec.ofNat 64 (a % 2 ^ 12)

/-- The page at `va` has the entry `e`, and those above it grant `flags`. -/
structure Reaches (mem : Memory) (root : Frame) (va : Nat) (flags e : Entry) : Prop where
  page : lookup mem root va = some e
  above : ∀ p j, p ++ [j] <+: pathOf va → ∃ x, leafAt mem root p j = some x ∧ Within flags x

section Reaching

variable {scope : TableScope} {root : Frame} {mem mem' : Memory} {a va : Nat} {flags flags' e e' : Entry}

theorem reaches_of_traced (traced : Traced scope root mem va flags e mem') : Reaches mem' root va flags e where
  page := traced.page
  above p j front := by
    have ⟨x, found, raises⟩ := traced.above p j front
    exact ⟨x, found, raises.asked⟩

theorem Reaches.congr (reaches : Reaches mem root va flags e) (same : vpn a = vpn va) : Reaches mem root a flags e where
  page := by
    rw [lookup_congr mem root same]
    exact reaches.page
  above p j front := by
    rw [pathOf_congr same] at front
    exact reaches.above p j front

theorem Reaches.kept (reaches : Reaches mem root a flags e) (covered : pathOf a ∈ scope.paths) (other : vpn a ≠ vpn va)
    (traced : Traced scope root mem va flags' e' mem') : Reaches mem' root a flags e where
  page := by
    have off : ¬ (pathOf a = pathOf va ∧ ptIndex a = ptIndex va) := fun same => other ((same_page_iff a va).mp same)
    have below : ¬ pathOf a ++ [ptIndex a] <+: pathOf va := by
      intro front
      have lengths := front.length_le
      simp [pathOf] at lengths
    exact (traced.others (pathOf a) covered (ptIndex a) off below).trans reaches.page
  above p j front := by
    obtain ⟨x, found, grants⟩ := reaches.above p j front
    by_cases shared : p ++ [j] <+: pathOf va
    · obtain ⟨y, raised, raises⟩ := traced.above p j shared
      exact ⟨y, raised, grants.trans (raises.granted x found)⟩
    · have inner : ¬ (p = pathOf va ∧ j = ptIndex va) := by
        intro on
        have lengths := front.length_le
        rw [on.1] at lengths
        simp [pathOf] at lengths
      have member : p ∈ scope.paths := scope.closed (mem_of_front covered front)
      exact ⟨x, (traced.others p member j inner shared).trans found, grants⟩

theorem Reaches.walk (reaches : Reaches mem root va flags e) (paging : Paging scope mem root)
    (covered : pathOf va ∈ scope.paths) (rights : SameRights e flags) :
    ∃ entries, walkEntries mem root va = some entries ∧ entries.all isWritable = isWritable flags ∧
      entries.all isUser = isUser flags := by
  have ⟨a, b, c, walked, top, second, third⟩ := walkEntries_of_lookup paging covered reaches.page
  have within : ∀ p j x, p ++ [j] <+: pathOf va → leafAt mem root p j = some x → Within e x := by
    intro p j x front here
    have ⟨y, found, grants⟩ := reaches.above p j front
    cases here.symm.trans found
    exact rights.within grants
  have all : ∀ x ∈ [a, b, c], Within e x := by
    simpa using ⟨within _ _ _ (by simp [pathOf]) top, within _ _ _ (by simp [pathOf]) second,
      within _ _ _ (by simp [pathOf]) third⟩
  exact ⟨[a, b, c] ++ [e], walked, (all_eq_last all).1.trans rights.1, (all_eq_last all).2.trans rights.2⟩

end Reaching

section NewUsproc

variable {m m' : Machine (List Frame)} {root top : Frame} {argv envp : List (List Byte)} {host : UserStack.Mem}
    {khostTop : Nat} {start : Start} {i a : Nat}

/-- The address of page `i` of the first thread's stack -/
def stackPage (i : Nat) : Nat := stackUpperUspaceAddr - (defaultStackPageBytes - i * pageSize)

theorem stackPage_eq {i : Nat} (below : i < defaultStackPageAmount) :
    stackPage i = 0x7FFFFFF80000 + i * 4096 ∧ stackPage i < stackUpperUspaceAddr := by
  have count : defaultStackPageAmount = 128 := rfl
  have bytes : defaultStackPageBytes = 524288 := rfl
  have upper : stackUpperUspaceAddr = 0x800000000000 := rfl
  rw [stackPage, mul_pageSize]
  omega

/-- The first `k` pages of the stack are mapped. -/
structure StackMapped (old : Memory) (root top : Frame) (k : Nat) (m : Machine (List Frame)) : Prop where
  paging : Paging (smallScope old root) m.mem root
  fresh : FreshIn (smallScope old root) root m.mem m.frames
  pages : ∀ i < k, Reaches m.mem root (stackPage i) stackFlags
    (leafEntry (top + BitVec.ofNat 64 (i * pageSize)) stackFlags)

theorem vpn_stackPage {i j : Nat} (left : i < defaultStackPageAmount) (right : j < defaultStackPageAmount)
    (same : vpn (stackPage i) = vpn (stackPage j)) : i = j := by
  have ⟨first, _⟩ := stackPage_eq left
  have ⟨second, _⟩ := stackPage_eq right
  have count : defaultStackPageAmount = 128 := rfl
  rw [vpn, vpn, first, second] at same
  omega

theorem StackMapped.step (ready : Ready m root top) {k : Nat} (below : k < defaultStackPageAmount)
    {s s' : Machine (List Frame)} (mapped : StackMapped m.mem root top k s)
    (done : map4k s root (stackPage k) (top + BitVec.ofNat 64 (k * pageSize)) stackFlags = .ok s') :
    StackMapped m.mem root top (k + 1) s' := by
  have covered : ∀ i < defaultStackPageAmount, pathOf (stackPage i) ∈ (smallScope m.mem root).paths :=
    fun i inside => ready.small _ (stackPage_eq inside).2
  have supply := freshIn_supply (smallScope m.mem root) root
  have ⟨taken, new⟩ := map4k_spec supply mapped.fresh mapped.paging (covered k below) done
  have traced := map4k_traced supply mapped.fresh mapped.paging (covered k below) done
  refine ⟨new.paging, mapped.fresh.taken new.allocs new.nodes new.kept, fun i bound => ?_⟩
  by_cases last : i = k
  · rw [last]
    exact reaches_of_traced traced
  · have earlier : i < k := by omega
    have inside : i < defaultStackPageAmount := Nat.lt_trans earlier below
    exact (mapped.pages i earlier).kept (covered i inside) (fun same => last (vpn_stackPage inside below same)) traced

theorem setup_rsp {host host' : UserStack.Mem} {kTop uTop rsp : Nat}
    (done : UserStack.setupUserStackArgs host kTop uTop argv envp = some (rsp, host')) :
    rsp = uTop - UserStack.total argv envp := by
  unfold UserStack.setupUserStackArgs at done
  split at done
  · cases done
  · exact (congrArg Prod.fst (Option.some.inj done)).symm

theorem newUsprocStack_maps (ready : Ready m root top)
    (done : newUsprocStack m root top host khostTop argv envp = .ok (some start, m')) :
    start = ⟨stackUpperUspaceAddr - UserStack.total argv envp, top⟩ ∧
      StackMapped m.mem root top defaultStackPageAmount m' := by
  unfold newUsprocStack at done
  split at done
  · cases done
  have ⟨middle, loop, done⟩ := Outcome.bind_eq_ok.mp done
  have empty : StackMapped m.mem root top 0 m :=
    ⟨ready.formed.paging, ready.fresh, fun i below => absurd below (Nat.not_lt_zero i)⟩
  have mapped : StackMapped m.mem root top defaultStackPageAmount middle :=
    foldlM_range_keeps (StackMapped m.mem root top) (fun i below s s' kept done => kept.step ready below done) empty loop
  split at done
  · cases done
  · rename_i userRsp after setup
    cases done
    rw [setup_rsp setup]
    exact ⟨rfl, mapped⟩

theorem StackMapped.translation (ready : Ready m root top)
    (mapped : StackMapped m.mem root top defaultStackPageAmount m') (below : i < defaultStackPageAmount)
    (same : vpn a = vpn (stackPage i)) :
    pageDirVirtToPhys m'.mem root a = top + BitVec.ofNat 64 (i * pageSize) ||| BitVec.ofNat 64 (a % 2 ^ 12) := by
  have reaches := (mapped.pages i below).congr same
  have covered : pathOf a ∈ (smallScope m.mem root).paths := by
    rw [pathOf_congr same]
    exact ready.small _ (stackPage_eq below).2
  have frame : frameOf (top + BitVec.ofNat 64 (i * pageSize)) = top + BitVec.ofNat 64 (i * pageSize) := by
    apply frameOf_page ready.aligned
    have inside := ready.inside
    rw [mul_pageSize] at inside ⊢
    omega
  rw [pageDirVirtToPhys_eq mapped.paging covered, reaches.page]
  dsimp only
  rw [frameOf_leafEntry _ (by decide), frame]

theorem StackMapped.onStack (ready : Ready m root top) (mapped : StackMapped m.mem root top defaultStackPageAmount m')
    (user : a < stackUpperUspaceAddr) (below : i < defaultStackPageAmount)
    (same : vpn a = vpn (stackPage i)) : OnStack m'.mem root top a := by
  have covered : pathOf a ∈ (smallScope m.mem root).paths := by
    rw [pathOf_congr same]
    exact ready.small _ (stackPage_eq below).2
  have rights : SameRights (leafEntry (top + BitVec.ofNat 64 (i * pageSize)) stackFlags) stackFlags :=
    sameRights_leaf _ stackFlags ptePresent (by decide) (by decide)
  have ⟨entries, walked, writable, allowed⟩ := ((mapped.pages i below).congr same).walk mapped.paging covered rights
  exact ⟨user, ⟨i, below, mapped.translation ready below same⟩, entries, walked, writable.trans (by decide),
    allowed.trans (by decide)⟩

/-- The arguments of a process lie in the upper part of its stack, so the bytes below them are on it too. -/
theorem newUsproc_on_own_stack (ready : Ready m root top) (fits : UserStack.total argv envp + 8 ≤ UserStack.stackBytes)
    (done : newUsprocStack m root top host khostTop argv envp = .ok (some start, m')) : start.OnOwnStack m'.mem root := by
  have ⟨same, mapped⟩ := newUsprocStack_maps ready done
  have bytes : UserStack.stackBytes = 524288 := rfl
  have upper : stackUpperUspaceAddr = 0x800000000000 := rfl
  have count : defaultStackPageAmount = 128 := rfl
  intro k positive small
  let a := stackUpperUspaceAddr - UserStack.total argv envp - k
  let i := (a - 0x7FFFFFF80000) / 4096
  have low : 0x7FFFFFF80000 ≤ a := by omega
  have user : a < stackUpperUspaceAddr := by omega
  have below : i < defaultStackPageAmount := by omega
  have page : vpn a = vpn (stackPage i) := by
    rw [vpn, vpn, (stackPage_eq below).1]
    omega
  rw [same]
  exact mapped.onStack ready user below page

/-- With frames enough for the tables, the first thread of a process is created. -/
theorem newUsprocStack_returns (block : top ≠ 0) (enough : 3 * defaultStackPageAmount ≤ m.frames.length)
    (host : UserStack.Mem) (khostTop : Nat) (fits : UserStack.total argv envp + 8 ≤ UserStack.stackBytes) :
    ∃ start m', newUsprocStack m root top host khostTop argv envp = .ok (some start, m') := by
  have each : ∀ k < defaultStackPageAmount, ∀ s : Machine (List Frame), 3 * (defaultStackPageAmount - k) ≤ s.frames.length →
      ∃ s', map4k s root (stackPage k) (top + BitVec.ofNat 64 (k * pageSize)) stackFlags = .ok s' ∧
        3 * (defaultStackPageAmount - (k + 1)) ≤ s'.frames.length := by
    intro k below s left
    obtain ⟨s', done, fewer⟩ := map4k_returns root (stackPage k) (top + BitVec.ofNat 64 (k * pageSize)) stackFlags
      (m := s) (by omega)
    exact ⟨s', done, by omega⟩
  obtain ⟨middle, loop, -⟩ := foldlM_range_succeeds _ each enough
  obtain ⟨result, setup⟩ : ∃ result, UserStack.setupUserStackArgs host khostTop stackUpperUspaceAddr argv envp = some result := by
    rw [UserStack.setupUserStackArgs, if_neg (by omega)]
    exact ⟨_, rfl⟩
  simp only [stackPage] at loop
  rw [newUsprocStack, if_neg block, loop, Outcome.ok_bind, setup]
  exact ⟨_, _, rfl⟩

end NewUsproc

section NewThread

variable {m m' : Machine (List Frame)} {root top : Frame} {va : Nat} {start : Start}

theorem uvmaMapPages_maps (ready : Ready m root top) (nonzero : va ≠ 0)
    (done : uvmaMapPages (2 ^ 52) m (some root) top defaultStackPageAmount stackFlags stackLowerUspaceAddr = .ok (va, m')) :
    stackLowerUspaceAddr ≤ va ∧ va % pageSize = 0 ∧ FreeRange m.mem root va defaultStackPageAmount ∧
      MappedUpTo m.mem root va top (stackFlags ||| ptePresent) defaultStackPageAmount m' := by
  have rounds : 2 ^ 64 ≤ stackLowerUspaceAddr + 2 ^ 52 * pageSize := by decide
  obtain ⟨result, search, searched⟩ := uvmaSearch_spec m.mem root defaultStackPageAmount
    (show 0 < stackLowerUspaceAddr by decide) (Nat.le_refl _) (by decide) (by decide) rounds
  rw [uvmaMapPages, if_neg (by decide), if_neg (by rw [ready.aligned]; decide), search, Outcome.ok_bind] at done
  cases result with
  | none =>
    cases done
    exact absurd rfl nonzero
  | some found =>
    obtain ⟨after, loop, done⟩ := Outcome.bind_eq_ok.mp done
    cases done
    obtain ⟨above, aligned, free, _⟩ := searched
    have empty : MappedUpTo m.mem root va top (stackFlags ||| ptePresent) 0 m :=
      ⟨ready.formed.paging, ready.fresh, ⟨∅, ExtendsAlong.refl _ _ _⟩, fun i below => absurd below (Nat.not_lt_zero i),
        fun _ _ _ => rfl⟩
    exact ⟨above, aligned, free, foldlM_range_keeps (MappedUpTo m.mem root va top (stackFlags ||| ptePresent))
      (fun i below s s' kept done => kept.step ready.formed (by decide) free below done) empty loop⟩

theorem newThreadStack_maps (ready : Ready m root top)
    (done : newThreadStack m root top = .ok (some start, m')) : start.top = top ∧
      stackLowerUspaceAddr ≤ start.rsp ∧ start.rsp % pageSize = 0 ∧ FreeRange m.mem root start.rsp defaultStackPageAmount ∧
      MappedUpTo m.mem root start.rsp top (stackFlags ||| ptePresent) defaultStackPageAmount m' := by
  unfold newThreadStack at done
  split at done
  · cases done
  have ⟨⟨va, after⟩, mapped, done⟩ := Outcome.bind_eq_ok.mp done
  dsimp only at done
  split at done
  · cases done
  rename_i nonzero
  cases done
  exact ⟨rfl, uvmaMapPages_maps ready nonzero mapped⟩

/-- The start frame holds the lowest address of the new stack, so the page below the stack pointer is another one. -/
theorem newThread_not_on_own_stack (ready : Ready m root top)
    (done : newThreadStack m root top = .ok (some start, m')) : ¬ start.OnOwnStack m'.mem root := by
  obtain ⟨same, above, aligned, _, pages⟩ := newThreadStack_maps ready done
  have lower : stackLowerUspaceAddr = 0x7F0000000000 := rfl
  have count : defaultStackPageAmount = 128 := rfl
  have size : start.rsp % 4096 = 0 := aligned
  have other : ∀ i < defaultStackPageAmount, vpn (start.rsp - 1) ≠ vpn (pageFrom start.rsp i) := by
    intro i below
    rw [vpn_pageFrom, vpn]
    omega
  intro own
  have first := own 1 (Nat.le_refl 1) (by decide)
  obtain ⟨i, below, backed⟩ := first.backed
  apply ready.unmapped (start.rsp - 1) first.user i below
  rw [← pages.translation_other ready.formed other, ← same]
  exact backed

/-- With frames enough for the tables, a thread is created in an address space with room for its stack. -/
theorem newThreadStack_returns (ready : Ready m root top) (block : top ≠ 0)
    (free : FreeRange m.mem root stackLowerUspaceAddr defaultStackPageAmount)
    (enough : 3 * defaultStackPageAmount ≤ m.frames.length) :
    ∃ start m', newThreadStack m root top = .ok (some start, m') := by
  have rounds : 2 ^ 64 ≤ stackLowerUspaceAddr + 2 ^ 52 * pageSize := by decide
  have ⟨result, search, searched⟩ := uvmaSearch_spec m.mem root defaultStackPageAmount
    (show 0 < stackLowerUspaceAddr by decide) (Nat.le_refl _) (by decide) (by decide) rounds
  cases result with
  | none => exact absurd free (searched stackLowerUspaceAddr (Nat.le_refl _) (by decide) (by decide))
  | some va =>
    have ⟨above, _, found, _⟩ := searched
    have ⟨after, loop, _⟩ := mapPages_returns top (stackFlags ||| ptePresent) ready.formed (by decide) found ready.fresh
      enough
    have mapped : uvmaMapPages (2 ^ 52) m (some root) top defaultStackPageAmount stackFlags stackLowerUspaceAddr =
        .ok (va, after) := by
      rw [uvmaMapPages, if_neg (by decide), if_neg (by rw [ready.aligned]; decide), search, Outcome.ok_bind]
      dsimp only
      rw [loop]
      rfl
    have nonzero : va ≠ 0 := by
      have lower : stackLowerUspaceAddr = 0x7F0000000000 := rfl
      omega
    refine ⟨⟨va, top⟩, after, ?_⟩
    rw [newThreadStack, if_neg block, mapped, Outcome.ok_bind]
    exact if_neg nonzero

end NewThread

/-- A new thread finds its own stack below its stack pointer just if it is the first thread of a new process: a further
thread starts at the lower end of its stack. -/
theorem starts_on_own_stack_iff {m m' : Machine (List Frame)} {root top : Frame} {way : Constructor} {start : Start}
    (ready : Ready m root top) (created : Created m root top way start m') :
    start.OnOwnStack m'.mem root ↔ way = .newUsproc := by
  cases created with
  | newUsproc fits done => exact iff_of_true (newUsproc_on_own_stack ready fits done) rfl
  | newThread done => exact iff_of_false (newThread_not_on_own_stack ready done) (by decide)

theorem direct_user {a : Nat} (user : a < stackUpperUspaceAddr) : pageDirVirtToPhys direct.mem (pageAt 1) a = notMapped := by
  have upper : stackUpperUspaceAddr = 0x800000000000 := rfl
  refine direct_unmapped (.inl fun same => ?_)
  have index : a / 2 ^ 39 % 512 = 256 := congrArg Fin.val same
  omega

theorem direct_ready : Ready direct (pageAt 1) (pageAt 5) where
  formed := direct_tree
  fresh := direct_fresh
  small a user := (direct_tree.unmapped (direct_user user)).1
  aligned := by decide
  inside := by decide
  unmapped a user i below := by
    have count : defaultStackPageAmount = 128 := rfl
    have bound : (pageAt 5).toNat + i * pageSize < 2 ^ 52 := by
      rw [pageAt_toNat (by decide), mul_pageSize]
      omega
    rw [direct_user user, ← frameOf_page (by decide) bound]
    exact (frameOf_or_ne_notMapped _ (Nat.lt_of_lt_of_le (Nat.mod_lt _ (by decide)) (by decide))).symm

theorem direct_enough : 3 * defaultStackPageAmount ≤ direct.frames.length := by simp [direct, defaultStackPageAmount]

theorem direct_usproc : ∃ start m', Created direct (pageAt 1) (pageAt 5) .newUsproc start m' := by
  have fits : UserStack.total [] [] + 8 ≤ UserStack.stackBytes := by decide
  obtain ⟨start, m', done⟩ := newUsprocStack_returns (show pageAt 5 ≠ 0 by decide) direct_enough (fun _ => 0) 0 fits
  exact ⟨start, m', .newUsproc fits done⟩

theorem direct_thread : ∃ start m', Created direct (pageAt 1) (pageAt 5) .newThread start m' := by
  obtain ⟨start, m', done⟩ := newThreadStack_returns direct_ready (by decide) (fun i below => direct_user (by
    have count : defaultStackPageAmount = 128 := rfl
    rw [pageFrom, mul_pageSize]
    show _ < 0x800000000000
    rw [show stackLowerUspaceAddr = 0x7F0000000000 from rfl]
    omega)) direct_enough
  exact ⟨start, m', .newThread done⟩

/-- The first further thread of a process: nothing of its own is below its stack pointer. -/
theorem new_thread_starts_below_stack : ∃ start m',
    newThreadStack direct (pageAt 1) (pageAt 5) = .ok (some start, m') ∧ ¬ start.OnOwnStack m'.mem (pageAt 1) := by
  obtain ⟨start, m', created⟩ := direct_thread
  cases created with
  | newThread done => exact ⟨start, m', done, newThread_not_on_own_stack direct_ready done⟩

/-- Both constructors, in an address space whose kernel half maps the block too. -/
theorem starts_on_own_stack_iff_direct :
    (∃ start m', Created direct (pageAt 1) (pageAt 5) .newUsproc start m' ∧ start.OnOwnStack m'.mem (pageAt 1)) ∧
    ∃ start m', Created direct (pageAt 1) (pageAt 5) .newThread start m' ∧ ¬ start.OnOwnStack m'.mem (pageAt 1) := by
  obtain ⟨start, m', first⟩ := direct_usproc
  obtain ⟨start', m'', further⟩ := direct_thread
  exact ⟨⟨start, m', first, (starts_on_own_stack_iff direct_ready first).mpr rfl⟩,
    start', m'', further, fun own => absurd ((starts_on_own_stack_iff direct_ready further).mp own) (by decide)⟩

end CreeperKernel.Stacks

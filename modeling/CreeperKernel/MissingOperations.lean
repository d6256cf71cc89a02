import CreeperKernel.VfsPaths
import CreeperKernel.Initrd

namespace CreeperKernel.Vfs

/-- The table of operations of the inode behind a dentry. -/
def HasTable (fs : Fs) (d : Ptr) (ops : Option InodeOperations) : Prop :=
  ∃ i inode, fs.inodeOf d = .ok i ∧ fs.inodes i = some inode ∧ inode.iOp = ops

/-- No component that the walk from `first` looks a name up in lacks its operations. -/
def WalkSupported (fs : Fs) (first : Ptr) (tokens : List Name) : Prop :=
  ∀ front token rest, tokens = front ++ token :: rest → Plain token →
    ∀ d, walk fs first front = .ok (some d) → ¬ HasTable fs d none

/-- The same for the walk of `kpath_lookup`. -/
def LookupSupported (fs : Fs) (start : Ptr) (path : Name) : Prop :=
  ∀ inode first, fs.inodes start = some inode → inode.iDentry = some first →
    WalkSupported fs first (Tokens.tokens slash path)

theorem deref_ne_nullOp {α : Type} (x : Option α) : Fs.deref x ≠ .error .nullOp := by
  unfold Fs.deref
  split <;> simp

theorem dentry_ne_nullOp (fs : Fs) (p : Ptr) : fs.dentry p ≠ .error .nullOp := deref_ne_nullOp _

theorem inode_ne_nullOp (fs : Fs) (p : Ptr) : fs.inode p ≠ .error .nullOp := deref_ne_nullOp _

variable {α β : Type}

theorem bind_ne_nullOp_iff (first : Except Stop α) (next : α → Except Stop β) :
    first.bind next ≠ .error .nullOp ↔ first ≠ .error .nullOp ∧ ∀ x, first = .ok x → next x ≠ .error .nullOp := by
  cases first with
  | ok x => simp [Except.bind]
  | error e => simp [Except.bind]

theorem inodeOf_ne_nullOp (fs : Fs) (p : Ptr) : fs.inodeOf p ≠ .error .nullOp := by
  refine (bind_ne_nullOp_iff (fs.dentry p) _).mpr ⟨dentry_ne_nullOp fs p, fun d _ => deref_ne_nullOp d.inode⟩

theorem findNamed_ne_nullOp (fs : Fs) (name : Name) (children : List Ptr) : findNamed fs name children ≠ .error .nullOp := by
  induction children with
  | nil => simp [findNamed]
  | cons c rest ih =>
    refine (bind_ne_nullOp_iff (fs.dentry c) _).mpr ⟨dentry_ne_nullOp fs c, fun d _ => ?_⟩
    split
    · simp
    · exact ih

theorem vfsLookup_ne_nullOp (fs : Fs) (dir : Ptr) (name : Name) : vfsLookup fs dir name ≠ .error .nullOp := by
  refine (bind_ne_nullOp_iff (fs.inode dir) _).mpr ⟨inode_ne_nullOp fs dir, fun inode _ => ?_⟩
  refine (bind_ne_nullOp_iff (Fs.deref inode.iDentry) _).mpr ⟨deref_ne_nullOp _, fun home _ => ?_⟩
  refine (bind_ne_nullOp_iff (fs.dentry home) _).mpr ⟨dentry_ne_nullOp fs home, fun d _ => ?_⟩
  exact findNamed_ne_nullOp fs name d.children

theorem operations_ne_nullOp_iff (fs : Fs) (dir : Ptr) :
    operations fs dir ≠ .error .nullOp ↔ ∀ inode, fs.inodes dir = some inode → inode.iOp ≠ none := by
  unfold operations Fs.inode Fs.deref
  cases found : fs.inodes dir with
  | none => simp [bind, Except.bind]
  | some inode =>
    cases ops : inode.iOp with
    | none => simp [bind, Except.bind, ops]
    | some table => simp [bind, Except.bind, ops]

theorem callLookup_ne_nullOp_iff (fs : Fs) (dir : Ptr) (name : Name) :
    callLookup fs dir name ≠ .error .nullOp ↔ ∀ inode, fs.inodes dir = some inode → inode.iOp ≠ none := by
  rw [← operations_ne_nullOp_iff]
  refine (bind_ne_nullOp_iff (operations fs dir) _).trans ⟨fun h => h.1, fun h => ⟨h, fun _ _ => ?_⟩⟩
  exact vfsLookup_ne_nullOp fs dir name

variable {fs : Fs} {i : Ptr}

theorem not_hasTable_none {d : Ptr} (at_ : fs.inodeOf d = .ok i) :
    ¬ HasTable fs d none ↔ ∀ inode, fs.inodes i = some inode → inode.iOp ≠ none := by
  constructor
  · intro lacks inode found ops
    exact lacks ⟨i, inode, at_, found, ops⟩
  · intro present table
    obtain ⟨j, inode, here, found, ops⟩ := table
    cases at_.symm.trans here
    exact present inode found ops

/-- The splits of a list with a first element are the split before it and those of the rest. -/
theorem forall_split_cons {token : Name} {rest : List Name} {P : List Name → Name → List Name → Prop} :
    (∀ front t after, token :: rest = front ++ t :: after → P front t after) ↔
      P [] token rest ∧ ∀ front t after, rest = front ++ t :: after → P (token :: front) t after := by
  constructor
  · intro all
    refine ⟨all [] token rest rfl, fun front t after same => ?_⟩
    apply all
    rw [same]
    rfl
  · intro both front t after same
    cases front with
    | nil =>
      cases same
      exact both.1
    | cons head front =>
      rw [List.cons_append, List.cons.injEq] at same
      obtain ⟨rfl, tail⟩ := same
      exact both.2 front t after tail

theorem walk_ne_nullOp_iff (fs : Fs) (first : Ptr) (tokens : List Name) :
    walk fs first tokens ≠ .error .nullOp ↔ WalkSupported fs first tokens := by
  induction tokens generalizing first with
  | nil =>
    simp only [walk, ne_eq, reduceCtorEq, not_false_eq_true, true_iff]
    intro front token rest same
    cases front <;> cases same
  | cons token rest ih =>
    rw [WalkSupported, forall_split_cons]
    by_cases isDot : token = dot
    · subst isDot
      rw [walk_dot, ih]
      simp only [walk_dot]
      exact ⟨fun below => ⟨fun plain => absurd rfl plain.1, below⟩, fun both => both.2⟩
    · by_cases isDotdot : token = dotdot
      · subst isDotdot
        rw [walk_dotdot, bind_ne_nullOp_iff]
        simp only [walk_dotdot]
        constructor
        · intro stays
          refine ⟨fun plain => absurd rfl plain.2, fun front t after same plain d reached => ?_⟩
          cases up : fs.dentry first with
          | error e =>
            rw [up] at reached
            cases reached
          | ok x =>
            rw [up] at reached
            exact (ih _).mp (stays.2 x up) front t after same plain d reached
        · intro both
          refine ⟨dentry_ne_nullOp fs first, fun x up => (ih _).mpr ?_⟩
          intro front t after same plain d reached
          apply both.2 front t after same plain d
          rw [up]
          exact reached
      · have plain : Plain token := ⟨isDot, isDotdot⟩
        rw [walk_plain fs first plain, bind_ne_nullOp_iff]
        simp only [walk_plain fs first plain]
        cases here : fs.inodeOf first with
        | error e =>
          have other : Except.error e ≠ (Except.error .nullOp : Except Stop Ptr) :=
            here ▸ inodeOf_ne_nullOp fs first
          refine iff_of_true ⟨other, fun x up => by cases up⟩ ⟨fun _ d reached => ?_, ?_⟩
          · cases reached
            intro table
            obtain ⟨i, -, there, -⟩ := table
            rw [here] at there
            cases there
          · intro front t after _ _ d reached
            cases reached
        | ok i =>
          constructor
          · intro stays
            have looked := (bind_ne_nullOp_iff (callLookup fs i token) _).mp (stays.2 i rfl)
            refine ⟨fun _ d reached => ?_, fun front t after same plainT d reached => ?_⟩
            · cases reached
              exact (not_hasTable_none here).mpr ((callLookup_ne_nullOp_iff fs i token).mp looked.1)
            · cases found : callLookup fs i token with
              | error e =>
                simp only [Except.bind, found] at reached
                cases reached
              | ok result =>
                cases result with
                | none =>
                  simp only [Except.bind, found] at reached
                  cases reached
                | some next =>
                  simp only [Except.bind, found] at reached
                  exact (ih next).mp (looked.2 (some next) found) front t after same plainT d reached
          · intro both
            constructor
            · intro null
              cases null
            intro x up
            cases up
            have table := (not_hasTable_none here).mp (both.1 plain first rfl)
            refine (bind_ne_nullOp_iff _ _).mpr ⟨(callLookup_ne_nullOp_iff fs i token).mpr table, ?_⟩
            intro result found
            cases result with
            | none =>
              intro null
              cases null
            | some next =>
              apply (ih next).mpr
              intro front t after same plainT d reached
              apply both.2 front t after same plainT d
              simp only [Except.bind, found]
              exact reached

theorem bind_ne_nullOp {first : Except Stop α} {next : α → Except Stop β}
    (starts : first ≠ .error .nullOp) (goes : ∀ x, first = .ok x → next x ≠ .error .nullOp) :
    (first >>= next) ≠ .error .nullOp :=
  (bind_ne_nullOp_iff first next).mpr ⟨starts, goes⟩

theorem ok_ne_nullOp {α : Type} (x : α) : Except.ok x ≠ (.error .nullOp : Except Stop α) := fun null => nomatch null

section Operations

variable (fs : Fs) (dir node : Ptr) (mode : UMode) (name : Name)

theorem vfsCreate_ne_nullOp : vfsCreate fs dir node mode ≠ .error .nullOp := by
  apply bind_ne_nullOp (inode_ne_nullOp fs dir)
  intro parent _
  apply bind_ne_nullOp (deref_ne_nullOp _)
  intro home _
  apply bind_ne_nullOp (dentry_ne_nullOp fs home)
  intro d _
  apply bind_ne_nullOp (dentry_ne_nullOp fs node)
  intro new _
  apply bind_ne_nullOp (findNamed_ne_nullOp fs new.name d.children)
  intro found _
  split
  · exact ok_ne_nullOp _
  · split <;> exact ok_ne_nullOp _

theorem ramfileInodeCreate_ne_nullOp (excl : Bool) : ramfileInodeCreate fs dir node mode excl ≠ .error .nullOp := by
  apply bind_ne_nullOp (dentry_ne_nullOp fs node)
  intro new _
  split
  · exact ok_ne_nullOp _
  · apply bind_ne_nullOp (vfsCreate_ne_nullOp fs dir node _)
    intro result _
    dsimp only
    split
    · exact ok_ne_nullOp _
    · apply bind_ne_nullOp (dentry_ne_nullOp _ node)
      intro made _
      apply bind_ne_nullOp (deref_ne_nullOp _)
      intro i _
      split
      · exact ok_ne_nullOp _
      · exact bind_ne_nullOp (inode_ne_nullOp _ i) fun inode _ => ok_ne_nullOp _

theorem ramfileInodeMkdir_ne_nullOp : ramfileInodeMkdir fs dir node mode ≠ .error .nullOp := by
  apply bind_ne_nullOp (vfsCreate_ne_nullOp fs dir node _)
  intro result _
  dsimp only
  split
  · exact ok_ne_nullOp _
  · apply bind_ne_nullOp (inodeOf_ne_nullOp _ node)
    intro i _
    exact bind_ne_nullOp (inode_ne_nullOp _ i) fun inode _ => ok_ne_nullOp _

theorem unlinkDentry_ne_nullOp (target : Ptr) : unlinkDentry fs dir target ≠ .error .nullOp := by
  apply bind_ne_nullOp (inode_ne_nullOp fs dir)
  intro inode _
  apply bind_ne_nullOp (deref_ne_nullOp _)
  intro home _
  exact bind_ne_nullOp (dentry_ne_nullOp fs home) fun d _ => ok_ne_nullOp _

theorem ramfileInodeRmdir_ne_nullOp : ramfileInodeRmdir fs dir name ≠ .error .nullOp := by
  apply bind_ne_nullOp (vfsLookup_ne_nullOp fs dir name)
  intro found _
  cases found with
  | none => exact ok_ne_nullOp _
  | some target =>
    apply bind_ne_nullOp (dentry_ne_nullOp fs target)
    intro d _
    apply bind_ne_nullOp (deref_ne_nullOp _)
    intro i _
    apply bind_ne_nullOp (inode_ne_nullOp fs i)
    intro inode _
    split
    · exact ok_ne_nullOp _
    · split
      · exact ok_ne_nullOp _
      · exact bind_ne_nullOp (unlinkDentry_ne_nullOp fs dir target) fun after _ => ok_ne_nullOp _

theorem ramfileInodeUnlink_ne_nullOp : ramfileInodeUnlink fs dir name ≠ .error .nullOp := by
  apply bind_ne_nullOp (vfsLookup_ne_nullOp fs dir name)
  intro found _
  cases found with
  | none => exact ok_ne_nullOp _
  | some target =>
    apply bind_ne_nullOp (inodeOf_ne_nullOp fs target)
    intro i _
    apply bind_ne_nullOp (inode_ne_nullOp fs i)
    intro inode _
    split
    · exact ok_ne_nullOp _
    · apply bind_ne_nullOp (unlinkDentry_ne_nullOp fs dir target)
      intro fs₁ _
      apply bind_ne_nullOp
      · unfold freeContents
        split
        · exact ok_ne_nullOp _
        · exact bind_ne_nullOp (deref_ne_nullOp _) fun info _ => ok_ne_nullOp _
      · intro fs₂ _
        dsimp only
        split <;> exact ok_ne_nullOp _

end Operations

/-- The inode `i` has a table of operations that satisfies `fits`. -/
def TableFits (fits : Option InodeOperations → Prop) (fs : Fs) (i : Ptr) : Prop :=
  ∀ inode, fs.inodes i = some inode → fits inode.iOp

theorem call_ne_nullOp_iff {α : Type} {run : InodeOperations → Except Stop α} {fits : Option InodeOperations → Prop}
    (absent : ¬ fits none) (entry : ∀ ops, run ops ≠ .error .nullOp ↔ fits (some ops)) :
    (operations fs i >>= run) ≠ .error .nullOp ↔ TableFits fits fs i := by
  unfold operations TableFits Fs.inode Fs.deref
  cases found : fs.inodes i with
  | none => simp [bind, Except.bind]
  | some inode =>
    cases ops : inode.iOp with
    | none => simp [bind, Except.bind, ops, absent]
    | some table =>
      simp only [bind, Except.bind, ops]
      rw [entry table]
      simp [ops]

theorem callCreate_ne_nullOp_iff (fs : Fs) (i node : Ptr) (mode : UMode) (excl : Bool) :
    callCreate fs i node mode excl ≠ .error .nullOp ↔ TableFits (· ≠ none) fs i := by
  apply call_ne_nullOp_iff (fun none_ => none_ rfl)
  intro ops
  cases ops with
  | defVfs => exact iff_of_true (vfsCreate_ne_nullOp fs i node mode) (by simp)
  | ramDir => exact iff_of_true (ramfileInodeCreate_ne_nullOp fs i node mode excl) (by simp)

theorem callMkdir_ne_nullOp_iff (fs : Fs) (i node : Ptr) (mode : UMode) :
    callMkdir fs i node mode ≠ .error .nullOp ↔ TableFits (· ≠ none) fs i := by
  apply call_ne_nullOp_iff (fun none_ => none_ rfl)
  intro ops
  cases ops with
  | defVfs => exact iff_of_true (vfsCreate_ne_nullOp fs i node _) (by simp)
  | ramDir => exact iff_of_true (ramfileInodeMkdir_ne_nullOp fs i node mode) (by simp)

theorem callRmdir_ne_nullOp_iff (fs : Fs) (i : Ptr) (name : Name) :
    callRmdir fs i name ≠ .error .nullOp ↔ TableFits (· = some .ramDir) fs i := by
  apply call_ne_nullOp_iff (fun none_ => nomatch none_)
  intro ops
  cases ops with
  | defVfs => exact iff_of_false (by simp) (by simp)
  | ramDir => exact iff_of_true (ramfileInodeRmdir_ne_nullOp fs i name) rfl

theorem callUnlink_ne_nullOp_iff (fs : Fs) (i : Ptr) (name : Name) :
    callUnlink fs i name ≠ .error .nullOp ↔ TableFits (· = some .ramDir) fs i := by
  apply call_ne_nullOp_iff (fun none_ => nomatch none_)
  intro ops
  cases ops with
  | defVfs => exact iff_of_false (by simp) (by simp)
  | ramDir => exact iff_of_true (ramfileInodeUnlink_ne_nullOp fs i name) rfl

/-- Wherever `path` ends, the table of the inode there satisfies `fits`. -/
def EndFits (fits : Option InodeOperations → Prop) (fs : Fs) (start : Ptr) (path : Name) : Prop :=
  ∀ d i, Resolves fs start path d → fs.inodeOf d = .ok i → TableFits fits fs i

section Walks

variable {fs fs' : Fs} {start : Ptr} {path : Name}

theorem LookupSupported.congr (same : SameWalk fs fs') (supported : LookupSupported fs start path) :
    LookupSupported fs' start path := by
  intro inode first started home
  have here := same.inodes start
  rw [started, Option.map_some] at here
  obtain ⟨inode', started', pair⟩ := Option.map_eq_some_iff.mp here.symm
  simp only [Prod.mk.injEq] at pair
  rw [← walk_ne_nullOp_iff, walk_congr same, walk_ne_nullOp_iff]
  exact supported inode' first started' (pair.1.trans home)

variable {i : Ptr}

theorem TableFits.congr {fits : Option InodeOperations → Prop}
    (same : (fs'.inodes i).map (fun x => (x.iDentry, x.iOp)) = (fs.inodes i).map fun x => (x.iDentry, x.iOp))
    (holds : TableFits fits fs i) : TableFits fits fs' i := by
  intro inode found
  rw [found, Option.map_some] at same
  obtain ⟨before, there, pair⟩ := Option.map_eq_some_iff.mp same.symm
  simp only [Prod.mk.injEq] at pair
  rw [← pair.2]
  exact holds before there

/-- `kpath_lookup` calls through no NULL if every component it looks a name up in has a table. -/
theorem kpathLookup_ne_nullOp (supported : LookupSupported fs start path) : kpathLookup fs start path ≠ .error .nullOp := by
  unfold kpathLookup
  split
  · exact ok_ne_nullOp _
  · rename_i p fs₁ copied
    have same := (kmalloc_same copied).1
    apply bind_ne_nullOp (inode_ne_nullOp fs₁ start)
    intro inode started
    apply bind_ne_nullOp (deref_ne_nullOp _)
    intro first home
    apply bind_ne_nullOp
    · rw [walk_ne_nullOp_iff]
      exact supported.congr same.walk inode first (inode_eq_ok.mp started) (deref_eq_ok.mp home)
    · intro found _
      cases found with
      | none => exact ok_ne_nullOp _
      | some curr =>
        apply bind_ne_nullOp (inodeOf_ne_nullOp fs₁ curr)
        intro i _
        exact bind_ne_nullOp (inode_ne_nullOp fs₁ i) fun inode _ => ok_ne_nullOp _

theorem lookupSupported_of_ne_nullOp (enough : fs.heap = []) (calls : kpathLookup fs start path ≠ .error .nullOp) :
    LookupSupported fs start path := by
  intro inode first started home
  rw [← walk_ne_nullOp_iff]
  intro null
  apply calls
  have same : Same fs { fs with fresh := fs.fresh + 1 } :=
    ⟨rfl, rfl, rfl, rfl, rfl, rfl, rfl, Nat.le_succ _, id⟩
  have started' : ({ fs with fresh := fs.fresh + 1 } : Fs).inode start = .ok inode := inode_eq_ok.mpr started
  have home' : Fs.deref inode.iDentry = .ok first := deref_eq_ok.mpr home
  have null' := (walk_congr same.walk first (Tokens.tokens slash path)).trans null
  simp only [kpathLookup, kmalloc_of_heap_nil enough, bind, Except.bind, started', home', null']

theorem newDentry_of_heap_nil (enough : fs.heap = []) (name : Name) (parent : Ptr) :
    ∃ fs', newDentry fs name parent = (some fs.fresh, fs') := by
  have enough' : ({ fs with fresh := fs.fresh + 1 } : Fs).heap = [] := enough
  simp only [newDentry, kmalloc_of_heap_nil enough, kmalloc_of_heap_nil enough']
  exact ⟨_, rfl⟩

theorem kpathLookup_finds {d : Ptr} {inode : Inode} (fresh : Fresh fs) (enough : fs.heap = [])
    (resolves : Resolves fs start path d) (behind : fs.inodeOf d = .ok i) (reached : fs.inodes i = some inode) :
    ∃ fs', kpathLookup fs start path = .ok (some d, fs') ∧ SameWalk fs fs' ∧ Fresh fs' ∧ fs'.heap = [] ∧
      fs'.inodeOf d = .ok i := by
  have looked := kpathLookup_of_resolves enough resolves behind reached
  have walks := kpathLookup_sameWalk looked
  refine ⟨_, looked, walks, ?_, enough, (inodeOf_congr walks.dentries d).trans behind⟩
  rcases kpathLookup_edits looked with ⟨impossible, -⟩ | ⟨_, _, -, -, -, edits⟩
  · cases impossible
  · exact edits.keeps_fresh fresh

end Walks

section Calls

variable {fits : Option InodeOperations → Prop} {fs : Fs} {start : Ptr} {path : Name}

theorem EndFits.congr {fs' : Fs} (same : SameWalk fs fs') (ends : EndFits fits fs start path) :
    EndFits fits fs' start path := by
  intro d i resolves behind
  rw [inodeOf_congr same.dentries] at behind
  exact (ends d i (resolves.congr same) behind).congr (same.inodes i)

section Making

variable {make : Fs → Ptr → Ptr → Except Stop (Int × Fs)}
    (makes : ∀ fs i node, make fs i node ≠ .error .nullOp ↔ TableFits fits fs i)
include makes

theorem kpathNew_ne_nullOp (fresh : Fresh fs) (supported : LookupSupported fs start (splitLast path).1)
    (ends : EndFits fits fs start (splitLast path).1) : kpathNew make fs start path ≠ .error .nullOp := by
  unfold kpathNew
  split
  · exact ok_ne_nullOp _
  · rename_i p fs₁ copied
    have same := (kmalloc_same copied).1
    apply bind_ne_nullOp (kpathLookup_ne_nullOp (supported.congr same.walk))
    rintro ⟨found, fs₂⟩ looked
    have walks := kpathLookup_sameWalk looked
    rcases kpathLookup_edits looked with ⟨rfl, -⟩ | ⟨d, i, rfl, resolves, behind, edits⟩
    · exact ok_ne_nullOp _
    · dsimp only
      split
      · exact ok_ne_nullOp _
      · rename_i node fs₃ noded
        have fresh₂ := edits.keeps_fresh (same.keeps_fresh fresh)
        have noded := newDentry_noded noded
        have behind₂ : fs₂.inodeOf d = .ok i := (inodeOf_congr walks.dentries d).trans behind
        apply bind_ne_nullOp (inodeOf_ne_nullOp fs₃ d)
        intro j there
        cases there.symm.trans (noded.inodeOf fresh₂ behind₂)
        apply bind_ne_nullOp
        · rw [makes]
          apply ((ends.congr same.walk) d i resolves behind).congr
          rw [noded.inodes]
          exact walks.inodes i
        · exact fun result _ => ok_ne_nullOp _

theorem supported_of_kpathNew (fresh : Fresh fs) (enough : fs.heap = [])
    (calls : kpathNew make fs start path ≠ .error .nullOp) :
    LookupSupported fs start (splitLast path).1 ∧ EndFits fits fs start (splitLast path).1 := by
  have same := (kmalloc_same (kmalloc_of_heap_nil enough)).1
  simp only [kpathNew, kmalloc_of_heap_nil enough] at calls
  obtain ⟨starts, goes⟩ := (bind_ne_nullOp_iff _ _).mp calls
  refine ⟨(lookupSupported_of_ne_nullOp (same.heap enough) starts).congr same.walk.symm, ?_⟩
  intro d i resolves behind inode reached
  obtain ⟨fs₂, looked, walks, fresh₂, enough₂, behind₂⟩ := kpathLookup_finds (same.keeps_fresh fresh)
    (same.heap enough) (resolves.congr same.walk.symm) behind reached
  obtain ⟨fs₃, noded⟩ := newDentry_of_heap_nil enough₂ (splitLast path).2 d
  have made := goes _ looked
  simp only [noded] at made
  have noded := newDentry_noded noded
  obtain ⟨-, made⟩ := (bind_ne_nullOp_iff _ _).mp made
  obtain ⟨called, -⟩ := (bind_ne_nullOp_iff _ _).mp (made i (noded.inodeOf fresh₂ behind₂))
  have table := (makes _ _ _).mp called
  refine table.congr ?_ inode reached
  rw [noded.inodes]
  exact (walks.inodes i).symm

theorem kpathNew_ne_nullOp_iff (fresh : Fresh fs) :
    (∀ heap, kpathNew make { fs with heap } start path ≠ .error .nullOp) ↔
      LookupSupported fs start (splitLast path).1 ∧ EndFits fits fs start (splitLast path).1 := by
  constructor
  · intro calls
    obtain ⟨supported, ends⟩ := supported_of_kpathNew makes (fresh.of_heap []) rfl (calls [])
    exact ⟨supported.congr (sameWalk_heap fs []).symm, ends.congr (sameWalk_heap fs []).symm⟩
  · intro both heap
    have same := sameWalk_heap fs heap
    exact kpathNew_ne_nullOp makes (fresh.of_heap heap) (both.1.congr same) (both.2.congr same)

end Making

variable {remove : Fs → Ptr → Name → Except Stop (Int × Fs)} {name : Name}
    (removes : ∀ fs i name, remove fs i name ≠ .error .nullOp ↔ TableFits fits fs i)
include removes

theorem kpathRemove_ne_nullOp (supported : LookupSupported fs start path) (ends : EndFits fits fs start path) :
    kpathRemove remove fs start path name ≠ .error .nullOp := by
  apply bind_ne_nullOp (kpathLookup_ne_nullOp supported)
  rintro ⟨found, fs₁⟩ looked
  have walks := kpathLookup_sameWalk looked
  rcases kpathLookup_edits looked with ⟨rfl, -⟩ | ⟨d, i, rfl, resolves, behind, -⟩
  · exact ok_ne_nullOp _
  · dsimp only
    split
    · exact ok_ne_nullOp _
    · rename_i p fs₂ named
      have same := (kmalloc_same named).1
      apply bind_ne_nullOp (inodeOf_ne_nullOp fs₂ d)
      intro j there
      rw [inodeOf_congr same.dentries, inodeOf_congr walks.dentries, behind] at there
      cases there
      rw [removes]
      exact (ends d i resolves behind).congr ((walks.trans same.walk).inodes i)

theorem supported_of_kpathRemove (fresh : Fresh fs) (enough : fs.heap = [])
    (calls : kpathRemove remove fs start path name ≠ .error .nullOp) :
    LookupSupported fs start path ∧ EndFits fits fs start path := by
  obtain ⟨starts, goes⟩ := (bind_ne_nullOp_iff _ _).mp calls
  refine ⟨lookupSupported_of_ne_nullOp enough starts, ?_⟩
  intro d i resolves behind inode reached
  obtain ⟨fs₂, looked, walks, fresh₂, enough₂, behind₂⟩ := kpathLookup_finds fresh enough resolves behind reached
  have same := (kmalloc_same (kmalloc_of_heap_nil enough₂)).1
  have made := goes _ looked
  simp only [kmalloc_of_heap_nil enough₂] at made
  obtain ⟨-, made⟩ := (bind_ne_nullOp_iff _ _).mp made
  have table := (removes _ _ _).mp (made i behind₂)
  exact table.congr (walks.inodes i).symm inode reached

theorem kpathRemove_ne_nullOp_iff (fresh : Fresh fs) :
    (∀ heap, kpathRemove remove { fs with heap } start path name ≠ .error .nullOp) ↔
      LookupSupported fs start path ∧ EndFits fits fs start path := by
  constructor
  · intro calls
    obtain ⟨supported, ends⟩ := supported_of_kpathRemove removes (fresh.of_heap []) rfl (calls [])
    exact ⟨supported.congr (sameWalk_heap fs []).symm, ends.congr (sameWalk_heap fs []).symm⟩
  · intro both heap
    have same := sameWalk_heap fs heap
    exact kpathRemove_ne_nullOp removes (both.1.congr same) (both.2.congr same)

end Calls

/-- The operations on paths. -/
inductive PathCall where
  | lookup (start : Ptr) (path : Name)
  | create (start : Ptr) (path : Name) (mode : UMode) (excl : Bool)
  | mkdir (start : Ptr) (path : Name) (mode : UMode)
  | rmdir (start : Ptr) (path name : Name)
  | unlink (start : Ptr) (path name : Name)

/-- The state an operation leaves, or why it does not come to an end. -/
def PathCall.run (fs : Fs) : PathCall → Except Stop Fs
  | .lookup start path => (kpathLookup fs start path).map Prod.snd
  | .create start path mode excl => (kpathCreate fs start path mode excl).map Prod.snd
  | .mkdir start path mode => (kpathMkdir fs start path mode).map Prod.snd
  | .rmdir start path name => (kpathRmdir fs start path name).map Prod.snd
  | .unlink start path name => (pathUnlink fs start path name).map Prod.snd

/-- The tables that an operation needs on its way and at its end. -/
def Supported (fs : Fs) : PathCall → Prop
  | .lookup start path => LookupSupported fs start path
  | .create start path _ _ | .mkdir start path _ =>
    LookupSupported fs start (splitLast path).1 ∧ EndFits (· ≠ none) fs start (splitLast path).1
  | .rmdir start path _ | .unlink start path _ =>
    LookupSupported fs start path ∧ EndFits (· = some .ramDir) fs start path

theorem map_ne_nullOp_iff (f : α → β) (first : Except Stop α) : first.map f ≠ .error .nullOp ↔ first ≠ .error .nullOp := by
  cases first with
  | ok x => simp [Except.map]
  | error e => simp [Except.map]

/-- Whatever memory there is, an operation on a path calls through no NULL table or entry,
if and only if each component it looks a name up in has a table and the one it ends at has
the entry it calls. -/
theorem no_missing_operation_iff (fs : Fs) (fresh : Fresh fs) (call : PathCall) :
    (∀ heap, call.run { fs with heap } ≠ .error .nullOp) ↔ Supported fs call := by
  cases call with
  | lookup start path =>
    simp only [PathCall.run, map_ne_nullOp_iff, Supported]
    constructor
    · intro calls
      exact (lookupSupported_of_ne_nullOp rfl (calls [])).congr (sameWalk_heap fs []).symm
    · intro supported heap
      exact kpathLookup_ne_nullOp (supported.congr (sameWalk_heap fs heap))
  | create start path mode excl =>
    simp only [PathCall.run, map_ne_nullOp_iff, Supported]
    exact kpathNew_ne_nullOp_iff (fun fs i node => callCreate_ne_nullOp_iff fs i node mode excl) fresh
  | mkdir start path mode =>
    simp only [PathCall.run, map_ne_nullOp_iff, Supported]
    exact kpathNew_ne_nullOp_iff (fun fs i node => callMkdir_ne_nullOp_iff fs i node mode) fresh
  | rmdir start path name =>
    simp only [PathCall.run, map_ne_nullOp_iff, Supported]
    exact kpathRemove_ne_nullOp_iff callRmdir_ne_nullOp_iff fresh
  | unlink start path name =>
    simp only [PathCall.run, map_ne_nullOp_iff, Supported]
    exact kpathRemove_ne_nullOp_iff callUnlink_ne_nullOp_iff fresh

theorem supported_mkdir_root : Supported tmpRoot (.mkdir 0 (absolute [sys]) 0o755) := by
  have parent : (splitLast (absolute [sys])).1 = [slash] := by decide
  have empty : Tokens.tokens slash [slash] = [] := by decide
  constructor
  · intro inode first _ _ front token rest same
    rw [parent, empty] at same
    cases front <;> cases same
  · intro d i resolves behind inode found ops
    obtain ⟨root, first, started, home, walked⟩ := resolves
    rw [parent, empty] at walked
    cases started
    cases home
    cases walked
    obtain ⟨x, live, its⟩ := inodeOf_eq_ok.mp behind
    cases live
    cases its
    cases found
    cases ops

/-- In the tree with nothing but the root, a directory can be made in the root. -/
theorem no_missing_operation_iff_root : Fresh tmpRoot ∧ Supported tmpRoot (.mkdir 0 (absolute [sys]) 0o755) ∧
    ∀ heap, (PathCall.mkdir 0 (absolute [sys]) 0o755).run { tmpRoot with heap } ≠ .error .nullOp :=
  ⟨tmpRoot_fresh, supported_mkdir_root,
    (no_missing_operation_iff tmpRoot tmpRoot_fresh (.mkdir 0 (absolute [sys]) 0o755)).mpr supported_mkdir_root⟩

/-- Why a routine does not come to an end, if it does not. -/
def errorOf {α : Type} : Except Stop α → Option Stop
  | .ok _ => none
  | .error stop => some stop

/-- `kpath_lookup` of `/dev/null/x` looks `x` up in a device file, whose table is NULL, and
`kpath_rmdir` in `/` calls an entry that the table of the root lacks. -/
theorem boot_tree_calls_missing_operation :
    errorOf (do let fs ← Initrd.bootTree; (PathCall.lookup 0 (absolute [dev, ['n', 'u', 'l', 'l'], ['x']])).run fs) = some .nullOp ∧
      errorOf (do let fs ← Initrd.bootTree; (PathCall.rmdir 0 [slash] (str sys)).run fs) = some .nullOp := by
  decide +kernel

end CreeperKernel.Vfs

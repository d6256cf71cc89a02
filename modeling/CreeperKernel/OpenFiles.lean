import CreeperKernel.FileEffects

namespace CreeperKernel.Vfs

open Transitions (Run)

/-- A descriptor of a live process refers to the inode `i`. -/
def OpenOn (w : World) (i : Ptr) : Prop :=
  ∃ proc ∈ w.procs, proc.alive = true ∧ ∃ table fd, proc.openedFileTable = some table ∧ (table fd).fInode = some i

/-- The inode, its `ramfile_info` and its contents have not been released. -/
def Intact (fs : Fs) (i : Ptr) : Prop :=
  ∃ x, fs.inodes i = some x ∧ ∀ q, x.iPrivate = some q → ∃ info, fs.infos q = some info ∧
    (info.start ≠ 0 → info.start ∉ fs.freed)

/-- No descriptor outlives its file. -/
def NoneStale (w : World) : Prop := ∀ i, OpenOn w i → Intact w.fs i

/-- The `ramfile_info` of the inode is there. -/
def HasInfo (fs : Fs) (x : Inode) : Prop := ∀ q, x.iPrivate = some q → ∃ info, fs.infos q = some info

/-- Every dentry has an inode of its own that refers back to it, every inode a `ramfile_info`
of its own, and contents on the heap belong to no file: only those of fixed size have any. -/
structure FilesOwned (fs : Fs) : Prop where
  fresh : Fresh fs
  below : ∀ i x q, fs.inodes i = some x → x.iPrivate = some q → q < fs.fresh
  backed : ∀ p d, fs.dentries p = some d →
    ∃ i x, d.inode = some i ∧ fs.inodes i = some x ∧ x.iDentry = some p ∧ HasInfo fs x
  distinct : ∀ i j x y q, fs.inodes i = some x → fs.inodes j = some y → x.iPrivate = some q → y.iPrivate = some q → i = j
  contents : ∀ q info, fs.infos q = some info → info.start ≠ 0 → info.fixedSize = true ∧ info.start ∉ fs.freed

/-- An inode that is there with its `ramfile_info`. -/
def Held (fs : Fs) (i : Ptr) : Prop := ∃ x, fs.inodes i = some x ∧ HasInfo fs x

variable {i : Ptr}

theorem Held.intact {fs : Fs} (held : Held fs i) (owned : FilesOwned fs) : Intact fs i := by
  obtain ⟨x, live, has⟩ := held
  refine ⟨x, live, fun q its => ?_⟩
  obtain ⟨info, stored⟩ := has q its
  exact ⟨info, stored, fun some_ => (owned.contents q info stored some_).2⟩

/-- A step keeps what is held, apart from the inodes in `gone`. -/
structure KeepsFiles (fs fs' : Fs) (gone : Ptr → Prop) : Prop where
  owned : FilesOwned fs'
  held : ∀ i, ¬ gone i → Held fs i → Held fs' i

section Steps

variable {fs fs' : Fs}

theorem Same.keepsFiles (same : Same fs fs') (owned : FilesOwned fs) : KeepsFiles fs fs' fun _ => False where
  owned :=
    { fresh := same.keeps_fresh owned.fresh
      below := fun i x q live its => Nat.lt_of_lt_of_le (owned.below i x q (same.inodes ▸ live) its) same.fresh
      backed := by
        intro p d live
        rw [same.dentries] at live
        obtain ⟨i, x, its, there, back, has⟩ := owned.backed p d live
        exact ⟨i, x, its, same.inodes ▸ there, back, fun q priv => same.infos ▸ has q priv⟩
      distinct := by
        rw [same.inodes]
        exact owned.distinct
      contents := by
        rw [same.infos, same.freed]
        exact owned.contents }
  held := by
    rintro i - ⟨x, live, has⟩
    exact ⟨x, same.inodes ▸ live, fun q priv => same.infos ▸ has q priv⟩

variable {inode : Inode} {i home node : Ptr}

theorem keepsFiles_of_count (n : Int) (live : fs.inodes i = some inode) (owned : FilesOwned fs) :
    KeepsFiles fs (fs.setInode i { inode with iCount := inode.iCount + n }) fun _ => False := by
  -- an inode after the step is one before it, but for its count
  have older : ∀ j x, (fs.setInode i { inode with iCount := inode.iCount + n }).inodes j = some x →
      ∃ y, fs.inodes j = some y ∧ x.iPrivate = y.iPrivate := by
    intro j x after
    by_cases same : j = i
    · subst same
      simp only [Fs.setInode, Function.update_self] at after
      cases after
      exact ⟨inode, live, rfl⟩
    · simp only [Fs.setInode, Function.update_of_ne same] at after
      exact ⟨x, after, rfl⟩
  have later : ∀ j y, fs.inodes j = some y → ∃ x, (fs.setInode i { inode with iCount := inode.iCount + n }).inodes j =
      some x ∧ x.iPrivate = y.iPrivate ∧ x.iDentry = y.iDentry := by
    intro j y before
    by_cases same : j = i
    · subst same
      cases live.symm.trans before
      exact ⟨{ inode with iCount := inode.iCount + n }, Function.update_self .., rfl, rfl⟩
    · exact ⟨y, by simp only [Fs.setInode, Function.update_of_ne same]; exact before, rfl, rfl⟩
  refine ⟨⟨(EditStep.count n live).keeps_fresh owned.fresh, ?_, ?_, ?_, owned.contents⟩, ?_⟩
  · intro j x q after its
    obtain ⟨y, before, same⟩ := older j x after
    exact owned.below j y q before (same ▸ its)
  · intro p d there
    obtain ⟨j, y, its, before, back, has⟩ := owned.backed p d there
    obtain ⟨x, after, same, home⟩ := later j y before
    exact ⟨j, x, its, after, home.trans back, fun q priv => has q (same ▸ priv)⟩
  · intro j k x y q first second itsX itsY
    obtain ⟨x', before, sameX⟩ := older j x first
    obtain ⟨y', before', sameY⟩ := older k y second
    exact owned.distinct j k x' y' q before before' (sameX ▸ itsX) (sameY ▸ itsY)
  · rintro j - ⟨y, before, has⟩
    obtain ⟨x, after, same, -⟩ := later j y before
    exact ⟨x, after, fun q priv => has q (same ▸ priv)⟩

theorem Added.keepsFiles {dir : Ptr} {name : Name} (added : Added fs dir home node i name inode fs')
    (owned : FilesOwned fs) : KeepsFiles fs fs' fun _ => False := by
  have unused : fs.inodes i = none := owned.fresh.inodes i added.newInode.1
  have apart : ∀ j x, fs.inodes j = some x → j ≠ i := by
    intro j x live same
    rw [same, unused] at live
    cases live
  have live : ∀ j x, fs.inodes j = some x → fs'.inodes j = some x := by
    intro j x before
    rw [added.inodes, Function.update_of_ne (apart j x before), before]
  have new : fs'.inodes i = some inode := by rw [added.inodes, Function.update_self]
  have older : ∀ j x, fs'.inodes j = some x → (j = i ∧ x = inode) ∨ fs.inodes j = some x := by
    intro j x after
    by_cases same : j = i
    · subst same
      cases new.symm.trans after
      exact .inl ⟨rfl, rfl⟩
    · rw [added.inodes, Function.update_of_ne same] at after
      exact .inr after
  -- the infos there were stay, and a new one is empty
  have kept : ∀ q info, fs.infos q = some info → fs'.infos q = some info := by
    intro q info stored
    rcases added.infos with ⟨-, same⟩ | ⟨p, -, above, -, same⟩
    · rw [same]
      exact stored
    · rw [same, Function.update_of_ne]
      · exact stored
      · exact Nat.ne_of_lt (Nat.lt_of_lt_of_le (owned.fresh.infos.lt stored) above)
  have has : ∀ x, HasInfo fs x → HasInfo fs' x := by
    intro x all q its
    obtain ⟨info, stored⟩ := all q its
    exact ⟨info, kept q info stored⟩
  have hasNew : HasInfo fs' inode := by
    intro q its
    rcases added.infos with ⟨bare, -⟩ | ⟨p, priv, -, -, same⟩
    · rw [bare] at its
      cases its
    · cases priv.symm.trans its
      exact ⟨_, by rw [same, Function.update_self]⟩
  have fresh : ∀ q, inode.iPrivate = some q → fs.fresh ≤ q ∧ q < fs'.fresh := by
    intro q its
    rcases added.infos with ⟨bare, -⟩ | ⟨p, priv, above, below, -⟩
    · rw [bare] at its
      cases its
    · cases priv.symm.trans its
      exact ⟨above, below⟩
  have bound : fs.fresh ≤ fs'.fresh := Nat.le_of_lt (Nat.lt_of_le_of_lt added.newInode.1 added.newInode.2)
  refine ⟨⟨(EditStep.add added).keeps_fresh owned.fresh, ?_, ?_, ?_, ?_⟩, ?_⟩
  · intro j x q after its
    rcases older j x after with ⟨-, rfl⟩ | before
    · exact (fresh q its).2
    · exact Nat.lt_of_lt_of_le (owned.below j x q before its) bound
  · intro p d there
    obtain ⟨parent, atHome, -, after⟩ := added.place
    rw [after] at there
    have old : ∀ e, fs.dentries p = some e → d.inode = e.inode →
        ∃ i x, d.inode = some i ∧ fs'.inodes i = some x ∧ x.iDentry = some p ∧ HasInfo fs' x := by
      intro e before same
      obtain ⟨j, x, its, inodeJ, back, all⟩ := owned.backed p e before
      exact ⟨j, x, same.trans its, live j x inodeJ, back, has x all⟩
    by_cases atParent : p = home
    · subst atParent
      rw [Function.update_self] at there
      cases there
      exact old parent atHome rfl
    · rw [Function.update_of_ne atParent] at there
      by_cases atNode : p = node
      · subst atNode
        rw [Function.update_self] at there
        cases there
        exact ⟨i, inode, rfl, new, added.back, hasNew⟩
      · rw [Function.update_of_ne atNode] at there
        exact old d there rfl
  · intro j k x y q first second itsX itsY
    rcases older j x first with ⟨rfl, rfl⟩ | beforeX <;> rcases older k y second with ⟨rfl, rfl⟩ | beforeY
    · rfl
    · exact absurd (owned.below k y q beforeY itsY) (Nat.not_lt.mpr (fresh q itsX).1)
    · exact absurd (owned.below j x q beforeX itsX) (Nat.not_lt.mpr (fresh q itsY).1)
    · exact owned.distinct j k x y q beforeX beforeY itsX itsY
  · intro q info stored some_
    rw [added.freed]
    rcases added.infos with ⟨-, same⟩ | ⟨p, -, -, -, same⟩
    · rw [same] at stored
      exact owned.contents q info stored some_
    · rw [same] at stored
      by_cases atP : q = p
      · subst atP
        rw [Function.update_self] at stored
        cases stored
        exact absurd rfl some_
      · rw [Function.update_of_ne atP] at stored
        exact owned.contents q info stored some_
  · rintro j - ⟨x, before, all⟩
    exact ⟨x, live j x before, has x all⟩

/-- A file or directory that goes takes its own inode and `ramfile_info` with it, no other's. -/
theorem Removed.keepsFiles (removed : Removed fs home node i fs') (owned : FilesOwned fs) : KeepsFiles fs fs' (· = i) := by
  obtain ⟨d, x, atHome, -, atNode, its, -, dentries⟩ := removed.place
  obtain ⟨v, live, inodes, infos⟩ := removed.inode
  have other : ∀ j, j ≠ i → fs'.inodes j = fs.inodes j := by
    intro j apart
    rcases inodes with after | after <;> rw [after, Function.update_of_ne apart]
  have older : ∀ j y, fs'.inodes j = some y → ∃ z, fs.inodes j = some z ∧ y.iPrivate = z.iPrivate := by
    intro j y after
    by_cases same : j = i
    · subst same
      rcases inodes with gone | counted
      · rw [gone, Function.update_self] at after
        cases after
      · rw [counted, Function.update_self] at after
        cases after
        exact ⟨v, live, rfl⟩
    · rw [other j same] at after
      exact ⟨y, after, rfl⟩
  have has : ∀ j y, j ≠ i → fs.inodes j = some y → HasInfo fs y → HasInfo fs' y := by
    intro j y apart before all q priv
    obtain ⟨info, stored⟩ := all q priv
    refine ⟨info, ?_⟩
    rcases infos with ⟨-, same⟩ | ⟨p, own, same⟩
    · rw [same]
      exact stored
    · rw [same, Function.update_of_ne]
      · exact stored
      · intro equal
        subst equal
        exact apart (owned.distinct j i y v q before live priv own)
  have freed : fs'.freed = fs.freed := by
    rcases removed.freed with same | ⟨_, p, info, -, -, stored, own, some_, -⟩
    · exact same
    · have fixed := (owned.contents p info stored some_).1
      rw [own] at fixed
      cases fixed
  refine ⟨⟨(EditStep.remove removed).keeps_fresh owned.fresh, ?_, ?_, ?_, ?_⟩, ?_⟩
  · intro j y q after priv
    obtain ⟨z, before, same⟩ := older j y after
    exact Nat.lt_of_lt_of_le (owned.below j z q before (same ▸ priv)) removed.fresh
  · intro p e there
    rw [dentries] at there
    have notNode : p ≠ node := by
      intro same
      rw [same, Function.update_self] at there
      cases there
    rw [Function.update_of_ne notNode] at there
    have old : ∀ e', fs.dentries p = some e' → e.inode = e'.inode →
        ∃ i x, e.inode = some i ∧ fs'.inodes i = some x ∧ x.iDentry = some p ∧ HasInfo fs' x := by
      intro e' before same
      obtain ⟨j, y, itsE, inodeJ, back, all⟩ := owned.backed p e' before
      have apart : j ≠ i := by
        intro equal
        subst equal
        obtain ⟨k, z, itsX, inodeK, backX, -⟩ := owned.backed node x atNode
        cases its.symm.trans itsX
        cases inodeJ.symm.trans inodeK
        cases back.symm.trans backX
        exact notNode rfl
      exact ⟨j, y, same.trans itsE, (other j apart).trans inodeJ, back, has j y apart inodeJ all⟩
    by_cases atParent : p = home
    · subst atParent
      rw [Function.update_self] at there
      cases there
      exact old d atHome rfl
    · rw [Function.update_of_ne atParent] at there
      exact old e there rfl
  · intro j k y z q first second privY privZ
    obtain ⟨y', beforeY, sameY⟩ := older j y first
    obtain ⟨z', beforeZ, sameZ⟩ := older k z second
    exact owned.distinct j k y' z' q beforeY beforeZ (sameY ▸ privY) (sameZ ▸ privZ)
  · intro q info stored some_
    rw [freed]
    rcases infos with ⟨-, same⟩ | ⟨p, -, same⟩
    · rw [same] at stored
      exact owned.contents q info stored some_
    · rw [same] at stored
      by_cases atP : q = p
      · subst atP
        rw [Function.update_self] at stored
        cases stored
      · rw [Function.update_of_ne atP] at stored
        exact owned.contents q info stored some_
  · rintro j apart ⟨y, before, all⟩
    exact ⟨y, (other j apart).trans before, has j y apart before all⟩

theorem Lost.keepsFiles (lost : Lost fs home node fs') (owned : FilesOwned fs) : KeepsFiles fs fs' fun _ => False := by
  obtain ⟨d, atHome, dentries⟩ := lost.place
  have bound : fs.fresh ≤ fs'.fresh := Nat.le_of_lt (Nat.lt_of_le_of_lt lost.newNode.1 lost.newNode.2)
  have has : ∀ x, HasInfo fs x → HasInfo fs' x := fun x all q priv => lost.infos ▸ all q priv
  refine ⟨⟨(EditStep.lose lost).keeps_fresh owned.fresh, ?_, ?_, ?_, ?_⟩, ?_⟩
  · intro i x q live its
    rw [lost.inodes] at live
    exact Nat.lt_of_lt_of_le (owned.below i x q live its) bound
  · intro p e there
    rw [dentries] at there
    by_cases atParent : p = home
    · subst atParent
      rw [Function.update_self] at there
      cases there
      obtain ⟨i, x, its, live, back, all⟩ := owned.backed p d atHome
      exact ⟨i, x, its, lost.inodes ▸ live, back, has x all⟩
    · rw [Function.update_of_ne atParent] at there
      obtain ⟨i, x, its, live, back, all⟩ := owned.backed p e there
      exact ⟨i, x, its, lost.inodes ▸ live, back, has x all⟩
  · rw [lost.inodes]
    exact owned.distinct
  · rw [lost.infos, lost.freed]
    exact owned.contents
  · rintro i - ⟨x, live, all⟩
    exact ⟨x, lost.inodes ▸ live, has x all⟩

/-- The inode that an edit takes away. -/
def Edit.takes : Edit → Ptr → Prop
  | .remove _ _ j, i => i = j
  | _, _ => False

theorem EditStep.keepsFiles {e : Edit} (step : EditStep fs e fs') (owned : FilesOwned fs) (kind : ∀ i, e ≠ .retable i) :
    KeepsFiles fs fs' e.takes := by
  cases step with
  | count n live => exact keepsFiles_of_count n live owned
  | add added => exact added.keepsFiles owned
  | remove removed => exact removed.keepsFiles owned
  | retable => exact absurd rfl (kind _)
  | lose lost => exact lost.keepsFiles owned

theorem Edits.keepsFiles {es : List Edit} (edits : Edits fs es fs') (owned : FilesOwned fs)
    (kind : ∀ e ∈ es, ∀ i, e ≠ .retable i) : KeepsFiles fs fs' fun i => ∃ e ∈ es, e.takes i := by
  induction edits with
  | nil same =>
    have kept := same.keepsFiles owned
    exact ⟨kept.owned, fun i _ => kept.held i id⟩
  | @cons _ _ _ _ e es before first _ ih =>
    have kept := before.keepsFiles owned
    have stepped := first.keepsFiles kept.owned (kind e List.mem_cons_self)
    have rest := ih stepped.owned fun e' member => kind e' (List.mem_cons_of_mem e member)
    refine ⟨rest.owned, fun i stays held => ?_⟩
    apply rest.held i
    · rintro ⟨e', member, taken⟩
      exact stays ⟨e', List.mem_cons_of_mem e member, taken⟩
    · apply stepped.held i
      · exact fun taken => stays ⟨e, List.mem_cons_self, taken⟩
      · exact kept.held i id held

theorem SameObjects.keepsFiles (same : SameObjects fs fs') (owned : FilesOwned fs) :
    FilesOwned fs' ∧ ∀ i, Held fs i → Held fs' i := by
  have fresh := same.keeps_fresh owned.fresh
  obtain ⟨uid, gid, heap, rfl⟩ := same
  exact ⟨⟨fresh, owned.below, owned.backed, owned.distinct, owned.contents⟩, fun _ held => held⟩

/-- The inode of a dentry. -/
def OfDentry (fs : Fs) (i : Ptr) : Prop := ∃ p, fs.inodeOf p = .ok i

theorem OfDentry.held (dentry_ : OfDentry fs i) (owned : FilesOwned fs) : Held fs i := by
  obtain ⟨p, behind⟩ := dentry_
  obtain ⟨d, live, its⟩ := inodeOf_eq_ok.mp behind
  obtain ⟨j, x, its', there, -, has⟩ := owned.backed p d live
  cases its.symm.trans its'
  exact ⟨x, there, has⟩

end Steps

section Descriptors

variable {w w' : World} {pid : Nat} {proc : Proc} {i : Ptr}

variable {fs : Fs}

theorem openOn_setProc {proc' : Proc} (opened : OpenOn (({ w with fs } : World).setProc pid proc') i) :
    OpenOn w i ∨ ∃ table fd, proc'.openedFileTable = some table ∧ (table fd).fInode = some i := by
  obtain ⟨p, member, alive, table, fd, has, used⟩ := opened
  rcases List.mem_or_eq_of_mem_set member with old | rfl
  · exact .inl ⟨p, old, alive, table, fd, has, used⟩
  · exact .inr ⟨table, fd, has, used⟩

variable {fd : Fin tableEntries} {table : Table}

theorem openOn_of_entry (caller : w.current pid = .ok proc) (has : proc.openedFileTable = some table)
    (used : (table fd).fInode = some i) : OpenOn w i := by
  obtain ⟨found, alive⟩ := current_eq_ok caller
  exact ⟨proc, List.mem_of_getElem? found, alive, table, fd, has, used⟩

theorem openOn_of_assigned (caller : w.current pid = .ok proc) (has : proc.openedFileTable = some table) {file : File}
    (opened : OpenOn (({ w with fs } : World).setProc pid { proc with openedFileTable := some (Function.update table fd file) }) i)
    :
    OpenOn w i ∨ file.fInode = some i := by
  rcases openOn_setProc opened with old | ⟨table', fd', same, used⟩
  · exact .inl old
  · cases same
    by_cases here : fd' = fd
    · subst here
      rw [Function.update_self] at used
      exact .inr used
    · rw [Function.update_of_ne here] at used
      exact .inl (openOn_of_entry caller has used)

theorem Assigned.openOn (assigned : Assigned w pid w') (opened : OpenOn w' i) : OpenOn w i := by
  cases assigned with
  | unchanged => exact opened
  | closed caller has =>
    rcases openOn_of_assigned caller has opened with old | impossible
    · exact old
    · cases impossible
  | copied caller has =>
    rcases openOn_of_assigned caller has opened with old | used
    · exact old
    · exact openOn_of_entry caller has used
  | replaced caller has =>
    rcases openOn_of_assigned caller has opened with old | used
    · exact old
    · exact openOn_of_entry caller has used

variable {heap : List Bool} {path : Name}

theorem Looked.openOn {moves : Prop} (looked : Looked w pid heap path moves w') (opened : OpenOn w' i) : OpenOn w i := by
  cases looked with
  | kept => exact opened
  | moved _ caller =>
    rcases openOn_setProc opened with old | ⟨table, fd, has, used⟩
    · exact old
    · exact openOn_of_entry caller has used

variable {event : Event}

theorem Sought.openOn (sought : Sought w event w') (opened : OpenOn w' i) : OpenOn w i := by
  cases sought with
  | unchanged => exact opened
  | refused => exact opened
  | moved caller has =>
    rcases openOn_of_assigned caller has opened with old | used
    · exact old
    · exact openOn_of_entry caller has used

theorem Opened.openOn {fs₁ : Fs} {j : Ptr} (made : Opened w pid proc table fs₁ w' j)
    (caller : w.current pid = .ok proc) (has : proc.openedFileTable = some table) (opened : OpenOn w' i) :
    OpenOn w i ∨ OfDentry w'.fs i := by
  obtain ⟨fd, d, inode, file, -, behind, -, its, rfl⟩ := made.entry
  rcases openOn_of_assigned caller has opened with old | used
  · exact .inl old
  · cases its.symm.trans used
    exact .inr ⟨d, behind⟩

theorem openOn_of_open {start : Option Ptr} {flags mode : BitVec 32} {ret : Int} (fresh : Fresh w.fs)
    (caller : w.current pid = .ok proc) (has : proc.openedFileTable = some table)
    (done : openFrom w pid (w.fs.seenBy proc heap) proc table start path flags mode = .ok (ret, w'))
    (opened : OpenOn w' i) : OpenOn w i ∨ OfDentry w'.fs i := by
  have seen := sameObjects_seenBy w.fs proc heap
  rcases openFrom_cases (seen.keeps_fresh fresh) done with rfl | ⟨_, _, fs₁, -, -, -, -, rfl | ⟨-, j, made⟩⟩
  · exact .inl opened
  · exact .inl opened
  · exact made.openOn caller has opened

/-- What a descriptor refers to after a call: what one has referred to before it, or the inode
of a dentry. -/
theorem FileStep.openOn (step : FileStep w event w') (fresh : Fresh w.fs) (opened : OpenOn w' i) :
    OpenOn w i ∨ OfDentry w'.fs i := by
  obtain ⟨pid, heap, call⟩ := event
  obtain ⟨ret, done⟩ := step
  -- the operations on paths leave the descriptors alone
  have onPath_opens : ∀ {resolve filename operation}, onPath w pid heap resolve filename operation = .ok (ret, w') →
      OpenOn w i := by
    intro resolve filename operation done
    rcases onPath_cases done with rfl | ⟨_, _, _, _, -, -, -, -, rfl⟩
    · exact opened
    · exact opened
  cases call with
  | open_ path flags mode =>
    rcases openPath_cases done with rfl | ⟨proc, path, table, start, caller, -, has, -, done⟩
    · exact .inl opened
    · exact openOn_of_open fresh caller has done opened
  | openat dfd path flags mode =>
    have done : openPath w pid heap (resolveAt · · dfd ·) path flags mode = .ok (ret, w') := done
    rcases openPath_cases done with rfl | ⟨proc, path, table, start, caller, -, has, -, done⟩
    · exact .inl opened
    · exact openOn_of_open fresh caller has done opened
  | create | mkdir | rmdir | unlink => exact .inl (onPath_opens done)
  | mkdirat dfd path mode =>
    have done : onPath w pid heap (fun fs proc path => resolveAt fs proc dfd path) path
        (fun fs start path => kpathMkdir fs start path (mode.setWidth 16)) = .ok (ret, w') := done
    exact .inl (onPath_opens done)
  | chdir path =>
    rcases sysChdir_cases done with rfl | ⟨_, -, looked⟩
    · exact .inl opened
    · exact .inl (looked.openOn opened)
  | access path mode =>
    rcases sysAccess_cases done with rfl | ⟨_, -, looked⟩
    · exact .inl opened
    · exact .inl (looked.openOn opened)
  | read => exact .inl ((sysRead_sought done : Sought w ⟨pid, heap, .exit⟩ w').openOn opened)
  | write => exact .inl ((sysWrite_sought done : Sought w ⟨pid, heap, .exit⟩ w').openOn opened)
  | close => exact .inl ((sysClose_assigned done).openOn opened)
  | dup => exact .inl ((sysDup_assigned done).openOn opened)
  | dup2 => exact .inl ((sysDup2_assigned done).openOn opened)
  | fork copied =>
    obtain ⟨proc, caller, done⟩ := bind_eq_ok.mp done
    cases copied with
    | false =>
      cases done
      exact .inl opened
    | true =>
      cases done
      obtain ⟨p, member, alive, table, fd, has, used⟩ := opened
      rcases List.mem_append.mp member with old | new
      · exact .inl ⟨p, old, alive, table, fd, has, used⟩
      · rw [List.mem_singleton] at new
        subst new
        exact .inl (openOn_of_entry caller has used)
  | exit =>
    obtain ⟨proc, caller, done⟩ := bind_eq_ok.mp done
    cases done
    rcases openOn_setProc opened with old | ⟨_, _, impossible, -⟩
    · exact .inl old
    · cases impossible

end Descriptors

/-- No file is removed while a descriptor refers to it. -/
def FilesCareful (w : World) (event : Event) : Prop := ∀ node j, MayRemove w event node j → ¬ OpenOn w j

/-- The files are in order and every descriptor refers to one that is there. -/
structure FilesSafe (w : World) : Prop where
  owned : FilesOwned w.fs
  held : ∀ i, OpenOn w i → Held w.fs i

variable {w : World}

theorem FileStep.keeps_filesSafe {w' : World} {event : Event} (step : FileStep w event w')
    (careful : FilesCareful w event) (safe : FilesSafe w) : FilesSafe w' := by
  obtain ⟨⟨fs₀, es, same, edits, may⟩⟩ := step.edits safe.owned.fresh
  obtain ⟨owned₀, held₀⟩ := same.keepsFiles safe.owned
  have kept := edits.keepsFiles owned₀ (by
    rintro e member i rfl
    exact may _ member)
  refine ⟨kept.owned, fun i opened => ?_⟩
  rcases step.openOn safe.owned.fresh opened with old | dentry_
  · apply kept.held i
    · rintro ⟨e, member, taken⟩
      cases e with
      | remove _ node j =>
        cases taken
        exact careful node i (may _ member) old
      | count | add | retable | lose => exact taken
    · exact held₀ i (safe.held i old)
  · exact dentry_.held kept.owned

/-- No descriptor outlives its file, as long as no file is removed while it is open. -/
theorem no_descriptor_outlives_file (w : World) (owned : FilesOwned w.fs) (idle : ∀ i, ¬ OpenOn w i)
    (events : List Event) (w' : World)
    (run : Run (fun w event w' => FileStep w event w' ∧ FilesCareful w event) w events w') : NoneStale w' := by
  have safe := run.invariant FilesSafe (fun _ _ _ safe step => step.1.keeps_filesSafe step.2 safe)
    ⟨owned, fun i opened => absurd opened (idle i)⟩
  exact fun i opened => (safe.held i opened).intact safe.owned

/-- A root with the RAM directory `/tmp`. -/
def tmpTree : Fs :=
  { tmpRoot with
    dentries := Function.update (Function.update (fun _ => none) 0
        (some { name := [], parent := none, inode := some 0, children := [1] })) 1
      (some { name := str ['t', 'm', 'p'], parent := some 0, inode := some 2, children := [] })
    inodes := Function.update tmpRoot.inodes 2
      (some { iDentry := some 1, iMode := sIfdir ||| 0o666, iUid := 0, iGid := 0, iCount := 1
              iOp := some .ramDir, iFop := some .ramFile, iPrivate := none })
    fresh := 3 }

theorem tmpTree_inodes {x : Inode} (live : tmpTree.inodes i = some x) :
    x.iPrivate = none ∧ ∀ p, x.iDentry = some p → p < tmpTree.fresh := by
  simp only [tmpTree, tmpRoot, Function.update_apply] at live
  split at live
  · cases live
    refine ⟨rfl, fun p home => ?_⟩
    cases home
    decide
  · split at live
    · cases live
      refine ⟨rfl, fun p home => ?_⟩
      cases home
      decide
    · cases live

theorem tmpTree_owned : FilesOwned tmpTree where
  fresh :=
    { dentries := ((Unused.update (fun _ _ => rfl) (Nat.zero_lt_succ 2)).update (by decide))
      inodes := ((Unused.update (fun _ _ => rfl) (Nat.zero_lt_succ 2)).update (by decide))
      infos := fun _ _ => rfl
      homes := fun _ _ p live home => (tmpTree_inodes live).2 p home }
  below := by
    intro i x q live its
    rw [(tmpTree_inodes live).1] at its
    cases its
  backed := by
    intro p d live
    simp only [tmpTree, Function.update_apply] at live
    split at live
    · rename_i same
      cases live
      exact ⟨2, _, rfl, rfl, by rw [same], fun q impossible => nomatch impossible⟩
    · split at live
      · rename_i same
        cases live
        exact ⟨0, _, rfl, rfl, by rw [same], fun q impossible => nomatch impossible⟩
      · cases live
  distinct := by
    intro i j x y q live _ its
    rw [(tmpTree_inodes live).1] at its
    cases its
  contents := fun _ _ stored => nomatch stored

def tmpFile : Name := absolute [['t', 'm', 'p'], ['a']]

/-- No entry of any table is in use. -/
def allClosed (w : World) : Bool :=
  w.procs.all fun proc => (proc.openedFileTable.map fun table => decide (∀ fd, (table fd).fInode = none)).getD true

theorem not_openOn_of_allClosed (closed : allClosed w = true) (i : Ptr) : ¬ OpenOn w i := by
  rintro ⟨proc, member, -, table, fd, has, used⟩
  have every := List.all_eq_true.mp closed proc member
  rw [has, Option.map_some, Option.getD_some, decide_eq_true_eq] at every
  rw [every fd] at used
  cases used

/-- A RAM file is created, closed and then unlinked. -/
theorem no_descriptor_outlives_file_closed : ∃ w', Run (fun w event w' => FileStep w event w' ∧ FilesCareful w event)
    { fs := tmpTree, procs := [idle] }
    [⟨0, [], .open_ (some tmpFile) oCreat 0o644⟩, ⟨0, [], .close 3⟩, ⟨0, [], .unlink (some tmpFile)⟩] w' ∧
    NoneStale w' := by
  have returns : endsWith (fun first => endsWith (fun second => allClosed second.2 &&
        endsWith (fun _ => true) (perform second.2 ⟨0, [], .unlink (some tmpFile)⟩))
      (perform first.2 ⟨0, [], .close 3⟩))
      (perform { fs := tmpTree, procs := [idle] } ⟨0, [], .open_ (some tmpFile) oCreat 0o644⟩) = true := by
    decide +kernel
  obtain ⟨⟨ret₁, w₁⟩, opens, returns⟩ := exists_of_endsWith returns
  obtain ⟨⟨ret₂, w₂⟩, closes, returns⟩ := exists_of_endsWith returns
  rw [Bool.and_eq_true] at returns
  obtain ⟨⟨ret₃, w₃⟩, unlinks, -⟩ := exists_of_endsWith returns.2
  have careful : ∀ {w event}, (∀ path, event.call ≠ .rmdir (some path) ∧ event.call ≠ .unlink (some path)) →
      FilesCareful w event := by
    rintro w event other node j ⟨call, -⟩
    rcases call with call | call
    · exact absurd call (other _).1
    · exact absurd call (other _).2
  have run : Run (fun w event w' => FileStep w event w' ∧ FilesCareful w event) { fs := tmpTree, procs := [idle] }
      [⟨0, [], .open_ (some tmpFile) oCreat 0o644⟩, ⟨0, [], .close 3⟩, ⟨0, [], .unlink (some tmpFile)⟩] w₃ := by
    apply Run.cons ⟨⟨ret₁, opens⟩, careful fun path => ⟨nofun, nofun⟩⟩
    apply Run.cons ⟨⟨ret₂, closes⟩, careful fun path => ⟨nofun, nofun⟩⟩
    exact .single ⟨⟨ret₃, unlinks⟩, fun _ j _ => not_openOn_of_allClosed returns.1 j⟩
  exact ⟨w₃, run, no_descriptor_outlives_file _ tmpTree_owned (not_openOn_of_allClosed (by decide +kernel)) _ w₃ run⟩

/-- The descriptor `fd` of the first process refers to an inode whose `ramfile_info` is gone. -/
def lostInfo (w : World) (fd : Fin tableEntries) : Bool :=
  (w.procs.head?.map fun proc => proc.alive &&
    (proc.openedFileTable.map fun table => ((table fd).fInode.map fun i =>
      ((w.fs.inodes i).map fun x => (x.iPrivate.map fun q => (w.fs.infos q).isNone).getD false).getD false).getD
        false).getD false).getD false

theorem not_noneStale {fd : Fin tableEntries} (lost : lostInfo w fd = true) : ¬ NoneStale w := by
  intro fine
  cases procs : w.procs with
  | nil => simp [lostInfo, procs] at lost
  | cons proc rest =>
    cases has : proc.openedFileTable with
    | none => simp [lostInfo, procs, has] at lost
    | some table =>
      cases used : (table fd).fInode with
      | none => simp [lostInfo, procs, has, used] at lost
      | some i =>
        cases live : w.fs.inodes i with
        | none => simp [lostInfo, procs, has, used, live] at lost
        | some x =>
          cases its : x.iPrivate with
          | none => simp [lostInfo, procs, has, used, live, its] at lost
          | some q =>
            simp only [lostInfo, procs, has, used, live, its, List.head?_cons, Option.map_some, Option.getD_some,
              Bool.and_eq_true] at lost
            have opened : OpenOn w i := ⟨proc, by rw [procs]; exact List.mem_cons_self, lost.1, table, fd, has, used⟩
            obtain ⟨y, there, infos⟩ := fine i opened
            cases live.symm.trans there
            obtain ⟨info, stored, -⟩ := infos q its
            rw [stored] at lost
            cases lost.2

def unlinkOpen : List Event :=
  [⟨0, [], .open_ (some tmpFile) oCreat 0o644⟩, ⟨0, [], .unlink (some tmpFile)⟩]

/-- After boot, `/tmp/a` is created by an open and unlinked: its `ramfile_info` has been
released, and descriptor 3 still refers to its inode. -/
theorem unlink_releases_open_file : ∃ w w', bootWorld = .ok w ∧ Run FileStep w unlinkOpen w' ∧ ¬ NoneStale w' := by
  have ends : endsWith (fun w => endsWith (lostInfo · ⟨3, by decide⟩) (runFiles w unlinkOpen)) bootWorld = true := by
    decide +kernel
  obtain ⟨w, boots, ends⟩ := exists_of_endsWith ends
  obtain ⟨w', done, lost⟩ := exists_of_endsWith ends
  exact ⟨w, w', boots, run_of_runFiles done, not_noneStale lost⟩

end CreeperKernel.Vfs

import CreeperKernel.ResolvableNames
import CreeperKernel.VfsTreeRuns

namespace CreeperKernel.Vfs

open Transitions (Run)

/-- What is older than `fs` and still there in `fs'` has its name, its place and its operations. -/
structure Lasting (fs fs' : Fs) : Prop where
  later : fs.fresh ≤ fs'.fresh
  dentry : ∀ p d, p < fs.fresh → fs'.dentries p = some d →
    ∃ e, fs.dentries p = some e ∧ d.name = e.name ∧ d.parent = e.parent ∧ d.inode = e.inode
  inode : ∀ i x, i < fs.fresh → fs'.inodes i = some x → ∃ y, fs.inodes i = some y ∧ x.iOp = y.iOp

variable {fs fs' middle : Fs}

theorem Lasting.of_eq (later : fs.fresh ≤ fs'.fresh) (dentries : fs'.dentries = fs.dentries)
    (inodes : fs'.inodes = fs.inodes) : Lasting fs fs' where
  later := later
  dentry := fun _ d _ live => ⟨d, dentries ▸ live, rfl, rfl, rfl⟩
  inode := fun _ x _ live => ⟨x, inodes ▸ live, rfl⟩

theorem Lasting.trans (front : Lasting fs middle) (back : Lasting middle fs') : Lasting fs fs' where
  later := front.later.trans back.later
  dentry := by
    intro p d old live
    obtain ⟨e, between, name, parent, inode⟩ := back.dentry p d (Nat.lt_of_lt_of_le old front.later) live
    obtain ⟨e', before, name', parent', inode'⟩ := front.dentry p e old between
    exact ⟨e', before, name.trans name', parent.trans parent', inode.trans inode'⟩
  inode := by
    intro i x old live
    obtain ⟨y, between, ops⟩ := back.inode i x (Nat.lt_of_lt_of_le old front.later) live
    obtain ⟨z, before, ops'⟩ := front.inode i y old between
    exact ⟨z, before, ops.trans ops'⟩

theorem dentry_of_children {dentries : Ptr → Option Dentry} {home p : Ptr} {d x : Dentry} {children : List Ptr}
    (atHome : dentries home = some d) (live : Function.update dentries home (some { d with children }) p = some x) :
    ∃ e, dentries p = some e ∧ x.name = e.name ∧ x.parent = e.parent ∧ x.inode = e.inode := by
  by_cases same : p = home
  · subst same
    rw [Function.update_self] at live
    cases live
    exact ⟨d, atHome, rfl, rfl, rfl⟩
  · rw [Function.update_of_ne same] at live
    exact ⟨x, live, rfl, rfl, rfl⟩

theorem inode_of_update {inodes : Ptr → Option Inode} {i j : Ptr} {x y z : Inode} (found : inodes i = some x)
    (live : Function.update inodes i (some y) j = some z) (ops : y.iOp = x.iOp) :
    ∃ v, inodes j = some v ∧ z.iOp = v.iOp := by
  by_cases same : j = i
  · subst same
    rw [Function.update_self] at live
    cases live
    exact ⟨x, found, ops⟩
  · rw [Function.update_of_ne same] at live
    exact ⟨z, live, rfl⟩

theorem Added.lasting {dir home node i : Ptr} {name : Name} {inode : Inode}
    (added : Added fs dir home node i name inode fs') (fresh : Fresh fs) : Lasting fs fs' where
  later := added.newNode.1.trans (Nat.le_of_lt added.newNode.2)
  dentry := by
    intro p d old live
    obtain ⟨e, atHome, -, after⟩ := added.place
    have apart : home ≠ node := by
      rintro rfl
      rw [fresh.dentries home added.newNode.1] at atHome
      cases atHome
    rw [after] at live
    obtain ⟨x, there, same⟩ := dentry_of_children (by rw [Function.update_of_ne apart, atHome]) live
    rw [Function.update_of_ne (Nat.ne_of_lt (Nat.lt_of_lt_of_le old added.newNode.1))] at there
    exact ⟨x, there, same⟩
  inode := by
    intro j x old live
    rw [added.inodes, Function.update_of_ne (Nat.ne_of_lt (Nat.lt_of_lt_of_le old added.newInode.1))] at live
    exact ⟨x, live, rfl⟩

theorem Removed.lasting {home node i : Ptr} (removed : Removed fs home node i fs') : Lasting fs fs' where
  later := removed.fresh
  dentry := by
    intro p d old live
    obtain ⟨e, x, atHome, -, -, -, -, after⟩ := removed.place
    have other := (removed.dentries_cases live).1
    rw [after, Function.update_of_ne other] at live
    exact dentry_of_children atHome live
  inode := by
    intro j x old live
    obtain ⟨v, there, after | after, -⟩ := removed.inode
    · rw [after] at live
      by_cases same : j = i
      · rw [same, Function.update_self] at live
        cases live
      · rw [Function.update_of_ne same] at live
        exact ⟨x, live, rfl⟩
    · rw [after] at live
      exact inode_of_update there live rfl

variable {w w' : World} {event : Event} {path : Name}

theorem FileStep.lasting (step : FileStep w event w') (fresh : Fresh w.fs) : Lasting w.fs w'.fs := by
  obtain ⟨⟨fs₀, es, ⟨uid, gid, heap, rfl⟩, edits, may⟩⟩ := step.edits fresh
  have start : Fresh { w.fs with uid, gid, heap } := ⟨fresh.dentries, fresh.inodes, fresh.infos, fresh.homes⟩
  refine (edits.invariant (fun fs => Lasting w.fs fs ∧ Fresh fs) ?_ ?_ ⟨.of_eq (Nat.le_refl _) rfl rfl, start⟩).1
  · intro fs fs' good same
    exact ⟨good.1.trans (.of_eq same.fresh same.dentries same.inodes), same.keeps_fresh good.2⟩
  · intro fs e fs' member good step
    refine ⟨good.1.trans ?_, step.keeps_fresh good.2⟩
    have allowed := may e member
    cases step with
    | count n found =>
      exact ⟨Nat.le_refl _, fun p d _ live => ⟨d, live, rfl, rfl, rfl⟩, fun i x _ live => inode_of_update found live rfl⟩
    | add added => exact added.lasting good.2
    | remove removed => exact removed.lasting
    | retable => exact allowed.elim
    | lose lost =>
      obtain ⟨d, atHome, after⟩ := lost.place
      refine ⟨lost.newNode.1.trans (Nat.le_of_lt lost.newNode.2), fun p x _ live => ?_, fun i x _ live => ⟨x, lost.inodes ▸ live, rfl⟩⟩
      rw [after] at live
      exact dentry_of_children atHome live

section Walks

variable (lasting : Lasting fs fs') (fresh : Fresh fs) (tree : DirectoryTree fs) (tree' : DirectoryTree fs')
    {e : Dentry}
include lasting fresh tree tree'

/-- A child that is still there is still found under its name. -/
theorem Lasting.callLookup {p i c : Ptr} {name : Name} (behind : fs.inodeOf p = .ok i)
    (looked : callLookup fs i name = .ok (some c)) (alive : fs'.dentries c = some e) :
    ∃ d, fs'.dentries p = some d ∧ fs'.inodeOf p = .ok i ∧ callLookup fs' i name = .ok (some c) := by
  obtain ⟨d, live, its⟩ := inodeOf_eq_ok.mp behind
  obtain ⟨j, x, its', reached, back⟩ := tree.backed p d live
  cases its.symm.trans its'
  obtain ⟨ops, table, searched⟩ := bind_eq_ok.mp looked
  obtain ⟨x', home, d', reached', home', live', member, f, liveChild, named⟩ := vfsLookup_eq_some searched
  cases reached.symm.trans reached'
  cases back.symm.trans home'
  cases live.symm.trans live'
  -- the child names its parent, and a tree lists every child at its parent
  obtain ⟨cell, there, up⟩ := tree.tree.child p d.cell c (cells_eq live) member
  cases (cells_eq liveChild).symm.trans there
  obtain ⟨f', old, name', parent', -⟩ := lasting.dentry c e (fresh.dentries.lt liveChild) alive
  cases liveChild.symm.trans old
  obtain ⟨cell', above, member'⟩ := tree'.tree.linked c e.cell p (cells_eq alive) (parent'.trans up)
  obtain ⟨g, atParent, rfl⟩ := cells_eq_some above
  obtain ⟨g', older, -, -, inode'⟩ := lasting.dentry p g (fresh.dentries.lt live) atParent
  cases live.symm.trans older
  obtain ⟨k, y, its'', reachedNow, backNow⟩ := tree'.backed p g atParent
  cases its''.symm.trans (inode'.trans its)
  obtain ⟨x', before, same⟩ := lasting.inode i y (fresh.inodes.lt reached) reachedNow
  cases reached.symm.trans before
  have found : findNamed fs' e.name g.children = .ok (some c) := by
    apply findNamed_of_unique alive member'
    intro a listed
    obtain ⟨cell, child, -⟩ := tree'.tree.child p g.cell a (cells_eq atParent) listed
    obtain ⟨b, liveOther, rfl⟩ := cells_eq_some child
    exact ⟨b, liveOther, tree'.tree.named p g.cell (cells_eq atParent) a listed c member' _ _ child (cells_eq alive)⟩
  refine ⟨g, atParent, inodeOf_eq_ok.mpr ⟨g, atParent, its''⟩, ?_⟩
  have table' : operations fs' i = .ok ops := by
    rw [← table]
    simp only [operations, Fs.inode, reached, reachedNow, Fs.deref, same, bind, Except.bind]
  rw [name'.trans named] at found
  simp only [Vfs.callLookup, table', vfsLookup, inode_eq_ok.mpr reachedNow, deref_eq_ok.mpr backNow,
    dentry_eq_ok.mpr atParent, found, bind, Except.bind]

theorem Lasting.walk {tokens : List Name} (plain : ∀ token ∈ tokens, Plain token) {p d : Ptr}
    (alive : fs'.dentries d = some e) (walked : walk fs p tokens = .ok (some d)) :
    (∃ f, fs'.dentries p = some f) ∧ Vfs.walk fs' p tokens = .ok (some d) := by
  induction tokens generalizing p with
  | nil =>
    cases walked
    exact ⟨⟨e, alive⟩, rfl⟩
  | cons token rest ih =>
    obtain ⟨here, later⟩ := List.forall_mem_cons.mp plain
    rw [walk_plain fs p here] at walked
    obtain ⟨i, behind, walked⟩ := bind_eq_ok.mp walked
    obtain ⟨found, looked, walked⟩ := bind_eq_ok.mp walked
    cases found with
    | none => cases walked
    | some next =>
      obtain ⟨⟨f, below⟩, walked'⟩ := ih later walked
      obtain ⟨g, atParent, behind', looked'⟩ := lasting.callLookup fresh tree tree' behind looked below
      refine ⟨⟨g, atParent⟩, ?_⟩
      rw [walk_plain fs' p here, behind']
      simp only [Except.bind, looked', walked']

end Walks

/-- A path without `.` and `..` that starts at a dentry's inode keeps its meaning over any run of the calls,
by any processes, for as long as the dentry it leads to exists, if the dentries form a tree before and after
the run. -/
theorem path_keeps_meaning {w w' : World} {events : List Event} (run : Run FileStep w events w')
    (fresh : Fresh w.fs) (tree : DirectoryTree w.fs) (tree' : DirectoryTree w'.fs) {first start d : Ptr}
    (own : w.fs.inodeOf first = .ok start) (plain : ∀ token ∈ Tokens.tokens slash path, Plain token)
    (resolves : Resolves w.fs start path d) (alive : w'.fs.dentries d ≠ none) : Resolves w'.fs start path d := by
  have lasting : Lasting w.fs w'.fs ∧ Fresh w'.fs := by
    refine run.invariant (fun after => Lasting w.fs after.fs ∧ Fresh after.fs) ?_ ⟨.of_eq (Nat.le_refl _) rfl rfl, fresh⟩
    intro s event s' good step
    exact ⟨good.1.trans (step.lasting good.2), step.keeps_fresh good.2⟩
  obtain ⟨x, home, reached, back, walked⟩ := resolves
  obtain ⟨e, live, its⟩ := inodeOf_eq_ok.mp own
  obtain ⟨i, y, its', reached', back'⟩ := tree.backed first e live
  cases its.symm.trans its'
  cases reached.symm.trans reached'
  cases back.symm.trans back'
  obtain ⟨f, there⟩ := Option.ne_none_iff_exists'.mp alive
  obtain ⟨⟨g, liveNow⟩, walked'⟩ := lasting.1.walk fresh tree tree' plain there walked
  obtain ⟨e', old, -, -, inode⟩ := lasting.1.dentry first g (fresh.dentries.lt live) liveNow
  cases live.symm.trans old
  obtain ⟨j, z, itsNow, reachedNow, backNow⟩ := tree'.backed first g liveNow
  cases itsNow.symm.trans (inode.trans its)
  exact ⟨z, first, reachedNow, backNow, walked'⟩

/-- The process 0 makes a directory in the root. -/
theorem mkdir_in_root {ret : Int} (sound : Sound fs) (root : rootIsDirectory fs = true)
    (own : pathResolveStart (fs.seenBy idle []) idle path = .ok (some 0))
    (above : Tokens.tokens slash (splitLast path).1 = [])
    (done : kpathMkdir (fs.seenBy idle []) 0 path 0o755 = .ok (ret, fs')) :
    FileStep ⟨fs, [idle]⟩ ⟨0, [], .mkdir (some path) 0o755⟩ ⟨fs', [idle]⟩ ∧ Sound fs' := by
  have sound' : Sound (fs.seenBy idle []) :=
    ⟨⟨sound.fresh.dentries, sound.fresh.inodes, sound.fresh.infos, sound.fresh.homes⟩,
      ⟨sound.tree.tree, sound.tree.backed, sound.tree.directories⟩⟩
  obtain ⟨es, new, edits⟩ := kpathMkdir_edits sound'.fresh done
  refine ⟨⟨ret, ?_⟩, new.keeps_sound edits sound' (fun never => never.elim) (parentIsDirectory_root root above)⟩
  show onPath _ 0 [] pathResolveStart (some path) _ = _
  have mode : (0o755 : BitVec 32).setWidth 16 = 0o755 := by decide
  have alive : World.current ⟨fs, [idle]⟩ 0 = .ok idle := rfl
  simp only [onPath, withPath, alive, mode, bind, Except.bind]
  rw [own]
  rw [kpathMkdir] at done
  dsimp only
  rw [done]

/-- The path `/sys`, after a second directory has been made in the root. -/
theorem path_keeps_meaning_root : ∃ w w', Run FileStep rootWorld [⟨0, [], .mkdir (some (absolute [sys])) 0o755⟩] w ∧
    Run FileStep w [⟨0, [], .mkdir (some (absolute [dev])) 0o755⟩] w' ∧ Resolves w'.fs 0 (absolute [sys]) 3 := by
  have ends : endsWith (fun x => (rootIsDirectory x.2 && endsWith (· == some 0) (pathResolveStart (x.2.seenBy idle []) idle
      (absolute [dev])) && endsWith (· == some 3) (walk x.2 0 (Tokens.tokens slash (absolute [sys])))) &&
      endsWith (fun y => (y.2.dentries 3).isSome) (kpathMkdir (x.2.seenBy idle []) 0 (absolute [dev]) 0o755))
      (kpathMkdir (tmpRoot.seenBy idle []) 0 (absolute [sys]) 0o755) = true := by decide +kernel
  obtain ⟨⟨ret, fs₁⟩, made, ends⟩ := exists_of_endsWith ends
  simp only [Bool.and_eq_true] at ends
  obtain ⟨⟨⟨root, start⟩, walked⟩, ends⟩ := ends
  obtain ⟨⟨ret', fs₂⟩, made', alive⟩ := exists_of_endsWith ends
  obtain ⟨_, start, same⟩ := exists_of_endsWith start
  cases beq_iff_eq.mp same
  obtain ⟨_, walked, same⟩ := exists_of_endsWith walked
  cases beq_iff_eq.mp same
  obtain ⟨first, sound⟩ := mkdir_in_root tmpRoot_sound (by decide) rfl (by decide) made
  obtain ⟨second, sound'⟩ := mkdir_in_root sound root start (by decide) made'
  have run : Run FileStep ⟨fs₁, [idle]⟩ [⟨0, [], .mkdir (some (absolute [dev])) 0o755⟩] ⟨fs₂, [idle]⟩ := .single second
  obtain ⟨d, x, live, there, its, home⟩ := rootIsDirectory_iff.mp root
  exact ⟨_, _, .single first, run, path_keeps_meaning run sound.fresh sound.tree sound'.tree
    (inodeOf_eq_ok.mpr ⟨d, live, its⟩) (by decide) ⟨x, 0, there, home.1, walked⟩ (Option.isSome_iff_ne_none.mp alive)⟩

end CreeperKernel.Vfs

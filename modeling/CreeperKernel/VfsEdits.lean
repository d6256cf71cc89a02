import CreeperKernel.VfsLookup

namespace CreeperKernel.Vfs

/-- No object lies at an address from `limit` on. -/
def Unused {α : Type} (limit : Ptr) (objects : Ptr → Option α) : Prop := ∀ p, limit ≤ p → objects p = none

variable {α : Type} {limit p : Ptr} {objects : Ptr → Option α} {limit' : Ptr}

theorem Unused.mono (unused : Unused limit objects) (later : limit ≤ limit') : Unused limit' objects :=
  fun p new => unused p (Nat.le_trans later new)

theorem Unused.update {x : Option α} (unused : Unused limit objects)
    (below : p < limit) : Unused limit (Function.update objects p x) := by
  intro q new
  rw [Function.update_of_ne (Nat.ne_of_gt (Nat.lt_of_lt_of_le below new))]
  exact unused q new

theorem Unused.lt {x : α} (unused : Unused limit objects) (live : objects p = some x) : p < limit := by
  by_contra new
  rw [unused p (Nat.not_lt.mp new)] at live
  cases live

theorem Unused.replace {x : α} {y : Option α}
    (unused : Unused limit objects) (later : limit ≤ limit') (live : objects p = some x) :
    Unused limit' (Function.update objects p y) :=
  (unused.mono later).update (Nat.lt_of_lt_of_le (unused.lt live) later)

/-- The addresses from `fresh` on have not been handed out. -/
structure Fresh (fs : Fs) : Prop where
  dentries : Unused fs.fresh fs.dentries
  inodes : Unused fs.fresh fs.inodes
  infos : Unused fs.fresh fs.infos
  homes : ∀ i x p, fs.inodes i = some x → x.iDentry = some p → p < fs.fresh

variable {fs fs' : Fs}

theorem Same.keeps_fresh (same : Same fs fs') (fresh : Fresh fs) : Fresh fs' where
  dentries := same.dentries ▸ fresh.dentries.mono same.fresh
  inodes := same.inodes ▸ fresh.inodes.mono same.fresh
  infos := same.infos ▸ fresh.infos.mono same.fresh
  homes := fun i x p live home =>
    Nat.lt_of_lt_of_le (fresh.homes i x p (same.inodes ▸ live) home) same.fresh

theorem Fresh.of_heap (fresh : Fresh fs) (heap : List Bool) : Fresh { fs with heap } :=
  ⟨fresh.dentries, fresh.inodes, fresh.infos, fresh.homes⟩

theorem Fresh.homes_update (fresh : Fresh fs) {i : Ptr} {y : Option Inode} (later : fs.fresh ≤ limit)
    (back : ∀ x p, y = some x → x.iDentry = some p → p < limit) :
    ∀ j x p, Function.update fs.inodes i y j = some x → x.iDentry = some p → p < limit := by
  intro j x p live home
  by_cases same : j = i
  · subst same
    rw [Function.update_self] at live
    exact back x p live home
  · rw [Function.update_of_ne same] at live
    exact Nat.lt_of_lt_of_le (fresh.homes j x p live home) later

/-- The `ramfile_info` that a new inode has, if it has one, is new and empty. -/
def NewInfo (fs : Fs) (inode : Inode) (fs' : Fs) : Prop :=
  (inode.iPrivate = none ∧ fs'.infos = fs.infos) ∨ ∃ p, inode.iPrivate = some p ∧ fs.fresh ≤ p ∧
    p < fs'.fresh ∧ fs'.infos = Function.update fs.infos p (some { start := 0, size := 0, fixedSize := false })

/-- The inode `i` of the dentry `node` is new. -/
structure NewInode (fs : Fs) (node i : Ptr) (inode : Inode) (fs' : Fs) : Prop where
  inodes : fs'.inodes = Function.update fs.inodes i (some inode)
  back : inode.iDentry = some node
  count : inode.iCount = 0
  infos : NewInfo fs inode fs'
  freed : fs'.freed = fs.freed
  rootDentry : fs'.rootDentry = fs.rootDentry
  newInode : fs.fresh ≤ i ∧ i < fs'.fresh
  heap : fs.heap = [] → fs'.heap = []

/-- The dentry `node` has been created for a new inode `i`. Its parent is `dir`; the list it
is put into belongs to the dentry `home` that the parent's inode refers to. -/
structure Added (fs : Fs) (dir home node i : Ptr) (name : Name) (inode : Inode) (fs' : Fs) : Prop
    extends NewInode fs node i inode fs' where
  owner : ∃ j x, fs.inodeOf dir = .ok j ∧ fs.inodes j = some x ∧ x.iDentry = some home
  place : ∃ d, fs.dentries home = some d ∧
    (∀ c ∈ d.children, ∀ x, fs.dentries c = some x → x.name ≠ name) ∧
    fs'.dentries = Function.update (Function.update fs.dentries node
      (some { name, parent := some dir, inode := some i, children := [] }))
      home (some { d with children := node :: d.children })
  newNode : fs.fresh ≤ node ∧ node < fs'.fresh

/-- The dentry `node` has been unlinked from the list of `home` and released, with its inode
unless that is a file still counted. -/
structure Removed (fs : Fs) (home node i : Ptr) (fs' : Fs) : Prop where
  place : ∃ d x, fs.dentries home = some d ∧ node ∈ d.children ∧ fs.dentries node = some x ∧ x.inode = some i ∧
    (∀ v, fs.inodes i = some v → sIsdir v.iMode = true → x.children = []) ∧
    fs'.dentries = Function.update (Function.update fs.dentries home
      (some { d with children := d.children.erase node })) node none
  inode : ∃ v, fs.inodes i = some v ∧ (fs'.inodes = Function.update fs.inodes i none ∨
      fs'.inodes = Function.update fs.inodes i (some { v with iCount := v.iCount - 1 })) ∧
    (v.iPrivate = none ∧ fs'.infos = fs.infos ∨ ∃ p, v.iPrivate = some p ∧
      fs'.infos = Function.update fs.infos p none)
  freed : fs'.freed = fs.freed ∨ ∃ v p info, fs.inodes i = some v ∧ v.iPrivate = some p ∧
    fs.infos p = some info ∧ info.fixedSize = false ∧ info.start ≠ 0 ∧ fs'.freed = info.start :: fs.freed
  rootDentry : fs'.rootDentry = fs.rootDentry
  fresh : fs.fresh ≤ fs'.fresh
  heap : fs.heap = [] → fs'.heap = []

/-- The inode `i` has been given other operations and contents. -/
structure Retabled (fs : Fs) (i : Ptr) (fs' : Fs) : Prop where
  dentries : fs'.dentries = fs.dentries
  inode : ∃ x y, fs.inodes i = some x ∧ fs'.inodes = Function.update fs.inodes i (some y) ∧
    y.iDentry = x.iDentry ∧ y.iMode = x.iMode ∧ y.iCount = x.iCount
  infos : fs'.infos = fs.infos ∨
    ∃ p info, fs.fresh ≤ p ∧ p < fs'.fresh ∧ fs'.infos = Function.update fs.infos p (some info)
  rootDentry : fs'.rootDentry = fs.rootDentry
  fresh : fs.fresh ≤ fs'.fresh
  heap : fs.heap = [] → fs'.heap = []

/-- A dentry without memory for its contents has been linked and then released. -/
structure Lost (fs : Fs) (home node : Ptr) (fs' : Fs) : Prop where
  place : ∃ d, fs.dentries home = some d ∧
    fs'.dentries = Function.update fs.dentries home (some { d with children := node :: d.children })
  inodes : fs'.inodes = fs.inodes
  infos : fs'.infos = fs.infos
  freed : fs'.freed = fs.freed
  rootDentry : fs'.rootDentry = fs.rootDentry
  newNode : fs.fresh ≤ node ∧ node < fs'.fresh

inductive Edit where
  | count (i : Ptr) (by_ : Int)
  | add (dir home node i : Ptr) (name : Name) (inode : Inode)
  | remove (home node i : Ptr)
  | retable (i : Ptr)
  | lose (home node : Ptr)

/-- The elementary changes that the operations on paths are made of. -/
inductive EditStep : Fs → Edit → Fs → Prop where
  | count {fs : Fs} {i : Ptr} {inode : Inode} (by_ : Int) (found : fs.inodes i = some inode) :
      EditStep fs (.count i by_) (fs.setInode i { inode with iCount := inode.iCount + by_ })
  | add {fs fs' : Fs} {dir home node i : Ptr} {name : Name} {inode : Inode}
      (added : Added fs dir home node i name inode fs') : EditStep fs (.add dir home node i name inode) fs'
  | remove {fs fs' : Fs} {home node i : Ptr} (removed : Removed fs home node i fs') :
      EditStep fs (.remove home node i) fs'
  | retable {fs fs' : Fs} {i : Ptr} (retabled : Retabled fs i fs') : EditStep fs (.retable i) fs'
  | lose {fs fs' : Fs} {home node : Ptr} (lost : Lost fs home node fs') : EditStep fs (.lose home node) fs'

/-- Edits one after the other, with allocations in between. -/
inductive Edits : Fs → List Edit → Fs → Prop where
  | nil {fs fs' : Fs} (same : Same fs fs') : Edits fs [] fs'
  | cons {fs fs₁ fs₂ fs' : Fs} {e : Edit} {es : List Edit} (before : Same fs fs₁) (first : EditStep fs₁ e fs₂)
      (rest : Edits fs₂ es fs') : Edits fs (e :: es) fs'

variable {es : List Edit}

theorem Edits.append {middle : Fs} {es' : List Edit} (front : Edits fs es middle) (back : Edits middle es' fs') :
    Edits fs (es ++ es') fs' := by
  induction front with
  | nil same =>
    cases back with
    | nil later => exact .nil (same.trans later)
    | cons before first rest => exact .cons (same.trans before) first rest
  | cons before first _ ih => exact .cons before first (ih back)

variable {e : Edit}

theorem Edits.single {fs₁ fs₂ : Fs} (before : Same fs fs₁) (step : EditStep fs₁ e fs₂) (after : Same fs₂ fs') :
    Edits fs [e] fs' :=
  .cons before step (.nil after)

/-- What the allocator does not touch and every edit keeps, a sequence of edits keeps. -/
theorem Edits.invariant (inv : Fs → Prop) (same : ∀ fs fs', inv fs → Same fs fs' → inv fs')
    (each : ∀ fs e fs', e ∈ es → inv fs → EditStep fs e fs' → inv fs') (edits : Edits fs es fs') (start : inv fs) :
    inv fs' := by
  induction edits with
  | nil unchanged => exact same _ _ start unchanged
  | cons before first _ ih =>
    apply ih
    · exact fun fs e fs' member => each fs e fs' (List.mem_cons_of_mem _ member)
    · exact each _ _ _ List.mem_cons_self (same _ _ start before) first

theorem EditStep.keeps_fresh (step : EditStep fs e fs') (fresh : Fresh fs) : Fresh fs' := by
  cases step with
  | count by_ found =>
    refine ⟨fresh.dentries, fresh.inodes.update (fresh.inodes.lt found), fresh.infos, ?_⟩
    apply fresh.homes_update (Nat.le_refl _)
    intro x p same home
    cases same
    exact fresh.homes _ _ p found home
  | add added =>
    obtain ⟨d, live, -, dentries⟩ := added.place
    have later : fs.fresh ≤ fs'.fresh := Nat.le_of_lt (Nat.lt_of_le_of_lt added.newNode.1 added.newNode.2)
    refine ⟨?_, ?_, ?_, ?_⟩
    · rw [dentries]
      apply Unused.update
      · exact Unused.update (fresh.dentries.mono later) added.newNode.2
      · exact Nat.lt_of_lt_of_le (fresh.dentries.lt live) later
    · rw [added.inodes]
      exact Unused.update (fresh.inodes.mono later) added.newInode.2
    · rcases added.infos with ⟨-, same⟩ | ⟨p, -, -, below, same⟩
      · rw [same]
        exact fresh.infos.mono later
      · rw [same]
        exact Unused.update (fresh.infos.mono later) below
    · rw [added.inodes]
      apply fresh.homes_update later
      intro x p same home
      cases same
      cases added.back.symm.trans home
      exact added.newNode.2
  | remove removed =>
    obtain ⟨d, x, home, -, node, -, -, dentries⟩ := removed.place
    obtain ⟨v, live, inodes, infos⟩ := removed.inode
    have later := removed.fresh
    refine ⟨?_, ?_, ?_, ?_⟩
    · rw [dentries]
      exact (fresh.dentries.replace later home).update (Nat.lt_of_lt_of_le (fresh.dentries.lt node) later)
    · rcases inodes with same | same <;> rw [same] <;> exact fresh.inodes.replace later live
    · rcases infos with ⟨-, same⟩ | ⟨p, -, same⟩
      · rw [same]
        exact fresh.infos.mono later
      · rw [same]
        intro q new
        rw [Function.update_apply]
        split
        · rfl
        · exact fresh.infos.mono later q new
    · rcases inodes with same | same <;> rw [same] <;> apply fresh.homes_update later <;> intro x p this home
      · cases this
      · cases this
        exact Nat.lt_of_lt_of_le (fresh.homes _ _ p live home) later
  | retable retabled =>
    obtain ⟨x, y, live, inodes, keeps, -⟩ := retabled.inode
    have later := retabled.fresh
    refine ⟨?_, ?_, ?_, ?_⟩
    · rw [retabled.dentries]
      exact fresh.dentries.mono later
    · rw [inodes]
      exact fresh.inodes.replace later live
    · rcases retabled.infos with same | ⟨p, info, -, below, same⟩
      · rw [same]
        exact fresh.infos.mono later
      · rw [same]
        exact Unused.update (fresh.infos.mono later) below
    · rw [inodes]
      apply fresh.homes_update later
      intro z p same home
      cases same
      exact Nat.lt_of_lt_of_le (fresh.homes _ _ p live (keeps ▸ home)) later
  | lose lost =>
    obtain ⟨d, live, dentries⟩ := lost.place
    have later : fs.fresh ≤ fs'.fresh := Nat.le_of_lt (Nat.lt_of_le_of_lt lost.newNode.1 lost.newNode.2)
    refine ⟨?_, ?_, ?_, ?_⟩
    · rw [dentries]
      exact fresh.dentries.replace later live
    · rw [lost.inodes]
      exact fresh.inodes.mono later
    · rw [lost.infos]
      exact fresh.infos.mono later
    · rw [lost.inodes]
      exact fun j x p live home => Nat.lt_of_lt_of_le (fresh.homes j x p live home) later

theorem Edits.keeps_fresh (edits : Edits fs es fs') (fresh : Fresh fs) : Fresh fs' :=
  edits.invariant Fresh (fun _ _ fresh same => same.keeps_fresh fresh)
    (fun _ _ _ _ fresh step => step.keeps_fresh fresh) fresh

end CreeperKernel.Vfs

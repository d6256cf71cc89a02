import CreeperKernel.Vfs

namespace CreeperKernel.Vfs

/-- A token that the walk looks up in a directory. -/
def Plain (token : Name) : Prop := token ≠ dot ∧ token ≠ dotdot

instance (token : Name) : Decidable (Plain token) := inferInstanceAs (Decidable (_ ∧ _))

/-- `path` leads from `start` to the dentry `d`. -/
def Resolves (fs : Fs) (start : Ptr) (path : Name) (d : Ptr) : Prop :=
  ∃ inode first, fs.inodes start = some inode ∧ inode.iDentry = some first ∧
    walk fs first (Tokens.tokens slash path) = .ok (some d)

/-- Nothing but the allocator has been touched. -/
structure Same (fs fs' : Fs) : Prop where
  dentries : fs'.dentries = fs.dentries
  inodes : fs'.inodes = fs.inodes
  infos : fs'.infos = fs.infos
  freed : fs'.freed = fs.freed
  rootDentry : fs'.rootDentry = fs.rootDentry
  uid : fs'.uid = fs.uid
  gid : fs'.gid = fs.gid
  fresh : fs.fresh ≤ fs'.fresh
  heap : fs.heap = [] → fs'.heap = []

theorem Same.refl (fs : Fs) : Same fs fs :=
  ⟨rfl, rfl, rfl, rfl, rfl, rfl, rfl, Nat.le_refl _, id⟩

variable {middle fs fs' : Fs}

theorem Same.trans (front : Same fs middle) (back : Same middle fs') : Same fs fs' where
  dentries := back.dentries.trans front.dentries
  inodes := back.inodes.trans front.inodes
  infos := back.infos.trans front.infos
  freed := back.freed.trans front.freed
  rootDentry := back.rootDentry.trans front.rootDentry
  uid := back.uid.trans front.uid
  gid := back.gid.trans front.gid
  fresh := Nat.le_trans front.fresh back.fresh
  heap := fun enough => back.heap (front.heap enough)

theorem kmalloc_same {p : Option Ptr} (done : fs.kmalloc = (p, fs')) :
    Same fs fs' ∧ ∀ q, p = some q → q = fs.fresh ∧ fs.fresh < fs'.fresh := by
  unfold Fs.kmalloc at done
  split at done
  · cases done
    exact ⟨⟨rfl, rfl, rfl, rfl, rfl, rfl, rfl, Nat.le_succ _, id⟩,
      fun q same => by cases same; exact ⟨rfl, Nat.lt_succ_self _⟩⟩
  · rename_i script
    cases done
    exact ⟨⟨rfl, rfl, rfl, rfl, rfl, rfl, rfl, Nat.le_succ _, fun enough => by rw [enough] at script; cases script⟩,
      fun q same => by cases same; exact ⟨rfl, Nat.lt_succ_self _⟩⟩
  · rename_i script
    cases done
    exact ⟨⟨rfl, rfl, rfl, rfl, rfl, rfl, rfl, Nat.le_refl _, fun enough => by rw [enough] at script; cases script⟩,
      fun q same => nomatch same⟩

theorem kmalloc_of_heap_nil (enough : fs.heap = []) :
    fs.kmalloc = (some fs.fresh, { fs with fresh := fs.fresh + 1 }) := by
  unfold Fs.kmalloc
  rw [enough]

section Reads

variable {fs fs' : Fs}

theorem deref_eq_ok {α : Type} {x : Option α} {y : α} : Fs.deref x = .ok y ↔ x = some y := by
  unfold Fs.deref
  split <;> simp

variable {p i : Ptr}

theorem dentry_eq_ok {d : Dentry} : fs.dentry p = .ok d ↔ fs.dentries p = some d := deref_eq_ok

theorem inode_eq_ok {i : Inode} : fs.inode p = .ok i ↔ fs.inodes p = some i := deref_eq_ok

theorem bind_eq_ok {ε α β : Type} {first : Except ε α} {next : α → Except ε β} {y : β} :
    (first >>= next) = .ok y ↔ ∃ x, first = .ok x ∧ next x = .ok y := by
  cases first with
  | ok x => simp [bind, Except.bind]
  | error e => simp [bind, Except.bind]

theorem inodeOf_eq_ok : fs.inodeOf p = .ok i ↔ ∃ d, fs.dentries p = some d ∧ d.inode = some i := by
  unfold Fs.inodeOf
  rw [bind_eq_ok]
  simp only [dentry_eq_ok, deref_eq_ok]

theorem inodeOf_congr (dentries : fs'.dentries = fs.dentries) (p : Ptr) : fs'.inodeOf p = fs.inodeOf p := by
  simp only [Fs.inodeOf, Fs.dentry, dentries]

theorem findNamed_congr (dentries : fs'.dentries = fs.dentries) (name : Name) (children : List Ptr) :
    findNamed fs' name children = findNamed fs name children := by
  induction children with
  | nil => rfl
  | cons c rest ih =>
    simp only [findNamed, Fs.dentry, dentries, ih]

/-- A walk reads the names and links of dentries, and where the inodes' dentries and operation
tables are. -/
structure SameWalk (fs fs' : Fs) : Prop where
  dentries : fs'.dentries = fs.dentries
  inodes : ∀ i, (fs'.inodes i).map (fun x => (x.iDentry, x.iOp)) = (fs.inodes i).map fun x => (x.iDentry, x.iOp)

theorem Same.walk (same : Same fs fs') : SameWalk fs fs' := ⟨same.dentries, fun i => by rw [same.inodes]⟩

theorem operations_congr (same : SameWalk fs fs') (dir : Ptr) : operations fs' dir = operations fs dir := by
  have here := same.inodes dir
  unfold operations Fs.inode Fs.deref
  cases before : fs.inodes dir with
  | none =>
    rw [before, Option.map_none, Option.map_eq_none_iff] at here
    rw [here]
  | some x =>
    rw [before, Option.map_some, Option.map_eq_some_iff] at here
    obtain ⟨y, after, pair⟩ := here
    rw [after]
    simp only [Prod.mk.injEq] at pair
    simp only [bind, Except.bind, pair.2]

theorem vfsLookup_congr (same : SameWalk fs fs') (dir : Ptr) (name : Name) :
    vfsLookup fs' dir name = vfsLookup fs dir name := by
  have here := same.inodes dir
  unfold vfsLookup Fs.inode
  cases before : fs.inodes dir with
  | none =>
    rw [before, Option.map_none, Option.map_eq_none_iff] at here
    rw [here]
    rfl
  | some x =>
    rw [before, Option.map_some, Option.map_eq_some_iff] at here
    obtain ⟨y, after, pair⟩ := here
    rw [after]
    simp only [Prod.mk.injEq] at pair
    simp only [Fs.deref, bind, Except.bind, pair.1, Fs.dentry, same.dentries, findNamed_congr same.dentries]

theorem callLookup_congr (same : SameWalk fs fs') (dir : Ptr) (name : Name) :
    callLookup fs' dir name = callLookup fs dir name := by
  simp only [callLookup, operations_congr same, vfsLookup_congr same]

theorem walk_congr (same : SameWalk fs fs') (curr : Ptr) (tokens : List Name) :
    walk fs' curr tokens = walk fs curr tokens := by
  induction tokens generalizing curr with
  | nil => rfl
  | cons token rest ih =>
    simp only [walk, Fs.dentry, same.dentries, inodeOf_congr same.dentries, callLookup_congr same, ih]

theorem sameWalk_setInode {x y : Inode} (found : fs.inodes i = some x) (home : y.iDentry = x.iDentry)
    (ops : y.iOp = x.iOp) : SameWalk fs (fs.setInode i y) := by
  refine ⟨rfl, fun j => ?_⟩
  by_cases same : j = i
  · subst same
    simp [Fs.setInode, found, home, ops]
  · simp [Fs.setInode, Function.update_of_ne same]

end Reads

section Steps

theorem walk_dot (fs : Fs) (curr : Ptr) (rest : List Name) : walk fs curr (dot :: rest) = walk fs curr rest := by
  rw [walk, if_pos rfl]

theorem walk_dotdot (fs : Fs) (curr : Ptr) (rest : List Name) : walk fs curr (dotdot :: rest) =
    (fs.dentry curr).bind fun d => walk fs (d.parent.getD curr) rest := by
  rw [walk, if_neg (by decide), if_pos rfl]
  rfl

theorem walk_plain (fs : Fs) (curr : Ptr) {token : Name} (plain : Plain token) (rest : List Name) :
    walk fs curr (token :: rest) = (fs.inodeOf curr).bind fun i => (callLookup fs i token).bind fun found =>
      match found with
      | none => .ok none
      | some next => walk fs next rest := by
  rw [walk, if_neg plain.1, if_neg plain.2]
  rfl

end Steps

/-- The file system after `i_count` of the inode `i` has gone up by one. -/
def counted (fs : Fs) (i : Ptr) (inode : Inode) : Fs :=
  fs.setInode i { inode with iCount := inode.iCount + 1 }

variable {path : Name} {found : Option Ptr} {start i : Ptr}

/-- What `kpath_lookup` does: nothing if it finds nothing, and else it raises one count. -/
theorem kpathLookup_cases (done : kpathLookup fs start path = .ok (found, fs')) :
    (found = none ∧ Same fs fs') ∨ ∃ d i inode, found = some d ∧ Resolves fs start path d ∧
      fs.inodeOf d = .ok i ∧ fs.inodes i = some inode ∧ Same (counted fs i inode) fs' := by
  unfold kpathLookup at done
  split at done
  · rename_i fs₁ failed
    cases done
    exact .inl ⟨rfl, (kmalloc_same failed).1⟩
  · rename_i p fs₁ copied
    have same := (kmalloc_same copied).1
    obtain ⟨inode, started, done⟩ := bind_eq_ok.mp done
    obtain ⟨first, home, done⟩ := bind_eq_ok.mp done
    obtain ⟨result, walked, done⟩ := bind_eq_ok.mp done
    rw [inode_eq_ok, same.inodes] at started
    rw [deref_eq_ok] at home
    rw [walk_congr same.walk] at walked
    cases result with
    | none =>
      cases done
      exact .inl ⟨rfl, same⟩
    | some curr =>
      obtain ⟨i, behind, done⟩ := bind_eq_ok.mp done
      obtain ⟨last, reached, done⟩ := bind_eq_ok.mp done
      cases done
      rw [inodeOf_congr same.dentries] at behind
      rw [inode_eq_ok, same.inodes] at reached
      refine .inr ⟨curr, i, last, rfl, ⟨inode, first, started, home, walked⟩, behind, reached, ?_⟩
      refine ⟨same.dentries, ?_, same.infos, same.freed, same.rootDentry, same.uid, same.gid, same.fresh, same.heap⟩
      simp only [counted, Fs.setInode, same.inodes]

variable {inode : Inode}

theorem sameWalk_counted (found : fs.inodes i = some inode) : SameWalk fs (counted fs i inode) :=
  sameWalk_setInode found rfl rfl

theorem SameWalk.symm (same : SameWalk fs fs') : SameWalk fs' fs :=
  ⟨same.dentries.symm, fun i => (same.inodes i).symm⟩

theorem SameWalk.trans (front : SameWalk fs middle) (back : SameWalk middle fs') : SameWalk fs fs' :=
  ⟨back.dentries.trans front.dentries, fun i => (back.inodes i).trans (front.inodes i)⟩

theorem sameWalk_heap (fs : Fs) (heap : List Bool) : SameWalk fs { fs with heap } := ⟨rfl, fun _ => rfl⟩

theorem kpathLookup_sameWalk (done : kpathLookup fs start path = .ok (found, fs')) : SameWalk fs fs' := by
  rcases kpathLookup_cases done with ⟨-, same⟩ | ⟨d, i, inode, -, -, -, reached, same⟩
  · exact same.walk
  · exact (sameWalk_counted reached).trans same.walk

theorem kpathLookup_of_resolves {d : Ptr} (enough : fs.heap = []) (resolves : Resolves fs start path d)
    (behind : fs.inodeOf d = .ok i) (reached : fs.inodes i = some inode) :
    kpathLookup fs start path =
      .ok (some d, { counted fs i inode with fresh := fs.fresh + 1 }) := by
  obtain ⟨from_, first, started, home, walked⟩ := resolves
  have same : Same fs { fs with fresh := fs.fresh + 1 } :=
    ⟨rfl, rfl, rfl, rfl, rfl, rfl, rfl, Nat.le_succ _, id⟩
  have start' : ({ fs with fresh := fs.fresh + 1 } : Fs).inode start = .ok from_ := inode_eq_ok.mpr started
  have home' : Fs.deref from_.iDentry = .ok first := deref_eq_ok.mpr home
  have walked' := (walk_congr same.walk first (Tokens.tokens slash path)).trans walked
  have behind' := (inodeOf_congr same.dentries d).trans behind
  have reached' : ({ fs with fresh := fs.fresh + 1 } : Fs).inode i = .ok inode := inode_eq_ok.mpr reached
  simp only [kpathLookup, kmalloc_of_heap_nil enough, bind, Except.bind, start', home', walked', behind', reached']
  rfl

theorem newDentry_cases {name : Name} {parent : Ptr} {node : Option Ptr} (done : newDentry fs name parent = (node, fs')) :
    (node = none ∧ Same fs fs') ∨ (node = some fs.fresh ∧ fs.fresh < fs'.fresh ∧
      ∃ fs₁, Same fs fs₁ ∧ fs₁.fresh = fs'.fresh ∧ fs' = fs₁.setDentry fs.fresh
        { name, parent := some parent, inode := none, children := [] }) := by
  unfold newDentry at done
  split at done
  · rename_i fs₁ failed
    cases done
    exact .inl ⟨rfl, (kmalloc_same failed).1⟩
  · rename_i p fs₁ first
    obtain ⟨same, new⟩ := kmalloc_same first
    obtain ⟨rfl, later⟩ := new p rfl
    split at done
    · rename_i fs₂ failed
      cases done
      exact .inl ⟨rfl, same.trans (kmalloc_same failed).1⟩
    · rename_i q fs₂ second
      cases done
      have more := (kmalloc_same second).1
      exact .inr ⟨rfl, Nat.lt_of_lt_of_le later more.fresh, fs₂, same.trans more, rfl, rfl⟩

end CreeperKernel.Vfs

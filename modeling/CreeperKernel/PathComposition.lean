import CreeperKernel.PathReversal

namespace CreeperKernel.Vfs

/-- The dentry that `kpath_lookup` returns when there is memory for its copy of the path. -/
def lookupPath (fs : Fs) (start : Ptr) (path : Name) : Except Stop (Option Ptr) :=
  (kpathLookup { fs with heap := [] } start path).map Prod.fst

/-- `split_path`, with memory for its copies. -/
def splitPath (path : Name) : Option (Name × Name) :=
  if (splitLast path).2 = [] then none else some (splitLast path)

/-- The child of a dentry with this name. -/
def childNamed (fs : Fs) (dentry : Ptr) (name : Name) : Except Stop (Option Ptr) := do
  let d ← fs.dentry dentry
  findNamed fs name d.children

/-- The children and parents of dentries are live, all use `vfs_lookup`, and their inodes point back to them. -/
structure LookupTree (fs : Fs) : Prop where
  child : ∀ p d c, fs.dentries p = some d → c ∈ d.children → ∃ e, fs.dentries c = some e
  parent : ∀ p d q, fs.dentries p = some d → d.parent = some q → ∃ e, fs.dentries q = some e
  lookups : ∀ p d, fs.dentries p = some d →
    ∃ i x, d.inode = some i ∧ fs.inodes i = some x ∧ x.iDentry = some p ∧ x.iOp ≠ none

/-- What follows a dentry that may not have been found. -/
def andThen (next : Ptr → Except Stop (Option Ptr)) : Option Ptr → Except Stop (Option Ptr)
  | none => .ok none
  | some d => next d

variable {fs : Fs}

theorem walk_append_bind (fs : Fs) (curr : Ptr) (front back : List Name) :
    walk fs curr (front ++ back) = (walk fs curr front).bind (andThen fun d => walk fs d back) := by
  induction front generalizing curr with
  | nil => rfl
  | cons token rest ih =>
    rw [List.cons_append]
    by_cases isDot : token = dot
    · subst isDot
      rw [walk_dot, walk_dot, ih]
    · by_cases isDotdot : token = dotdot
      · subst isDotdot
        rw [walk_dotdot, walk_dotdot]
        cases fs.dentry curr with
        | error stop => rfl
        | ok d => exact ih _
      · rw [walk_plain fs curr ⟨isDot, isDotdot⟩, walk_plain fs curr ⟨isDot, isDotdot⟩]
        cases fs.inodeOf curr with
        | error stop => rfl
        | ok i =>
          simp only [Except.bind]
          cases callLookup fs i token with
          | error stop => rfl
          | ok found =>
            cases found with
            | none => rfl
            | some next => exact ih next

/-- The path and its two parts have the same names, up to the `.` of a path without a slash. -/
theorem walk_splitPath {path parent name : Name} (split : splitPath path = some (parent, name)) (curr : Ptr) :
    walk fs curr (Tokens.tokens slash path) = walk fs curr (Tokens.tokens slash parent ++ [name]) := by
  unfold splitPath at split
  split at split
  · cases split
  rename_i named
  have parts := Option.some.inj split
  rw [parts] at named
  unfold splitLast at parts
  split at parts
  · rename_i absent
    have ⟨atParent, atName⟩ := Prod.mk.inj parts
    subst atParent atName
    have word : Tokens.Word slash path := ⟨named, Tokens.lastIndex_eq_none.mp absent⟩
    have single : Tokens.tokens slash dot = [dot] := by decide
    rw [Tokens.tokens_word word, single, List.cons_append, walk_dot, List.nil_append]
  · rename_i first
    have ⟨whole, clean⟩ := Tokens.lastIndex_spec first
    cases parts
    have none_ : Tokens.tokens slash [slash] = [] := by decide
    rw [List.take_zero, List.nil_append] at whole
    rw [whole, Tokens.tokens_cons_delim, Tokens.tokens_word ⟨named, clean⟩, none_, List.nil_append]
    rfl
  · rename_i i _ last
    have ⟨whole, clean⟩ := Tokens.lastIndex_spec last
    cases parts
    have split := Tokens.tokens_append_cons slash (path.take i) (path.drop (i + 1))
    rw [← whole, Tokens.tokens_word ⟨named, clean⟩] at split
    rw [split]

theorem findNamed_live (name : Name) {children : List Ptr} (live : ∀ c ∈ children, ∃ e, fs.dentries c = some e) :
    ∃ found, findNamed fs name children = .ok found ∧ ∀ c, found = some c → ∃ e, fs.dentries c = some e := by
  induction children with
  | nil => exact ⟨none, rfl, fun c found => nomatch found⟩
  | cons c rest ih =>
    have ⟨e, liveChild⟩ := live c List.mem_cons_self
    simp only [findNamed, dentry_eq_ok.mpr liveChild, bind, Except.bind]
    by_cases same : e.name = name
    · rw [if_pos same]
      refine ⟨some c, rfl, fun a found => ?_⟩
      cases found
      exact ⟨e, liveChild⟩
    · rw [if_neg same]
      exact ih fun a member => live a (List.mem_cons_of_mem c member)

namespace LookupTree

variable (tree : LookupTree fs)

include tree

variable {p i : Ptr} {d : Dentry}

theorem live_parent (live : fs.dentries p = some d) : ∃ e, fs.dentries (d.parent.getD p) = some e := by
  cases up : d.parent with
  | none => exact ⟨d, live⟩
  | some q => exact tree.parent p d q live up

theorem callLookup_eq (live : fs.dentries p = some d) (behind : fs.inodeOf p = .ok i) (name : Name) :
    callLookup fs i name = childNamed fs p name := by
  have ⟨j, x, its, reached, back, table⟩ := tree.lookups p d live
  have ⟨e, live', its'⟩ := inodeOf_eq_ok.mp behind
  cases live.symm.trans live'
  cases its.symm.trans its'
  have ⟨ops, has⟩ := Option.ne_none_iff_exists'.mp table
  simp only [callLookup, operations, vfsLookup, childNamed, inode_eq_ok.mpr reached, has, deref_eq_ok.mpr back, bind,
    Except.bind]

theorem inodeOf_live (live : fs.dentries p = some d) : ∃ i x, fs.inodeOf p = .ok i ∧ fs.inodes i = some x ∧
    x.iDentry = some p := by
  have ⟨i, x, its, reached, back, _⟩ := tree.lookups p d live
  exact ⟨i, x, inodeOf_eq_ok.mpr ⟨d, live, its⟩, reached, back⟩

theorem walk_name (live : fs.dentries p = some d) {name : Name} (plain : Plain name) (rest : List Name) :
    walk fs p (name :: rest) = (childNamed fs p name).bind (andThen fun c => walk fs c rest) := by
  have ⟨i, x, behind, _, _⟩ := tree.inodeOf_live live
  rw [walk_plain fs p plain, behind]
  simp only [Except.bind, tree.callLookup_eq live behind name]
  rfl

/-- Every walk in the tree runs to its end, and ends in the tree. -/
theorem walk_live (live : fs.dentries p = some d) (tokens : List Name) :
    ∃ found, walk fs p tokens = .ok found ∧ ∀ c, found = some c → ∃ e, fs.dentries c = some e := by
  induction tokens generalizing p d with
  | nil =>
    refine ⟨some p, rfl, fun c found => ?_⟩
    cases found
    exact ⟨d, live⟩
  | cons token rest ih =>
    by_cases isDot : token = dot
    · subst isDot
      rw [walk_dot]
      exact ih live
    · by_cases isDotdot : token = dotdot
      · subst isDotdot
        have ⟨e, above⟩ := tree.live_parent live
        rw [walk_dotdot, dentry_eq_ok.mpr live]
        exact ih above
      · have ⟨found, searched, inside⟩ := findNamed_live token fun c => tree.child p d c live
        rw [tree.walk_name live ⟨isDot, isDotdot⟩]
        simp only [childNamed, dentry_eq_ok.mpr live, bind, Except.bind, searched]
        cases found with
        | none => exact ⟨none, rfl, fun c found => nomatch found⟩
        | some next =>
          have ⟨e, below⟩ := inside next rfl
          exact ih below

variable {start : Ptr} {x : Inode}

theorem lookupPath_eq (started : fs.inodes start = some x) (home : x.iDentry = some p) (live : fs.dentries p = some d)
    (path : Name) : lookupPath fs start path = walk fs p (Tokens.tokens slash path) := by
  have ⟨found, walked, inside⟩ := tree.walk_live live (Tokens.tokens slash path)
  have same : walk { fs with heap := [] } p (Tokens.tokens slash path) = .ok found := by
    rw [walk_congr (sameWalk_heap fs []), walked]
  rw [walked]
  cases found with
  | some c =>
    have ⟨e, reached⟩ := inside c rfl
    have ⟨i, y, behind, there, _⟩ := tree.inodeOf_live reached
    have looked : kpathLookup { fs with heap := [] } start path = _ :=
      kpathLookup_of_resolves rfl ⟨x, p, started, home, same⟩ behind there
    rw [lookupPath, looked]
    rfl
  | none =>
    have copied : Fs.kmalloc { fs with heap := [] } = _ := kmalloc_of_heap_nil rfl
    have walked' := (walk_congr (kmalloc_same copied).1.walk p (Tokens.tokens slash path)).trans same
    simp only [lookupPath, kpathLookup, copied, bind, Except.bind, walked', Fs.inode, started, Fs.deref, home]
    rfl

end LookupTree

/-- Path resolution is compositional: a path of two parts leads where the second leads from
the inode that the first leads to, and a path that `split_path` takes apart leads to the
child with that name. No lookup stops at a missing operation or at a released node. -/
theorem path_lookup_compositional {fs : Fs} (tree : LookupTree fs) {start first : Ptr} {x : Inode} {d : Dentry}
    (started : fs.inodes start = some x) (home : x.iDentry = some first) (live : fs.dentries first = some d) :
    (∀ p, ∃ found, lookupPath fs start p = .ok found) ∧
    (∀ p q, lookupPath fs start (p ++ slash :: q) =
      (lookupPath fs start p).bind (andThen fun found => (fs.inodeOf found).bind fun i => lookupPath fs i q)) ∧
    ∀ r parent name, splitPath r = some (parent, name) → name ≠ dot → name ≠ dotdot →
      lookupPath fs start r = (lookupPath fs start parent).bind (andThen fun found => childNamed fs found name) := by
  have eq := tree.lookupPath_eq started home live
  refine ⟨fun p => ?_, fun p q => ?_, fun r parent name split notDot notDotdot => ?_⟩
  · have ⟨found, walked, _⟩ := tree.walk_live live (Tokens.tokens slash p)
    exact ⟨found, (eq p).trans walked⟩
  · have ⟨found, walked, inside⟩ := tree.walk_live live (Tokens.tokens slash p)
    rw [eq, eq, Tokens.tokens_append_cons, walk_append_bind, walked]
    cases found with
    | none => rfl
    | some c =>
      have ⟨e, reached⟩ := inside c rfl
      have ⟨i, y, behind, there, back⟩ := tree.inodeOf_live reached
      simp only [Except.bind, andThen, behind]
      exact (tree.lookupPath_eq there back reached q).symm
  · have ⟨found, walked, inside⟩ := tree.walk_live live (Tokens.tokens slash parent)
    rw [eq, eq, walk_splitPath split, walk_append_bind, walked]
    cases found with
    | none => rfl
    | some c =>
      have ⟨e, reached⟩ := inside c rfl
      simp only [Except.bind, andThen]
      rw [tree.walk_name reached ⟨notDot, notDotdot⟩]
      cases childNamed fs c name with
      | error stop => rfl
      | ok child => cases child <;> rfl

theorem ResolvableTree.lookupTree {fs : Fs} (resolvable : ResolvableTree fs) : LookupTree fs where
  child p d c live member := by
    obtain ⟨cell, there, -⟩ := resolvable.tree.child p d.cell c (cells_eq live) member
    obtain ⟨e, below, -⟩ := cells_eq_some there
    exact ⟨e, below⟩
  parent p d q live up := by
    obtain ⟨cell, there, -⟩ := resolvable.tree.linked p d.cell q (cells_eq live) up
    obtain ⟨e, above, -⟩ := cells_eq_some there
    exact ⟨e, above⟩
  lookups := resolvable.lookups

/-- `/sys` from the root inode. -/
theorem path_lookup_compositional_sys :
    lookupPath sysTree 0 (absolute [sys]) =
      (lookupPath sysTree 0 [slash]).bind (andThen fun found => childNamed sysTree found (str sys)) :=
  (path_lookup_compositional sysTree_resolvable.lookupTree rfl rfl rfl).2.2 _ [slash] (str sys)
    (by decide) (by decide) (by decide)

end CreeperKernel.Vfs

import CreeperKernel.Overwrites
import CreeperKernel.VfsTree

namespace CreeperKernel.Vfs

open LinkedTrees (Tree Reaches)
open Overwrites (overwrite overwrite_before length_overwrite overwrite_terminated)

/-- The first loop of `kpath_reverse`, for at most `fuel` rounds: the room for the names. -/
def reverseLength (fs : Fs) : Nat → Ptr → Nat → Except Stop Nat
  | 0, _, _ => .error .endless
  | fuel + 1, cur, len => do
    let d ← fs.dentry cur
    match d.parent with
    | none => .ok len
    | some parent => reverseLength fs fuel parent (len + (d.name.length + 1))

/-- The second loop of `kpath_reverse`: the names are written from the end of the buffer on,
`p` is where the last of them starts. -/
def reverseFill (fs : Fs) : Nat → Ptr → List Byte → Nat → Except Stop (List Byte × Nat)
  | 0, _, _, _ => .error .endless
  | fuel + 1, cur, path, p => do
    let d ← fs.dentry cur
    match d.parent with
    | none => .ok (path, p)
    | some parent =>
      -- a write in front of the buffer
      if p < d.name.length + 1 then .error .dangling else
      let path := overwrite path (p - d.name.length) d.name
      reverseFill fs fuel parent (overwrite path (p - d.name.length - 1) [slash]) (p - d.name.length - 1)

/-- A buffer from `kmalloc`: the size asked for, and what it holds. -/
structure Buffer where
  size : Nat
  bytes : List Byte

/-- `kpath_reverse` of a dentry, with loops of at most `fuel` rounds: the buffer it returns,
which held `stale` when it was allocated, or NULL. -/
def kpathReverse (fuel : Nat) (fs : Fs) (d : Ptr) (stale : Nat → Byte) : Except Stop (Option Buffer × Fs) := do
  let start ← fs.dentry d
  match start.parent with
  | none =>
    match fs.kmalloc with
    | (none, fs) => .ok (none, fs)
    | (some _, fs) => .ok (some { size := 2, bytes := [slash, 0] }, fs)
  | some _ => do
    let len ← reverseLength fs fuel d 1
    match fs.kmalloc with
    | (none, fs) => .ok (none, fs)
    | (some _, fs) => do
      let path := (List.range len).map stale
      let (path, _) ← reverseFill fs fuel d (overwrite path (len - 1) [0]) (len - 1)
      .ok (some { size := len, bytes := path }, fs)

def stringIn (buffer : List Byte) : Name := buffer.takeWhile (· ≠ 0)

/-- A name that a lookup can find: a C string, not empty, without slashes, and neither `.`
nor `..`. -/
structure Resolvable (name : Name) : Prop where
  word : Tokens.Word slash name
  terminated : 0 ∉ name
  plain : Plain name

/-- The names from below the root down to the dentry `c`. -/
inductive Spelled (fs : Fs) : Ptr → List Name → Prop where
  | root {c : Ptr} {d : Dentry} (live : fs.dentries c = some d) (highest : d.parent = none) : Spelled fs c []
  | child {c p : Ptr} {d : Dentry} {names : List Name} (live : fs.dentries c = some d) (up : d.parent = some p)
      (above : Spelled fs p names) : Spelled fs c (names ++ [d.name])

variable {fs : Fs} {names : List Name} {c : Ptr}

theorem Spelled.congr {fs' : Fs} (spelled : Spelled fs c names) (dentries : fs'.dentries = fs.dentries) :
    Spelled fs' c names := by
  induction spelled with
  | root live highest => exact .root (by rw [dentries]; exact live) highest
  | child live up _ ih => exact .child (by rw [dentries]; exact live) up ih

def spell (names : List Name) : Name := names.flatMap (slash :: ·)

theorem spell_append (front back : List Name) : spell (front ++ back) = spell front ++ spell back :=
  List.flatMap_append

theorem spell_singleton (name : Name) : spell [name] = slash :: name := by
  simp [spell]

theorem spell_concat (names : List Name) (name : Name) : spell (names ++ [name]) = spell names ++ slash :: name := by
  rw [spell_append, spell_singleton]

theorem tokens_spell (good : ∀ name ∈ names, Tokens.Word slash name) : Tokens.tokens slash (spell names) = names := by
  induction names using List.reverseRecOn with
  | nil => rfl
  | append_singleton names name ih =>
    rw [spell_concat, Tokens.tokens_append_cons, ih, Tokens.tokens_word]
    · exact good name (by simp)
    · exact fun w member => good w (by simp [member])

section Loops

variable {fs : Fs} {c : Ptr} {names : List Name}

variable {fuel : Nat}

theorem reverseLength_spelled (spelled : Spelled fs c names) (enough : names.length < fuel) (len : Nat) :
    reverseLength fs fuel c len = .ok (len + (spell names).length) := by
  induction spelled generalizing fuel len with
  | root live highest =>
    obtain ⟨fuel, rfl⟩ := Nat.exists_eq_succ_of_ne_zero (Nat.ne_of_gt enough)
    simp only [reverseLength, dentry_eq_ok.mpr live, highest, bind, Except.bind]
    rfl
  | @child c p d names live up _ ih =>
    obtain ⟨fuel, rfl⟩ := Nat.exists_eq_succ_of_ne_zero (Nat.ne_of_gt (Nat.lt_of_le_of_lt (Nat.zero_le _) enough))
    rw [List.length_append, List.length_singleton] at enough
    simp only [reverseLength, dentry_eq_ok.mpr live, up, bind, Except.bind]
    rw [ih (by omega), spell_concat, List.length_append, List.length_cons]
    congr 1
    omega

/-- The names are written one in front of the other, down to where their path starts. -/
theorem reverseFill_spelled (spelled : Spelled fs c names) (enough : names.length < fuel) (path : List Byte) {p : Nat}
    (room : (spell names).length ≤ p) (inside : p ≤ path.length) : reverseFill fs fuel c path p =
      .ok (overwrite path (p - (spell names).length) (spell names), p - (spell names).length) := by
  induction spelled generalizing fuel path p with
  | root live highest =>
    obtain ⟨fuel, rfl⟩ := Nat.exists_eq_succ_of_ne_zero (Nat.ne_of_gt enough)
    simp only [reverseFill, dentry_eq_ok.mpr live, highest, bind, Except.bind]
    simp [spell, overwrite]
  | @child c q d names live up _ ih =>
    obtain ⟨fuel, rfl⟩ := Nat.exists_eq_succ_of_ne_zero (Nat.ne_of_gt (Nat.lt_of_le_of_lt (Nat.zero_le _) enough))
    rw [List.length_append, List.length_singleton] at enough
    rw [spell_concat, List.length_append, List.length_cons] at room ⊢
    have fits : ¬ p < d.name.length + 1 := by omega
    simp only [reverseFill, dentry_eq_ok.mpr live, up, bind, Except.bind, if_neg fits]
    have component : overwrite (overwrite path (p - d.name.length) d.name) (p - d.name.length - 1) [slash] =
        overwrite path (p - d.name.length - 1) (slash :: d.name) := by
      have behind : p - d.name.length = p - d.name.length - 1 + [slash].length := by
        rw [List.length_singleton]
        omega
      nth_rewrite 1 [behind]
      rw [overwrite_before (by rw [List.length_singleton]; omega), List.singleton_append]
    have length : (overwrite path (p - d.name.length - 1) (slash :: d.name)).length = path.length :=
      length_overwrite (by rw [List.length_cons]; omega)
    rw [component, ih (by omega) _ (by omega) (by rw [length]; omega)]
    have start : p - d.name.length - 1 - (spell names).length = p - ((spell names).length + (d.name.length + 1)) := by
      omega
    have front : p - d.name.length - 1 = p - ((spell names).length + (d.name.length + 1)) + (spell names).length := by
      omega
    rw [start]
    nth_rewrite 1 [front]
    rw [overwrite_before (by rw [List.length_cons]; omega)]

end Loops

/-- The path that `kpath_reverse` spells out. -/
def pathOf (names : List Name) : Name := if names = [] then [slash] else spell names

theorem head?_pathOf (names : List Name) : (pathOf names).head? = some slash := by
  unfold pathOf
  split
  · rfl
  · rename_i some_
    obtain ⟨name, rest, rfl⟩ := List.exists_cons_of_ne_nil some_
    rfl

theorem tokens_pathOf (good : ∀ name ∈ names, Tokens.Word slash name) : Tokens.tokens slash (pathOf names) = names := by
  unfold pathOf
  split
  · rename_i none_
    subst none_
    rfl
  · exact tokens_spell good

theorem zero_not_mem_pathOf (good : ∀ name ∈ names, 0 ∉ name) : 0 ∉ pathOf names := by
  have other : (0 : Byte) ≠ slash := by decide
  unfold pathOf
  split
  · simpa using other
  · intro member
    obtain ⟨name, listed, inside⟩ := List.mem_flatMap.mp member
    rcases List.mem_cons.mp inside with same | later
    · exact other same
    · exact good name listed later

theorem stringIn_append_zero {s : Name} (clean : 0 ∉ s) : stringIn (s ++ [0]) = s := by
  unfold stringIn
  rw [List.takeWhile_append_of_pos]
  · simp
  · intro c member
    rw [decide_eq_true_eq]
    intro zero
    exact clean (zero ▸ member)

/-- `kpath_reverse` spells out the names, in a buffer that has just the room for them. -/
theorem kpathReverse_spelled (spelled : Spelled fs c names) {fuel : Nat} (enough : names.length < fuel)
    (memory : fs.heap = []) (stale : Nat → Byte) :
    kpathReverse fuel fs c stale = .ok (some { size := (pathOf names).length + 1, bytes := pathOf names ++ [0] },
      { fs with fresh := fs.fresh + 1 }) := by
  cases spelled with
  | root live highest =>
    simp only [kpathReverse, dentry_eq_ok.mpr live, highest, bind, Except.bind, kmalloc_of_heap_nil memory]
    rfl
  | @child c p d names live up above =>
    have whole : Spelled fs c (names ++ [d.name]) := .child live up above
    have same := (kmalloc_same (kmalloc_of_heap_nil memory)).1
    have path : pathOf (names ++ [d.name]) = spell (names ++ [d.name]) := if_neg (by simp)
    have length := reverseLength_spelled whole enough 1
    -- the loops read dentries only, which `kmalloc` leaves alone
    have whole' : Spelled { fs with fresh := fs.fresh + 1 } c (names ++ [d.name]) := whole.congr same.dentries
    simp only [kpathReverse, dentry_eq_ok.mpr live, up, bind, Except.bind, length, kmalloc_of_heap_nil memory,
      Nat.add_sub_cancel_left]
    have room : ((List.range (1 + (spell (names ++ [d.name])).length)).map stale).length =
        (spell (names ++ [d.name])).length + 1 := by
      rw [List.length_map, List.length_range, Nat.add_comm]
    rw [reverseFill_spelled whole' enough _ (Nat.le_refl _), path, Nat.sub_self, overwrite_terminated room,
      Nat.add_comm 1]
    rw [length_overwrite] <;> rw [room]
    · exact Nat.le_succ _
    · exact Nat.le_refl _

/-- A tree in which every dentry but the root has a name a lookup can find, and can be looked
up in itself. -/
structure ResolvableTree (fs : Fs) : Prop where
  tree : Tree fs.cells fs.rootDentry
  lookups : ∀ p d, fs.dentries p = some d →
    ∃ i x, d.inode = some i ∧ fs.inodes i = some x ∧ x.iDentry = some p ∧ x.iOp ≠ none
  names : ∀ p d, fs.dentries p = some d → p ≠ fs.rootDentry → Resolvable d.name

theorem walk_append {first d : Ptr} {front : List Name} (back : List Name)
    (walked : walk fs first front = .ok (some d)) : walk fs first (front ++ back) = walk fs d back := by
  induction front generalizing first with
  | nil =>
    cases walked
    rfl
  | cons token rest ih =>
    rw [List.cons_append]
    rw [walk] at walked ⊢
    split at walked
    · rename_i isDot
      rw [if_pos isDot]
      exact ih walked
    · rename_i notDot
      rw [if_neg notDot]
      split at walked
      · rename_i isDotdot
        obtain ⟨x, live, walked⟩ := bind_eq_ok.mp walked
        rw [if_pos isDotdot, live]
        exact ih walked
      · rename_i notDotdot
        obtain ⟨i, behind, walked⟩ := bind_eq_ok.mp walked
        obtain ⟨found, looked, walked⟩ := bind_eq_ok.mp walked
        rw [if_neg notDotdot, behind]
        simp only [bind, Except.bind, looked]
        cases found with
        | none => cases walked
        | some next => exact ih walked

section Trees

variable {fs : Fs} (tree : ResolvableTree fs)

include tree

variable {d : Dentry} {c : Ptr}

theorem ResolvableTree.walk_child {p : Ptr} (live : fs.dentries c = some d) (up : d.parent = some p) :
    walk fs p [d.name] = .ok (some c) := by
  obtain ⟨x, there, member⟩ := tree.tree.linked c d.cell p (cells_eq live) up
  obtain ⟨parent, atParent, rfl⟩ := cells_eq_some there
  obtain ⟨i, inode, its, reached, back, table⟩ := tree.lookups p parent atParent
  have notRoot : c ≠ fs.rootDentry := by
    intro same
    obtain ⟨top, atTop, highest⟩ := tree.tree.top
    rw [← same, cells_eq live] at atTop
    cases atTop
    cases up.symm.trans highest
  have plain := (tree.names c d live notRoot).plain
  have behind : fs.inodeOf p = .ok i := inodeOf_eq_ok.mpr ⟨parent, atParent, its⟩
  have found : findNamed fs d.name parent.children = .ok (some c) := by
    apply findNamed_of_unique live member
    intro a listed
    obtain ⟨y, atA, -⟩ := tree.tree.child p parent.cell a (cells_eq atParent) listed
    obtain ⟨e, liveA, rfl⟩ := cells_eq_some atA
    refine ⟨e, liveA, fun same => ?_⟩
    exact tree.tree.named p parent.cell (cells_eq atParent) a listed c member e.cell d.cell (cells_eq liveA)
      (cells_eq live) same
  obtain ⟨ops, has⟩ := Option.ne_none_iff_exists'.mp table
  have called : callLookup fs i d.name = .ok (some c) := by
    simp only [callLookup, operations, vfsLookup, inode_eq_ok.mpr reached, has, deref_eq_ok.mpr back,
      dentry_eq_ok.mpr atParent, found, bind, Except.bind]
  rw [walk_plain fs p plain, behind]
  simp only [Except.bind, called]
  rfl

/-- Every dentry has its names, and a walk of them from the root leads to it. -/
theorem ResolvableTree.spelled (live : fs.dentries c = some d) (reaches : Reaches fs.cells fs.rootDentry c) :
    ∃ names, Spelled fs c names ∧ walk fs fs.rootDentry names = .ok (some c) ∧ ∀ name ∈ names, Resolvable name := by
  induction reaches generalizing d with
  | root =>
    obtain ⟨x, there, highest⟩ := tree.tree.top
    obtain ⟨e, live', rfl⟩ := cells_eq_some there
    exact ⟨[], .root live' highest, rfl, fun name none_ => nomatch none_⟩
  | @step c p x there up _ ih =>
    obtain ⟨e, live', rfl⟩ := cells_eq_some there
    obtain ⟨y, atParent, -⟩ := tree.tree.linked c e.cell p there up
    obtain ⟨parent, liveParent, rfl⟩ := cells_eq_some atParent
    obtain ⟨names, spelled, walked, good⟩ := ih liveParent
    refine ⟨names ++ [e.name], .child live' up spelled, ?_, ?_⟩
    · rw [walk_append [e.name] walked]
      exact tree.walk_child live' up
    · intro name member
      rcases List.mem_append.mp member with before | last
      · exact good name before
      · rw [List.mem_singleton] at last
        rw [last]
        apply tree.names c e live'
        intro same
        obtain ⟨top, atTop, highest⟩ := tree.tree.top
        rw [← same, there] at atTop
        cases atTop
        cases up.symm.trans highest

end Trees

/-- For every dentry of the tree, `kpath_reverse` returns a path that starts with a slash, in
a buffer with room for just that path, and `kpath_lookup` of it from the root finds the
dentry. -/
theorem kpath_reverse_round_trip (fs : Fs) (tree : ResolvableTree fs) (memory : fs.heap = []) (c : Ptr) (d : Dentry)
    (live : fs.dentries c = some d) (stale : Nat → Byte) :
    ∃ depth buffer fs₁ root fs₂, (∀ fuel, depth < fuel → kpathReverse fuel fs c stale = .ok (some buffer, fs₁)) ∧
      buffer.bytes.length = buffer.size ∧ (stringIn buffer.bytes).length + 1 = buffer.size ∧
      (stringIn buffer.bytes).head? = some slash ∧ fs.inodeOf fs.rootDentry = .ok root ∧
      kpathLookup fs₁ root (stringIn buffer.bytes) = .ok (some c, fs₂) := by
  obtain ⟨names, spelled, walked, good⟩ := tree.spelled live (tree.tree.reaches c d.cell (cells_eq live))
  obtain ⟨top, atTop, -⟩ := tree.tree.top
  obtain ⟨rootD, liveRoot, -⟩ := cells_eq_some atTop
  obtain ⟨root, inode, its, reached, back, -⟩ := tree.lookups _ rootD liveRoot
  obtain ⟨i, x, behind, there, -⟩ := tree.lookups c d live
  have same := (kmalloc_same (kmalloc_of_heap_nil memory)).1
  have string : stringIn (pathOf names ++ [0]) = pathOf names :=
    stringIn_append_zero (zero_not_mem_pathOf fun name member => (good name member).terminated)
  have resolves : Resolves fs root (pathOf names) c := by
    refine ⟨inode, fs.rootDentry, reached, back, ?_⟩
    rw [tokens_pathOf fun name member => (good name member).word]
    exact walked
  obtain ⟨fs₂, looked⟩ : ∃ fs₂, kpathLookup { fs with fresh := fs.fresh + 1 } root (pathOf names) = .ok (some c, fs₂) :=
    ⟨_, kpathLookup_of_resolves (same.heap memory) (resolves.congr same.walk.symm)
      (inodeOf_eq_ok.mpr ⟨d, live, behind⟩) there⟩
  refine ⟨names.length, _, _, root, fs₂, fun fuel enough => kpathReverse_spelled spelled enough memory stale,
    ?_, ?_, ?_, inodeOf_eq_ok.mpr ⟨rootD, liveRoot, its⟩, ?_⟩
  · rw [List.length_append, List.length_singleton]
  · rw [string]
  · rw [string, head?_pathOf]
  · rw [string]
    exact looked

/-- The root with the directory `sys` in it. -/
def sysTree : Fs :=
  { tmpRoot with
    dentries := Function.update (Function.update tmpRoot.dentries 1
      (some { name := str sys, parent := some 0, inode := some 1, children := [] })) 0
      (some { name := [], parent := none, inode := some 0, children := [1] })
    inodes := Function.update tmpRoot.inodes 1
      (some { iDentry := some 1, iMode := sIfdir ||| 0o755, iUid := 0, iGid := 0, iCount := 0, iOp := some .defVfs
              iFop := none, iPrivate := none })
    fresh := 2 }

theorem sysTree_resolvable : ResolvableTree sysTree := by
  have only : ∀ p d, sysTree.dentries p = some d →
      p = 0 ∧ d = { name := [], parent := none, inode := some 0, children := [1] } ∨
        p = 1 ∧ d = { name := str sys, parent := some 0, inode := some 1, children := [] } := by
    intro p d live
    simp only [sysTree, tmpRoot, Function.update_apply] at live
    split at live
    · rename_i same
      cases live
      exact .inl ⟨same, rfl⟩
    · split at live
      · rename_i same
        cases live
        exact .inr ⟨same, rfl⟩
      · cases live
  refine ⟨?_, ?_, ?_⟩
  · have cells : sysTree.cells = LinkedTrees.inserted (Function.update (fun _ => none) 0
        (some { name := [], parent := none, children := [] })) 0 1 { name := [], parent := none, children := [] }
        (str sys) := by
      show (fun q => (sysTree.dentries q).map Dentry.cell) = _
      rw [sysTree, map_update, map_update, tmpRoot, map_update]
      rfl
    rw [cells]
    exact Tree.insert rfl rfl (Tree.single []) fun a member => absurd member List.not_mem_nil
  · intro p d live
    rcases only p d live with ⟨rfl, rfl⟩ | ⟨rfl, rfl⟩
    · exact ⟨0, _, rfl, rfl, rfl, by decide⟩
    · exact ⟨1, _, rfl, rfl, rfl, by decide⟩
  · intro p d live notRoot
    rcases only p d live with ⟨rfl, rfl⟩ | ⟨rfl, rfl⟩
    · exact absurd rfl notRoot
    · exact ⟨by decide, by decide, by decide⟩

theorem kpath_reverse_round_trip_sys : ∃ depth buffer fs₁ root fs₂,
    (∀ fuel, depth < fuel → kpathReverse fuel sysTree 1 (fun _ => 0) = .ok (some buffer, fs₁)) ∧
      buffer.bytes.length = buffer.size ∧ (stringIn buffer.bytes).length + 1 = buffer.size ∧
      (stringIn buffer.bytes).head? = some slash ∧ sysTree.inodeOf sysTree.rootDentry = .ok root ∧
      kpathLookup fs₁ root (stringIn buffer.bytes) = .ok (some 1, fs₂) :=
  kpath_reverse_round_trip sysTree sysTree_resolvable rfl 1 _ rfl fun _ => 0

end CreeperKernel.Vfs

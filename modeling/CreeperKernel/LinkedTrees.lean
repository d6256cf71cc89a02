import Mathlib.Data.List.Nodup

/- Trees kept as cells that know their parent and list their children, with the insertion
of a leaf and the removal of one. -/
namespace CreeperKernel.LinkedTrees

structure Cell (Node Name : Type) where
  name : Name
  parent : Option Node
  children : List Node

variable {Node Name : Type}

/-- Following `parent` from this node comes to the root. -/
inductive Reaches (cells : Node → Option (Cell Node Name)) (root : Node) : Node → Prop where
  | root : Reaches cells root root
  | step {c p : Node} {cell : Cell Node Name} (live : cells c = some cell) (up : cell.parent = some p)
      (rest : Reaches cells root p) : Reaches cells root c

structure Tree (cells : Node → Option (Cell Node Name)) (root : Node) : Prop where
  top : ∃ cell, cells root = some cell ∧ cell.parent = none
  child : ∀ p cell c, cells p = some cell → c ∈ cell.children → ∃ x, cells c = some x ∧ x.parent = some p
  linked : ∀ c cell p, cells c = some cell → cell.parent = some p → ∃ x, cells p = some x ∧ c ∈ x.children
  once : ∀ p cell, cells p = some cell → cell.children.Nodup
  named : ∀ p cell, cells p = some cell → ∀ a ∈ cell.children, ∀ b ∈ cell.children, ∀ x y,
    cells a = some x → cells b = some y → x.name = y.name → a = b
  reaches : ∀ c cell, cells c = some cell → Reaches cells root c

variable [DecidableEq Node] {cells : Node → Option (Cell Node Name)} {root p c : Node}

theorem Tree.single (name : Name) :
    Tree (Function.update (fun _ => none) root (some { name, parent := none, children := [] })) root := by
  have only : ∀ q cell, Function.update (fun _ => none) root
      (some ({ name, parent := none, children := [] } : Cell Node Name)) q = some cell →
      q = root ∧ cell = { name, parent := none, children := [] } := by
    intro q cell live
    by_cases same : q = root
    · subst same
      rw [Function.update_self] at live
      cases live
      exact ⟨rfl, rfl⟩
    · rw [Function.update_of_ne same] at live
      cases live
  refine ⟨⟨_, Function.update_self .., rfl⟩, ?_, ?_, ?_, ?_, ?_⟩
  · intro q cell c live member
    obtain ⟨-, rfl⟩ := only q cell live
    cases member
  · intro c cell q live up
    obtain ⟨-, rfl⟩ := only c cell live
    cases up
  · intro q cell live
    obtain ⟨-, rfl⟩ := only q cell live
    exact List.nodup_nil
  · intro q cell live a member
    obtain ⟨-, rfl⟩ := only q cell live
    cases member
  · intro c cell live
    obtain ⟨rfl, -⟩ := only c cell live
    exact .root

section Insertion

/-- The cells after `c` has been put first among the children of `p`. -/
def inserted (cells : Node → Option (Cell Node Name)) (p c : Node) (parent : Cell Node Name) (name : Name) :
    Node → Option (Cell Node Name) :=
  Function.update (Function.update cells c (some { name, parent := some p, children := [] })) p
    (some { parent with children := c :: parent.children })

variable {parent : Cell Node Name} {name : Name} (atParent : cells p = some parent) (unused : cells c = none)

omit [DecidableEq Node] in
include atParent unused in
theorem ne_of_unused : p ≠ c := by
  intro same
  rw [same, unused] at atParent
  cases atParent

theorem inserted_parent : inserted cells p c parent name p = some { parent with children := c :: parent.children } := by
  rw [inserted, Function.update_self]

include atParent unused in
theorem inserted_new : inserted cells p c parent name c = some { name, parent := some p, children := [] } := by
  rw [inserted, Function.update_of_ne (ne_of_unused atParent unused).symm, Function.update_self]

variable {q : Node}

theorem inserted_other (notParent : q ≠ p) (notNew : q ≠ c) : inserted cells p c parent name q = cells q := by
  rw [inserted, Function.update_of_ne notParent, Function.update_of_ne notNew]

variable {cell : Cell Node Name}

include atParent unused in
theorem inserted_of_live (live : cells q = some cell) :
    ∃ x, inserted cells p c parent name q = some x ∧ x.name = cell.name ∧ x.parent = cell.parent := by
  by_cases atP : q = p
  · subst atP
    cases atParent.symm.trans live
    exact ⟨_, inserted_parent, rfl, rfl⟩
  · refine ⟨cell, ?_, rfl, rfl⟩
    rw [inserted_other atP, live]
    intro atC
    rw [atC, unused] at live
    cases live

include atParent unused in
theorem live_of_inserted (live : inserted cells p c parent name q = some cell) :
    (q = c ∧ cell = { name, parent := some p, children := [] }) ∨
      ∃ x, cells q = some x ∧ x.name = cell.name ∧ x.parent = cell.parent ∧
        (cell.children = x.children ∨ q = p ∧ cell.children = c :: x.children) := by
  by_cases atC : q = c
  · subst atC
    rw [inserted_new atParent unused] at live
    cases live
    exact .inl ⟨rfl, rfl⟩
  · by_cases atP : q = p
    · subst atP
      rw [inserted_parent] at live
      cases live
      exact .inr ⟨parent, atParent, rfl, rfl, .inr ⟨rfl, rfl⟩⟩
    · rw [inserted_other atP atC] at live
      exact .inr ⟨cell, live, rfl, rfl, .inl rfl⟩

include atParent unused in
theorem Reaches.inserted (reaches : Reaches cells root q) : Reaches (inserted cells p c parent name) root q := by
  induction reaches with
  | root => exact .root
  | step live up _ ih =>
    obtain ⟨x, live', -, same⟩ := inserted_of_live atParent unused live
    exact .step live' (same.trans up) ih

include atParent unused in
/-- A leaf with a name of its own among its siblings keeps a tree a tree. -/
theorem Tree.insert (tree : Tree cells root)
    (alone : ∀ a ∈ parent.children, ∀ x, cells a = some x → x.name ≠ name) :
    Tree (inserted cells p c parent name) root where
  top := by
    obtain ⟨cell, live, highest⟩ := tree.top
    obtain ⟨x, live', -, same⟩ := inserted_of_live atParent unused live
    exact ⟨x, live', same.trans highest⟩
  child := by
    intro q cell a live member
    rcases live_of_inserted atParent unused live with ⟨-, rfl⟩ | ⟨x, old, -, -, list⟩
    · cases member
    · have older : a ∈ x.children → ∃ y, LinkedTrees.inserted cells p c parent name a = some y ∧ y.parent = some q := by
        intro before
        obtain ⟨y, there, up⟩ := tree.child q x a old before
        obtain ⟨z, there', -, same⟩ := inserted_of_live atParent unused there
        exact ⟨z, there', same.trans up⟩
      rcases list with same | ⟨rfl, more⟩
      · exact older (same ▸ member)
      · rw [more, List.mem_cons] at member
        rcases member with rfl | before
        · exact ⟨_, inserted_new atParent unused, rfl⟩
        · exact older before
  linked := by
    intro a cell q live up
    rcases live_of_inserted atParent unused live with ⟨rfl, rfl⟩ | ⟨x, old, -, same, -⟩
    · cases up
      exact ⟨_, inserted_parent, List.mem_cons_self⟩
    · obtain ⟨y, there, member⟩ := tree.linked a x q old (same.trans up)
      by_cases atP : q = p
      · subst atP
        cases atParent.symm.trans there
        exact ⟨_, inserted_parent, List.mem_cons_of_mem _ member⟩
      · refine ⟨y, ?_, member⟩
        rw [inserted_other atP, there]
        intro atC
        rw [atC, unused] at there
        cases there
  once := by
    intro q cell live
    rcases live_of_inserted atParent unused live with ⟨-, rfl⟩ | ⟨x, old, -, -, list⟩
    · exact List.nodup_nil
    · rcases list with same | ⟨rfl, more⟩
      · rw [same]
        exact tree.once q x old
      · rw [more]
        refine List.nodup_cons.mpr ⟨fun member => ?_, tree.once q x old⟩
        obtain ⟨y, there, -⟩ := tree.child q x c old member
        rw [unused] at there
        cases there
  named := by
    intro q cell live
    rcases live_of_inserted atParent unused live with ⟨-, rfl⟩ | ⟨x, old, -, -, list⟩
    · exact fun a member => nomatch member
    · -- the names of the children there were before are those they had
      have before : ∀ a ∈ x.children, ∀ y, LinkedTrees.inserted cells p c parent name a = some y →
          ∃ z, cells a = some z ∧ z.name = y.name := by
        intro a member y after
        obtain ⟨z, there, -⟩ := tree.child q x a old member
        obtain ⟨w, after', same, -⟩ := inserted_of_live atParent unused there
        cases after.symm.trans after'
        exact ⟨z, there, same.symm⟩
      have older : ∀ a ∈ x.children, ∀ b ∈ x.children, ∀ y z, LinkedTrees.inserted cells p c parent name a = some y →
          LinkedTrees.inserted cells p c parent name b = some z → y.name = z.name → a = b := by
        intro a first b second y z atA atB same
        obtain ⟨y', atA', sameA⟩ := before a first y atA
        obtain ⟨z', atB', sameB⟩ := before b second z atB
        exact tree.named q x old a first b second y' z' atA' atB' (sameA.trans (same.trans sameB.symm))
      rcases list with same | ⟨rfl, more⟩
      · rw [same]
        exact older
      · rw [more]
        cases atParent.symm.trans old
        intro a first b second y z atA atB same
        rcases List.mem_cons.mp first with newA | oldA <;> rcases List.mem_cons.mp second with newB | oldB
        · exact newA.trans newB.symm
        · rw [newA, inserted_new atParent unused] at atA
          cases atA
          obtain ⟨w, there, sameW⟩ := before b oldB z atB
          exact absurd (sameW.trans same.symm) (alone b oldB w there)
        · rw [newB, inserted_new atParent unused] at atB
          cases atB
          obtain ⟨w, there, sameW⟩ := before a oldA y atA
          exact absurd (sameW.trans same) (alone a oldA w there)
        · exact older a oldA b oldB y z atA atB same
  reaches := by
    intro q cell live
    rcases live_of_inserted atParent unused live with ⟨rfl, -⟩ | ⟨x, old, -, -, -⟩
    · exact .step (inserted_new atParent unused) rfl
        ((tree.reaches p parent atParent).inserted atParent unused)
    · exact (tree.reaches q x old).inserted atParent unused

end Insertion

section Removal

/-- The cells after the child `c` of `p` has been taken out. -/
def removed (cells : Node → Option (Cell Node Name)) (p c : Node) (parent : Cell Node Name) :
    Node → Option (Cell Node Name) :=
  Function.update (Function.update cells p (some { parent with children := parent.children.erase c })) c none

variable {parent leaf : Cell Node Name}

theorem removed_self : removed cells p c parent c = none := by
  rw [removed, Function.update_self]

theorem removed_parent (apart : p ≠ c) :
    removed cells p c parent p = some { parent with children := parent.children.erase c } := by
  rw [removed, Function.update_of_ne apart, Function.update_self]

variable {q : Node}

theorem removed_other (notLeaf : q ≠ c) (notParent : q ≠ p) : removed cells p c parent q = cells q := by
  rw [removed, Function.update_of_ne notLeaf, Function.update_of_ne notParent]

variable (atParent : cells p = some parent) (member : c ∈ parent.children) (atLeaf : cells c = some leaf)
  (bare : leaf.children = [])

variable {cell : Cell Node Name}

include atParent in
theorem live_of_removed (live : removed cells p c parent q = some cell) :
    q ≠ c ∧ ∃ x, cells q = some x ∧ x.name = cell.name ∧ x.parent = cell.parent ∧
      (q ≠ p ∧ cell.children = x.children ∨ q = p ∧ cell.children = x.children.erase c) := by
  have other : q ≠ c := by
    intro same
    rw [same, removed_self] at live
    cases live
  refine ⟨other, ?_⟩
  by_cases atP : q = p
  · subst atP
    rw [removed_parent other] at live
    cases live
    exact ⟨parent, atParent, rfl, rfl, .inr ⟨rfl, rfl⟩⟩
  · rw [removed_other other atP] at live
    exact ⟨cell, live, rfl, rfl, .inl ⟨atP, rfl⟩⟩

include atParent in
theorem removed_of_live (live : cells q = some cell) (other : q ≠ c) :
    ∃ x, removed cells p c parent q = some x ∧ x.name = cell.name ∧ x.parent = cell.parent ∧
      ∀ a ≠ c, a ∈ cell.children → a ∈ x.children := by
  by_cases atP : q = p
  · subst atP
    cases atParent.symm.trans live
    exact ⟨_, removed_parent other, rfl, rfl, fun a different => (List.mem_erase_of_ne different).mpr⟩
  · exact ⟨cell, (removed_other other atP).trans live, rfl, rfl, fun a _ => id⟩

omit [DecidableEq Node] in
include atLeaf bare in
theorem Tree.parent_ne_leaf (tree : Tree cells root) {a : Node} (live : cells q = some cell)
    (up : cell.parent = some a) : a ≠ c := by
  intro same
  subst same
  obtain ⟨x, there, listed⟩ := tree.linked q cell a live up
  cases atLeaf.symm.trans there
  rw [bare] at listed
  cases listed

omit [DecidableEq Node] in
include atParent member in
theorem Tree.root_ne_child (tree : Tree cells root) : root ≠ c := by
  intro same
  obtain ⟨cell, live, highest⟩ := tree.top
  obtain ⟨x, there, up⟩ := tree.child p parent c atParent member
  rw [same] at live
  cases live.symm.trans there
  rw [highest] at up
  cases up

include atParent atLeaf bare in
theorem Reaches.removed (tree : Tree cells root) (reaches : Reaches cells root q) (other : q ≠ c) :
    Reaches (removed cells p c parent) root q := by
  induction reaches with
  | root => exact .root
  | step live up _ ih =>
    obtain ⟨x, live', -, same, -⟩ := removed_of_live atParent live other
    exact .step live' (same.trans up) (ih (tree.parent_ne_leaf atLeaf bare live up))

include atParent member atLeaf bare in
theorem Tree.remove (tree : Tree cells root) : Tree (removed cells p c parent) root where
  top := by
    obtain ⟨cell, live, highest⟩ := tree.top
    obtain ⟨x, live', -, same, -⟩ := removed_of_live atParent live (tree.root_ne_child atParent member)
    exact ⟨x, live', same.trans highest⟩
  child := by
    intro q cell a live listed
    obtain ⟨other, x, old, -, -, list⟩ := live_of_removed atParent live
    have before : a ∈ x.children ∧ a ≠ c := by
      rcases list with ⟨different, same⟩ | ⟨rfl, fewer⟩
      · refine ⟨same ▸ listed, fun atC => ?_⟩
        -- a child is listed by its parent only
        subst atC
        obtain ⟨y, there, up⟩ := tree.child q x a old (same ▸ listed)
        obtain ⟨z, there', up'⟩ := tree.child p parent a atParent member
        cases there.symm.trans there'
        cases up.symm.trans up'
        exact different rfl
      · rw [fewer] at listed
        have distinct := (tree.once q x old).mem_erase_iff.mp listed
        exact ⟨distinct.2, distinct.1⟩
    obtain ⟨y, there, up⟩ := tree.child q x a old before.1
    obtain ⟨z, there', -, same, -⟩ := removed_of_live atParent there before.2
    exact ⟨z, there', same.trans up⟩
  linked := by
    intro a cell q live up
    obtain ⟨other, x, old, -, same, -⟩ := live_of_removed atParent live
    obtain ⟨y, there, listed⟩ := tree.linked a x q old (same.trans up)
    have different := tree.parent_ne_leaf atLeaf bare old (same.trans up)
    obtain ⟨z, there', -, -, keeps⟩ := removed_of_live atParent there different
    exact ⟨z, there', keeps a other listed⟩
  once := by
    intro q cell live
    obtain ⟨-, x, old, -, -, list⟩ := live_of_removed atParent live
    rcases list with ⟨-, same⟩ | ⟨-, fewer⟩
    · rw [same]
      exact tree.once q x old
    · rw [fewer]
      exact (tree.once q x old).erase c
  named := by
    intro q cell live a first b second y z atA atB same
    obtain ⟨-, x, old, -, -, list⟩ := live_of_removed atParent live
    obtain ⟨-, y', atA', sameA, -⟩ := live_of_removed atParent atA
    obtain ⟨-, z', atB', sameB, -⟩ := live_of_removed atParent atB
    have sub : ∀ a, a ∈ cell.children → a ∈ x.children := by
      intro a listed
      rcases list with ⟨-, same⟩ | ⟨-, fewer⟩
      · exact same ▸ listed
      · rw [fewer] at listed
        exact List.mem_of_mem_erase listed
    exact tree.named q x old a (sub a first) b (sub b second) y' z' atA' atB' (sameA.trans (same.trans sameB.symm))
  reaches := by
    intro q cell live
    obtain ⟨other, x, old, -⟩ := live_of_removed atParent live
    exact (tree.reaches q x old).removed atParent atLeaf bare tree other

end Removal

end CreeperKernel.LinkedTrees

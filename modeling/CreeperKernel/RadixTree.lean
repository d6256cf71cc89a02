import Mathlib.Data.Set.Basic
import Mathlib.Data.List.Infix

/- Trees laid out in memory: a node is an array of entries, and an entry may name
a child node. Nodes are addressed by the path of indices that leads to them from
the root. The paths of interest form a prefix-closed set, which bounds the depth
and may leave out part of the root's entries. -/
namespace CreeperKernel.RadixTree

variable {ν ι ε : Type*}

/-- Following the entries along a path. -/
def nodeAt (child : ε → Option ν) (mem : ν → ι → ε) : ν → List ι → Option ν
  | n, [] => some n
  | n, i :: path => (child (mem n i)).bind fun next => nodeAt child mem next path

theorem concat_prefix_concat {p q : List ι} {i j : ι} (front : p ++ [j] <+: q ++ [i]) : p = q ∧ j = i ∨ p ++ [j] <+: q := by
  rcases List.prefix_concat_iff.mp front with same | before
  · have parts := List.append_inj' same rfl
    exact .inl ⟨parts.1, List.singleton_inj.mp parts.2⟩
  · exact .inr before

structure Scope (ι : Type*) where
  paths : Set (List ι)
  closed : ∀ {path : List ι} {i : ι}, path ++ [i] ∈ paths → path ∈ paths

variable {child : ε → Option ν} {mem after : ν → ι → ε} {root : ν} {scope : Scope ι}

@[simp] theorem nodeAt_nil (n : ν) : nodeAt child mem n [] = some n := rfl

theorem nodeAt_append (n : ν) (front back : List ι) : nodeAt child mem n (front ++ back) =
      (nodeAt child mem n front).bind fun next => nodeAt child mem next back := by
  induction front generalizing n with
  | nil => rfl
  | cons i front ih =>
    simp only [List.cons_append, nodeAt, Option.bind_assoc]
    congr 1
    funext next
    exact ih next

theorem nodeAt_concat (n : ν) (path : List ι) (i : ι) : nodeAt child mem n (path ++ [i]) =
      (nodeAt child mem n path).bind fun next => child (mem next i) := by
  rw [nodeAt_append]
  congr 1
  funext next
  simp [nodeAt]

variable {path p : List ι} {i : ι} {n : ν}

theorem nodeAt_concat_of (here : nodeAt child mem root path = some n) :
    nodeAt child mem root (path ++ [i]) = child (mem n i) := by
  rw [nodeAt_concat, here, Option.bind_some]

/-- No node is reached along two paths. -/
def Distinct (child : ε → Option ν) (scope : Scope ι) (mem : ν → ι → ε) (root : ν) : Prop :=
  ∀ p ∈ scope.paths, ∀ q ∈ scope.paths, ∀ n,
    nodeAt child mem root p = some n → nodeAt child mem root q = some n → p = q

def IsNode (child : ε → Option ν) (scope : Scope ι) (mem : ν → ι → ε) (root n : ν) : Prop :=
  ∃ p ∈ scope.paths, nodeAt child mem root p = some n

theorem nodeAt_congr (same : ∀ p i n, p ++ [i] ∈ scope.paths → nodeAt child mem root p = some n →
      child (after n i) = child (mem n i)) : ∀ p ∈ scope.paths, nodeAt child after root p = nodeAt child mem root p := by
  intro p
  induction p using List.reverseRecOn with
  | nil =>
    intro _
    rfl
  | append_singleton p i ih =>
    intro inside
    rw [nodeAt_concat, nodeAt_concat, ih (scope.closed inside)]
    cases reached : nodeAt child mem root p with
    | none => rfl
    | some n => exact same p i n inside reached

theorem Distinct.congr (distinct : Distinct child scope mem root)
    (same : ∀ p ∈ scope.paths, nodeAt child after root p = nodeAt child mem root p) : Distinct child scope after root := by
  intro p hp q hq n left right
  apply distinct p hp q hq n
  · rw [← same p hp]
    exact left
  · rw [← same q hq]
    exact right

theorem Distinct.of_le (distinct : Distinct child scope mem root)
    (fewer : ∀ p ∈ scope.paths, ∀ n, nodeAt child after root p = some n → nodeAt child mem root p = some n) :
    Distinct child scope after root := by
  intro p hp q hq n left right
  exact distinct p hp q hq n (fewer p hp n left) (fewer q hq n right)

/-- Exactly one entry of the tree names a node other than the root. -/
theorem Distinct.reference_unique (distinct : Distinct child scope mem root) {q : List ι} {j : ι} {m target : ν}
    (left : p ++ [i] ∈ scope.paths) (right : q ++ [j] ∈ scope.paths) (atP : nodeAt child mem root p = some m)
    (atQ : nodeAt child mem root q = some n) (first : child (mem m i) = some target)
    (second : child (mem n j) = some target) : p = q ∧ i = j := by
  have same : p ++ [i] = q ++ [j] := by
    apply distinct _ left _ right target
    · rw [nodeAt_concat_of atP]
      exact first
    · rw [nodeAt_concat_of atQ]
      exact second
  have parts := List.append_inj' same rfl
  exact ⟨parts.1, List.singleton_inj.mp parts.2⟩

theorem Distinct.root_unreferenced (distinct : Distinct child scope mem root) (inside : p ++ [i] ∈ scope.paths)
    (nil : [] ∈ scope.paths) (atP : nodeAt child mem root p = some n) : child (mem n i) ≠ some root := by
  intro reference
  have same : p ++ [i] = [] := by
    apply distinct _ inside _ nil root
    · rw [nodeAt_concat_of atP]
      exact reference
    · rfl
  simp at same

/-- The entry with index `i` of the node at a path. -/
def entryAt (child : ε → Option ν) (mem : ν → ι → ε) (root : ν) (path : List ι) (i : ι) : Option ε :=
  (nodeAt child mem root path).map fun n => mem n i

theorem entryAt_of (here : nodeAt child mem root path = some n) (j : ι) :
    entryAt child mem root path j = some (mem n j) := by
  rw [entryAt, here, Option.map_some]

/-- The entry with index `i` at a path, where a node that is not there reads as blank. -/
def readAt (child : ε → Option ν) (blank : ε) (mem : ν → ι → ε) (root : ν) (path : List ι) (i : ι) : ε :=
  (entryAt child mem root path i).getD blank

section Reads

variable {z : ε} {path : List ι}

variable {n : ν}

theorem readAt_of (here : nodeAt child mem root path = some n) (j : ι) : readAt child z mem root path j = mem n j := by
  rw [readAt, entryAt_of here, Option.getD_some]

theorem readAt_of_none (nothing : nodeAt child mem root path = none) (j : ι) : readAt child z mem root path j = z := by
  rw [readAt, entryAt, nothing]
  rfl

theorem nodeAt_concat_readAt (bare : child z = none) (path : List ι) (i : ι) :
    nodeAt child mem root (path ++ [i]) = child (readAt child z mem root path i) := by
  cases reached : nodeAt child mem root path with
  | none => rw [readAt_of_none reached, nodeAt_concat, reached, Option.bind_none, bare]
  | some n => rw [readAt_of reached, nodeAt_concat_of reached]

theorem readAt_below_blank (bare : child z = none) (here : nodeAt child mem root path = some n)
    (blank : ∀ j, mem n j = z) {p : List ι} (below : path <+: p) (j : ι) : readAt child z mem root p j = z := by
  obtain ⟨rest, rfl⟩ := below
  cases rest with
  | nil => rw [List.append_nil, readAt_of here, blank]
  | cons k rest =>
    apply readAt_of_none
    rw [nodeAt_append, here, Option.bind_some, nodeAt, blank, bare, Option.bind_none]

end Reads

section Write

variable [DecidableEq ν] [DecidableEq ι]

def write (mem : ν → ι → ε) (n : ν) (i : ι) (e : ε) : ν → ι → ε :=
  Function.update mem n (Function.update (mem n) i e)

@[simp] theorem write_self (mem : ν → ι → ε) (n : ν) (i : ι) (e : ε) : write mem n i e n i = e := by
  simp [write]

variable {n : ν}

theorem write_of_ne_node (mem : ν → ι → ε) {m : ν} (i : ι) (e : ε) (apart : m ≠ n) : write mem n i e m = mem m :=
  Function.update_of_ne apart _ _

theorem write_of_ne_index (mem : ν → ι → ε) (n : ν) {i j : ι} (e : ε) (apart : j ≠ i) : write mem n i e n j = mem n j := by
  simp [write, Function.update_of_ne apart]

theorem write_apply (mem : ν → ι → ε) (n m : ν) (i j : ι) (e : ε) :
    write mem n i e m j = if m = n ∧ j = i then e else mem m j := by
  by_cases node : m = n
  · subst node
    by_cases index : j = i
    · subst index
      simp
    · simp [index, write_of_ne_index mem m e index]
  · simp [node, write_of_ne_node mem i e node]

variable {q : List ι} {i : ι} {t : ν} {e : ε}

theorem Distinct.write_elsewhere (distinct : Distinct child scope mem root) {p : List ι} {n : ν} {j : ι}
    (member : p ∈ scope.paths) (reached : nodeAt child mem root p = some n) (inside : q ∈ scope.paths)
    (here : nodeAt child mem root q = some t) (off : ¬ (p = q ∧ j = i)) (other : ν → ι → ε) :
    write other t i e n j = other n j := by
  rw [write_apply, if_neg]
  rintro ⟨rfl, rfl⟩
  exact off ⟨distinct p member q inside n reached here, rfl⟩

theorem nodeAt_write_same (distinct : Distinct child scope mem root) (inside : q ∈ scope.paths)
    (here : nodeAt child mem root q = some t) (keeps : q ++ [i] ∈ scope.paths → child e = child (mem t i)) :
    ∀ p ∈ scope.paths, nodeAt child (write mem t i e) root p = nodeAt child mem root p := by
  apply nodeAt_congr
  intro p j n extended reached
  rw [write_apply]
  split
  · rename_i same
    obtain ⟨rfl, rfl⟩ := same
    have path : p = q := distinct p (scope.closed extended) q inside n reached here
    rw [path] at extended
    exact keeps extended
  · rfl

/-- Replacing the child behind one entry, where neither the old nor the new child
has children of its own, changes one path only. -/
theorem nodeAt_relink (distinct : Distinct child scope mem root) (inside : q ++ [i] ∈ scope.paths)
    (here : nodeAt child mem root q = some t) (oldBare : ∀ n, child (mem t i) = some n → ∀ j, child (mem n j) = none)
    (newBare : ∀ n, child e = some n → n ≠ t ∧ ∀ j, child (mem n j) = none) :
    ∀ p ∈ scope.paths, nodeAt child (write mem t i e) root p =
      if p = q ++ [i] then child e else nodeAt child mem root p := by
  intro p
  induction p using List.reverseRecOn with
  | nil =>
    intro _
    simp
  | append_singleton p j ih =>
    intro extended
    rw [nodeAt_concat, ih (scope.closed extended)]
    by_cases below : p = q ++ [i]
    · -- one level below the entry: the new child is bare, and so was the old one
      have longer : p ++ [j] ≠ q ++ [i] := by
        rw [below]
        intro same
        have := congrArg List.length same
        simp at this
      rw [if_pos below, if_neg longer, nodeAt_concat, below, nodeAt_concat_of here]
      have before : ((child (mem t i)).bind fun next => child (mem next j)) = none := by
        cases old : child (mem t i) with
        | none => rfl
        | some n => exact oldBare n old j
      rw [before]
      cases new : child e with
      | none => rfl
      | some n =>
        obtain ⟨apart, bare⟩ := newBare n new
        rw [Option.bind_some, write_of_ne_node mem i e apart]
        exact bare j
    · rw [if_neg below]
      by_cases exactly : p ++ [j] = q ++ [i]
      · obtain ⟨rfl, last⟩ := List.append_inj' exactly rfl
        obtain rfl := List.singleton_inj.mp last
        rw [if_pos rfl, here, Option.bind_some, write_self]
      · rw [if_neg exactly, nodeAt_concat]
        cases reached : nodeAt child mem root p with
        | none => rfl
        | some n =>
          have off : ¬ (p = q ∧ j = i) := by
            rintro ⟨rfl, rfl⟩
            exact exactly rfl
          rw [Option.bind_some, Option.bind_some,
            distinct.write_elsewhere (scope.closed extended) reached (scope.closed inside) here off]

theorem nodeAt_cut (distinct : Distinct child scope mem root) (inside : q ∈ scope.paths)
    (here : nodeAt child mem root q = some t) (gone : q ++ [i] ∈ scope.paths → child e = none) :
    ∀ p ∈ scope.paths, nodeAt child (write mem t i e) root p = if q ++ [i] <+: p then none else nodeAt child mem root p := by
  intro p
  induction p using List.reverseRecOn with
  | nil =>
    intro _
    simp
  | append_singleton p j ih =>
    intro extended
    have before := scope.closed extended
    have longer : q ++ [i] <+: p ++ [j] ↔ q ++ [i] = p ++ [j] ∨ q ++ [i] <+: p :=
      List.prefix_concat_iff
    rw [nodeAt_concat, ih before]
    by_cases below : q ++ [i] <+: p
    · rw [if_pos below, if_pos (longer.mpr (.inr below)), Option.bind_none]
    · rw [if_neg below]
      by_cases exactly : q ++ [i] = p ++ [j]
      · rw [if_pos (longer.mpr (.inl exactly))]
        obtain ⟨rfl, last⟩ := List.append_inj' exactly rfl
        obtain rfl := List.singleton_inj.mp last
        simp [here, gone extended]
      · have apart : ¬ q ++ [i] <+: p ++ [j] := fun some => (longer.mp some).elim exactly below
        rw [if_neg apart, nodeAt_concat]
        cases reached : nodeAt child mem root p with
        | none => rfl
        | some n =>
          have off : ¬ (p = q ∧ j = i) := by
            rintro ⟨rfl, rfl⟩
            exact exactly rfl
          rw [Option.bind_some, Option.bind_some,
            distinct.write_elsewhere before reached inside here off]

theorem entryAt_write_same (distinct : Distinct child scope mem root) (inside : q ∈ scope.paths)
    (here : nodeAt child mem root q = some t) (keeps : q ++ [i] ∈ scope.paths → child e = child (mem t i)) :
    ∀ p ∈ scope.paths, ∀ j, entryAt child (write mem t i e) root p j =
      if p = q ∧ j = i then some e else entryAt child mem root p j := by
  intro p member j
  rw [entryAt, nodeAt_write_same distinct inside here keeps p member]
  by_cases on : p = q ∧ j = i
  · obtain ⟨rfl, rfl⟩ := on
    simp [here]
  · rw [if_neg on, entryAt]
    cases reached : nodeAt child mem root p with
    | none => rfl
    | some n =>
      rw [Option.map_some, Option.map_some, distinct.write_elsewhere member reached inside here on]

theorem entryAt_cut (distinct : Distinct child scope mem root) (inside : q ∈ scope.paths)
    (here : nodeAt child mem root q = some t) (gone : q ++ [i] ∈ scope.paths → child e = none) :
    ∀ p ∈ scope.paths, ∀ j, entryAt child (write mem t i e) root p j =
      if p = q ∧ j = i then some e else if q ++ [i] <+: p then none else entryAt child mem root p j := by
  intro p member j
  rw [entryAt, nodeAt_cut distinct inside here gone p member]
  by_cases on : p = q ∧ j = i
  · obtain ⟨rfl, rfl⟩ := on
    have notBelow : ¬ p ++ [j] <+: p := by
      intro shorter
      have longer := shorter.length_le
      rw [List.length_append, List.length_singleton] at longer
      omega
    simp [here, notBelow]
  · rw [if_neg on]
    by_cases below : q ++ [i] <+: p
    · simp [below]
    · rw [if_neg below, if_neg below, entryAt]
      cases reached : nodeAt child mem root p with
      | none => rfl
      | some n =>
        rw [Option.map_some, Option.map_some, distinct.write_elsewhere member reached inside here on]

variable {z : ε} {cleared : ν → ι → ε}

/-- Clearing a node outside the tree and hanging it into an entry without a child. -/
theorem nodeAt_attach (distinct : Distinct child scope mem root) (inside : q ++ [i] ∈ scope.paths)
    (here : nodeAt child mem root q = some t) (absent : child (mem t i) = none)
    (fresh : ¬ IsNode child scope mem root n) (blank : ∀ j, cleared n j = z) (bare : child z = none)
    (others : ∀ f, f ≠ n → cleared f = mem f) (link : child e = some n) :
    ∀ p ∈ scope.paths, nodeAt child (write cleared t i e) root p =
      if p = q ++ [i] then some n else nodeAt child mem root p := by
  have same : ∀ p ∈ scope.paths, nodeAt child cleared root p = nodeAt child mem root p := by
    apply nodeAt_congr
    intro p j f extended reached
    have other : f ≠ n := by
      rintro rfl
      exact fresh ⟨p, scope.closed extended, reached⟩
    rw [others f other]
  have apart : n ≠ t := by
    rintro rfl
    exact fresh ⟨q, scope.closed inside, here⟩
  intro p member
  rw [← same p member, ← link]
  apply nodeAt_relink (distinct.congr same) inside ((same q (scope.closed inside)).trans here) _ _ p member
  · intro m reference
    rw [others t apart.symm, absent] at reference
    cases reference
  · intro m reference
    rw [link] at reference
    cases reference
    exact ⟨apart, fun j => by rw [blank j]; exact bare⟩

theorem entryAt_attach (distinct : Distinct child scope mem root) (inside : q ++ [i] ∈ scope.paths)
    (here : nodeAt child mem root q = some t) (absent : child (mem t i) = none)
    (fresh : ¬ IsNode child scope mem root n) (blank : ∀ j, cleared n j = z) (bare : child z = none)
    (others : ∀ f, f ≠ n → cleared f = mem f) (link : child e = some n) :
    ∀ p ∈ scope.paths, ∀ j, entryAt child (write cleared t i e) root p j =
      if p = q ∧ j = i then some e else if p = q ++ [i] then some z else entryAt child mem root p j := by
  intro p member j
  have apart : n ≠ t := by
    rintro rfl
    exact fresh ⟨q, scope.closed inside, here⟩
  rw [entryAt, nodeAt_attach distinct inside here absent fresh blank bare others link p member]
  by_cases on : p = q ∧ j = i
  · obtain ⟨rfl, rfl⟩ := on
    simp [here]
  · rw [if_neg on]
    by_cases new : p = q ++ [i]
    · rw [if_pos new, if_pos new, Option.map_some, write_of_ne_node cleared i e apart, blank j]
    · rw [if_neg new, if_neg new, entryAt]
      cases reached : nodeAt child mem root p with
      | none => rfl
      | some f =>
        have other : f ≠ n := by
          rintro rfl
          exact fresh ⟨p, member, reached⟩
        rw [Option.map_some, Option.map_some,
          distinct.write_elsewhere member reached (scope.closed inside) here on, others f other]

section ReadWrite

variable {z : ε}

theorem readAt_write_same (distinct : Distinct child scope mem root) (inside : q ∈ scope.paths)
    (here : nodeAt child mem root q = some t) (keeps : q ++ [i] ∈ scope.paths → child e = child (mem t i)) :
    ∀ p ∈ scope.paths, ∀ j, readAt child z (write mem t i e) root p j =
      if p = q ∧ j = i then e else readAt child z mem root p j := by
  intro p member j
  rw [readAt, entryAt_write_same distinct inside here keeps p member j]
  split
  · rfl
  · rfl

variable {n : ν}

theorem readAt_attach {cleared : ν → ι → ε} (distinct : Distinct child scope mem root)
    (inside : q ++ [i] ∈ scope.paths) (here : nodeAt child mem root q = some t) (absent : child (mem t i) = none)
    (fresh : ¬ IsNode child scope mem root n) (blank : ∀ j, cleared n j = z) (bare : child z = none)
    (others : ∀ f, f ≠ n → cleared f = mem f) (link : child e = some n) :
    ∀ p ∈ scope.paths, ∀ j, readAt child z (write cleared t i e) root p j =
      if p = q ∧ j = i then e else readAt child z mem root p j := by
  intro p member j
  rw [readAt, entryAt_attach distinct inside here absent fresh blank bare others link p member j]
  by_cases on : p = q ∧ j = i
  · rw [if_pos on, if_pos on, Option.getD_some]
  · rw [if_neg on, if_neg on]
    by_cases new : p = q ++ [i]
    · -- the new node reads as the missing one did
      have nothing : nodeAt child mem root p = none := by
        rw [new, nodeAt_concat_of here, absent]
      rw [if_pos new, readAt_of_none nothing, Option.getD_some]
    · rw [if_neg new, readAt]

theorem readAt_prune (distinct : Distinct child scope mem root) (inside : q ++ [i] ∈ scope.paths)
    (here : nodeAt child mem root q = some t) (below : nodeAt child mem root (q ++ [i]) = some n)
    (blank : ∀ j, mem n j = z) (bare : child z = none) : ∀ p ∈ scope.paths, ∀ j, readAt child z (write mem t i z) root p j =
      if p = q ∧ j = i then z else readAt child z mem root p j := by
  intro p member j
  rw [readAt, entryAt_cut distinct (scope.closed inside) here (fun _ => bare) p member j]
  by_cases on : p = q ∧ j = i
  · rw [if_pos on, if_pos on, Option.getD_some]
  · rw [if_neg on, if_neg on]
    by_cases under : q ++ [i] <+: p
    · rw [if_pos under, readAt_below_blank bare below blank under, Option.getD_none]
    · rw [if_neg under, readAt]

end ReadWrite

end Write

section Shape

variable [DecidableEq ι] {q : List ι} {i : ι}

theorem Distinct.attach (distinct : Distinct child scope mem root) {n : ν}
    (moved : ∀ p ∈ scope.paths, nodeAt child after root p = if p = q ++ [i] then some n else nodeAt child mem root p)
    (fresh : ¬ IsNode child scope mem root n) : Distinct child scope after root := by
  intro p hp p' hp' m left right
  rw [moved p hp] at left
  rw [moved p' hp'] at right
  by_cases here : p = q ++ [i]
  · by_cases there : p' = q ++ [i]
    · rw [here, there]
    · rw [if_pos here] at left
      rw [if_neg there] at right
      cases left
      exact absurd ⟨p', hp', right⟩ fresh
  · rw [if_neg here] at left
    by_cases there : p' = q ++ [i]
    · rw [if_pos there] at right
      cases right
      exact absurd ⟨p, hp, left⟩ fresh
    · rw [if_neg there] at right
      exact distinct p hp p' hp' m left right

theorem Distinct.detach (distinct : Distinct child scope mem root) (moved : ∀ p ∈ scope.paths, nodeAt child after root p =
      if p = q ++ [i] then none else nodeAt child mem root p) : Distinct child scope after root := by
  intro p hp p' hp' m left right
  rw [moved p hp] at left
  rw [moved p' hp'] at right
  by_cases here : p = q ++ [i]
  · rw [if_pos here] at left
    cases left
  · by_cases there : p' = q ++ [i]
    · rw [if_pos there] at right
      cases right
    · rw [if_neg here] at left
      rw [if_neg there] at right
      exact distinct p hp p' hp' m left right

end Shape

end CreeperKernel.RadixTree

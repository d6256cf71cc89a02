import CreeperKernel.PageTableReads
import CreeperKernel.PageTableRelease

namespace CreeperKernel.Vmm

open RadixTree

/-- The entries of the table at `path` that `vmm_free_user_tables` looks at. -/
def UserEntry (path : List Index) (i : Index) : Prop := path = [] → i.val < 256

instance (path : List Index) (i : Index) : Decidable (UserEntry path i) :=
  inferInstanceAs (Decidable (path = [] → i.val < 256))

/-- An entry of the table at `path` that maps a page. -/
def IsLeaf (path : List Index) (e : Entry) : Prop := path.length = 3 ∨ path ≠ [] ∧ isHuge e = true

/-- The tables of the lower half. -/
def userScope (mem : Memory) (root : Frame) : TableScope where
  paths := {p | p.length ≤ 3 ∧ ∀ q i, q ++ [i] <+: p → UserEntry q i ∧
    (isPresent (readEntry mem root q i) = true → ¬ IsLeaf q (readEntry mem root q i))}
  closed := by
    intro p i inside
    have shorter : p <+: p ++ [i] := List.prefix_append p [i]
    exact ⟨shorter.length_le.trans inside.1, fun q j front => inside.2 q j (front.trans shorter)⟩
  depth := fun _ inside => inside.1

/-- A present `PTE_LOCAL_OWNED` leaf of the lower half. -/
structure OwnedLeaf (mem : Memory) (root : Frame) (q : List Index) (i : Index) : Prop where
  inside : q ∈ (userScope mem root).paths
  user : UserEntry q i
  present : isPresent (readEntry mem root q i) = true
  leaf : IsLeaf q (readEntry mem root q i)
  owned : isOwned (readEntry mem root q i) = true

/-- The lower half is a tree, and its owned pages are different frames and no tables. -/
structure OwnedTree (mem : Memory) (root : Frame) : Prop where
  tree : Distinct entryChild (userScope mem root).toScope mem root
  distinct : ∀ q i q' i', OwnedLeaf mem root q i → OwnedLeaf mem root q' i' →
    frameOf (readEntry mem root q i) = frameOf (readEntry mem root q' i') → q = q' ∧ i = i'
  apart : ∀ q i, OwnedLeaf mem root q i →
    ¬ IsTable (userScope mem root) mem root (frameOf (readEntry mem root q i))

/-- The frames that are given back for one entry, with those `below` a table before the
table. -/
def givenFor (below : Frame → List Frame) (level : Nat) (e : Entry) : List Frame :=
  if ¬ isPresent e then []
  else if level = 1 ∨ (level < 4 ∧ isHuge e) then (if isOwned e then [frameOf e] else [])
  else below (frameOf e) ++ [frameOf e]

/-- The frames `vmm_free_user_tables` gives back, in this order. -/
def givenBack (mem : Memory) : Nat → Frame → List Frame
  | 0, _ => []
  | level + 1, table => (userEntries (level + 1)).flatMap fun i =>
    givenFor (fun child => givenBack mem level child) (level + 1) (mem table i)

section Paths

variable {mem : Memory} {root : Frame} {p q : List Index} {i : Index} {level : Nat}

theorem userScope_nil (mem : Memory) (root : Frame) : [] ∈ (userScope mem root).paths := by
  apply And.intro (Nat.zero_le 3)
  intro q i front
  simp at front

theorem userScope_concat (inside : p ∈ (userScope mem root).paths) (user : UserEntry p i)
    (inner : ¬ IsLeaf p (readEntry mem root p i)) : p ++ [i] ∈ (userScope mem root).paths := by
  constructor
  · have bound := inside.1
    have short : p.length ≠ 3 := fun full => inner (.inl full)
    rw [List.length_append, List.length_singleton]
    omega
  · intro q j front
    rcases concat_prefix_concat front with ⟨rfl, rfl⟩ | before
    · exact ⟨user, fun _ => inner⟩
    · exact inside.2 q j before

theorem leaf_iff (depth : p.length + (level + 1) = 4) (e : Entry) :
    (level + 1 = 1 ∨ (level + 1 < 4 ∧ isHuge e = true)) ↔ IsLeaf p e := by
  have last : level + 1 = 1 ↔ p.length = 3 := by omega
  have below : level + 1 < 4 ↔ p ≠ [] := by
    rw [← List.length_pos_iff]
    omega
  rw [IsLeaf, last, below]

theorem mem_userEntries (depth : p.length + (level + 1) = 4) (i : Index) : i ∈ userEntries (level + 1) ↔ UserEntry p i := by
  have top : level + 1 = 4 ↔ p = [] := by
    rw [← List.length_eq_zero_iff]
    omega
  rw [userEntries, UserEntry]
  split
  · rename_i four
    have root := top.mp four
    simp only [lowerHalf, List.mem_map, List.mem_finRange, true_and, root, true_implies]
    constructor
    · rintro ⟨j, rfl⟩
      exact j.isLt
    · intro low
      exact ⟨⟨i.val, low⟩, rfl⟩
  · rename_i below
    simp only [List.mem_finRange, true_iff]
    exact fun root => absurd (top.mpr root) below

theorem userEntries_nodup (level : Nat) : (userEntries level).Nodup := by
  unfold userEntries
  split
  · exact (List.nodup_finRange 256).map (Fin.castLE_injective _)
  · exact List.nodup_finRange 512

end Paths

/-- The entry `i` of the table at `q` makes the teardown give back `f`. -/
structure Gives (mem : Memory) (root : Frame) (q : List Index) (i : Index) (f : Frame) : Prop where
  inside : q ∈ (userScope mem root).paths
  user : UserEntry q i
  present : isPresent (readEntry mem root q i) = true
  owned : IsLeaf q (readEntry mem root q i) → isOwned (readEntry mem root q i) = true
  frame : frameOf (readEntry mem root q i) = f

section Given

variable {mem : Memory} {root table f : Frame} {p q q' : List Index} {i i' : Index} {level : Nat}

theorem Gives.reaches (gives : Gives mem root q i f) (inner : ¬ IsLeaf q (readEntry mem root q i)) :
    q ++ [i] ∈ (userScope mem root).paths ∧ tableAt mem root (q ++ [i]) = some f := by
  apply And.intro (userScope_concat gives.inside gives.user inner)
  rw [tableAt_concat, entryChild_of_present gives.present, gives.frame]

theorem Gives.ownedLeaf (gives : Gives mem root q i f) (leaf : IsLeaf q (readEntry mem root q i)) : OwnedLeaf mem root q i :=
  ⟨gives.inside, gives.user, gives.present, leaf, gives.owned leaf⟩

/-- Every frame is given back for one entry only. -/
theorem Gives.unique (owned : OwnedTree mem root) (left : Gives mem root q i f) (right : Gives mem root q' i' f) :
    q = q' ∧ i = i' := by
  by_cases leaf : IsLeaf q (readEntry mem root q i)
  · have page := left.ownedLeaf leaf
    by_cases leaf' : IsLeaf q' (readEntry mem root q' i')
    · exact owned.distinct q i q' i' page (right.ownedLeaf leaf') (left.frame.trans right.frame.symm)
    · have ⟨inside, reached⟩ := right.reaches leaf'
      have no := owned.apart q i page
      rw [left.frame] at no
      exact absurd ⟨_, inside, reached⟩ no
  · have ⟨inside, reached⟩ := left.reaches leaf
    by_cases leaf' : IsLeaf q' (readEntry mem root q' i')
    · have no := owned.apart q' i' (right.ownedLeaf leaf')
      rw [right.frame] at no
      exact absurd ⟨_, inside, reached⟩ no
    · have ⟨inside', reached'⟩ := right.reaches leaf'
      have parts := List.append_inj' (owned.tree _ inside _ inside' f reached reached') rfl
      exact ⟨parts.1, List.singleton_inj.mp parts.2⟩

theorem mem_entry_givenBack (depth : p.length + (level + 1) = 4) (inside : p ∈ (userScope mem root).paths)
    (here : tableAt mem root p = some table) (user : UserEntry p i)
    (below : ∀ {child : Frame}, p ++ [i] ∈ (userScope mem root).paths → tableAt mem root (p ++ [i]) = some child →
      (f ∈ givenBack mem level child ↔ ∃ q k, p ++ [i] <+: q ∧ Gives mem root q k f)) :
    f ∈ givenFor (fun child => givenBack mem level child) (level + 1) (mem table i) ↔
      Gives mem root p i f ∨ ∃ q k, p ++ [i] <+: q ∧ Gives mem root q k f := by
  have read : readEntry mem root p i = mem table i := readAt_of here i
  -- nothing below an entry that leads to no table
  have nothing : (isPresent (mem table i) = true → IsLeaf p (mem table i)) →
      ¬ ∃ q k, p ++ [i] <+: q ∧ Gives mem root q k f := by
    intro noTable ⟨q, k, front, gives⟩
    have present : isPresent (readEntry mem root p i) = true := by
      cases reached : tableAt mem root q with
      | none =>
        have present := gives.present
        rw [readEntry, readAt_of_none reached] at present
        cases present
      | some g => exact present_above_table reached front
    have inner := (gives.inside.2 p i front).2 present
    rw [read] at present inner
    exact inner (noTable present)
  unfold givenFor
  by_cases present : isPresent (mem table i) = true
  · rw [if_neg (not_not.mpr present)]
    by_cases leaf : IsLeaf p (mem table i)
    · rw [if_pos ((leaf_iff depth _).mpr leaf), or_iff_left (nothing fun _ => leaf)]
      constructor
      · intro member
        split at member
        · rename_i owned
          rw [List.mem_singleton] at member
          exact ⟨inside, user, by rw [read]; exact present, fun _ => by rw [read]; exact owned,
            by rw [read]; exact member.symm⟩
        · cases member
      · intro gives
        have owned := gives.owned (by rw [read]; exact leaf)
        have frame := gives.frame
        rw [read] at owned frame
        rw [if_pos owned, List.mem_singleton]
        exact frame.symm
    · rw [if_neg fun yes => leaf ((leaf_iff depth _).mp yes), List.mem_append, List.mem_singleton]
      have further := userScope_concat inside user (by rw [read]; exact leaf)
      have child : tableAt mem root (p ++ [i]) = some (frameOf (mem table i)) := by
        rw [tableAt_concat, read, entryChild_of_present present]
      rw [below further child, or_comm]
      apply or_congr_left
      constructor
      · intro same
        exact ⟨inside, user, by rw [read]; exact present, fun yes => absurd (read ▸ yes) leaf,
          by rw [read]; exact same.symm⟩
      · intro gives
        have frame := gives.frame
        rw [read] at frame
        exact frame.symm
  · rw [if_pos present, or_iff_left (nothing fun yes => absurd yes present)]
    constructor
    · intro member
      cases member
    · intro gives
      have yes := gives.present
      rw [read] at yes
      exact absurd yes present

theorem mem_givenBack (depth : p.length + level = 4) (inside : p ∈ (userScope mem root).paths)
    (here : tableAt mem root p = some table) : f ∈ givenBack mem level table ↔ ∃ q k, p <+: q ∧ Gives mem root q k f := by
  induction level generalizing p table with
  | zero =>
    have bound := inside.1
    omega
  | succ level ih =>
    have entry := fun i (user : UserEntry p i) => mem_entry_givenBack (f := f) depth inside here user
      fun further child => ih (by rw [List.length_append, List.length_singleton]; omega) further child
    rw [givenBack, List.mem_flatMap]
    constructor
    · intro ⟨i, member, gives⟩
      have user := (mem_userEntries depth i).mp member
      rcases (entry i user).mp gives with here | ⟨q, k, front, gives⟩
      · exact ⟨p, i, List.prefix_refl p, here⟩
      · exact ⟨q, k, (List.prefix_append p [i]).trans front, gives⟩
    · intro ⟨q, k, ⟨rest, same⟩, gives⟩
      cases rest with
      | nil =>
        rw [List.append_nil] at same
        rw [← same] at gives
        exact ⟨k, (mem_userEntries depth k).mpr gives.user, (entry k gives.user).mpr (.inl gives)⟩
      | cons j rest =>
        have front : p ++ [j] <+: q := ⟨rest, by rw [← same, List.append_assoc]; rfl⟩
        have user := (gives.inside.2 p j front).1
        exact ⟨j, (mem_userEntries depth j).mpr user, (entry j user).mpr (.inr ⟨q, k, front, gives⟩)⟩

/-- An entry gives back nothing that another entry of the same table gives back. -/
theorem gives_apart (owned : OwnedTree mem root) {j : Index} (other : i ≠ j)
    (left : Gives mem root p i f ∨ ∃ q k, p ++ [i] <+: q ∧ Gives mem root q k f)
    (right : Gives mem root p j f ∨ ∃ q k, p ++ [j] <+: q ∧ Gives mem root q k f) : False := by
  have longer : ∀ {k : Index}, ¬ p ++ [k] <+: p := by
    intro k front
    have length := front.length_le
    rw [List.length_append, List.length_singleton] at length
    omega
  rcases left with left | ⟨q, k, front, left⟩
  · rcases right with right | ⟨q', k', front', right⟩
    · exact other (left.unique owned right).2
    · rw [← (left.unique owned right).1] at front'
      exact longer front'
  · rcases right with right | ⟨q', k', front', right⟩
    · rw [(left.unique owned right).1] at front
      exact longer front
    · rw [← (left.unique owned right).1] at front'
      have same : p ++ [i] = p ++ [j] :=
        (List.prefix_of_prefix_length_le front front' (by simp)).eq_of_length (by simp)
      exact other (List.singleton_inj.mp (List.append_cancel_left same))

theorem givenBack_nodup (owned : OwnedTree mem root) (depth : p.length + level = 4)
    (inside : p ∈ (userScope mem root).paths) (here : tableAt mem root p = some table) :
    (givenBack mem level table).Nodup := by
  induction level generalizing p table with
  | zero => exact List.nodup_nil
  | succ level ih =>
    have deeper : ∀ i : Index, (p ++ [i]).length + level = 4 := by
      intro i
      rw [List.length_append, List.length_singleton]
      omega
    have entry := fun (f : Frame) i (user : UserEntry p i) => mem_entry_givenBack (f := f) depth inside here user
      fun further child => mem_givenBack (deeper i) further child
    rw [givenBack, List.nodup_flatMap]
    constructor
    · intro i member
      have user := (mem_userEntries depth i).mp member
      have read : readEntry mem root p i = mem table i := readAt_of here i
      unfold givenFor
      split
      · exact List.nodup_nil
      rename_i present
      split
      · split
        · exact List.nodup_singleton _
        · exact List.nodup_nil
      · rename_i inner
        have inner : ¬ IsLeaf p (readEntry mem root p i) := by
          rw [read]
          exact fun leaf => inner ((leaf_iff depth _).mpr leaf)
        have further := userScope_concat inside user inner
        have child : tableAt mem root (p ++ [i]) = some (frameOf (mem table i)) := by
          rw [tableAt_concat, read, entryChild_of_present (not_not.mp present)]
        rw [List.nodup_append]
        refine ⟨ih (deeper i) further child, List.nodup_singleton _, fun f below g single same => ?_⟩
        rw [List.mem_singleton] at single
        rw [same, single] at below
        -- the table itself is given back for its own entry, which is further up
        obtain ⟨q, k, front, gives⟩ := (mem_givenBack (deeper i) further child).mp below
        have own : Gives mem root p i (frameOf (mem table i)) :=
          ⟨inside, user, by rw [read]; exact not_not.mp present, fun leaf => absurd leaf inner, by rw [read]⟩
        rw [(gives.unique owned own).1] at front
        have length := front.length_le
        rw [List.length_append, List.length_singleton] at length
        omega
    · refine (userEntries_nodup (level + 1)).pairwise_of_forall_ne fun i left j right other f first second => ?_
      exact gives_apart owned other ((entry f i ((mem_userEntries depth i).mp left)).mp first)
        ((entry f j ((mem_userEntries depth j).mp right)).mp second)

end Given

/-- What is left of a table when the teardown has gone over it. -/
def wiped (q : List Index) (entries : Index → Entry) : Index → Entry :=
  fun i => if UserEntry q i ∧ isPresent (entries i) = true then 0 else entries i

/-- The table at `p` after the entries `done`: they and the tables behind them are wiped, and the
frames they name are given back. -/
structure Swept {σ : Type} [FrameAllocator σ] (mem : Memory) (root : Frame) (p : List Index) (table : Frame)
    (start : Machine σ) (given : List Frame) (done : List Index) (m : Machine σ) : Prop where
  frames : m.frames = given.foldl FrameAllocator.pmmFree start.frames
  here : ∀ i, m.mem table i = if i ∈ done ∧ isPresent (mem table i) = true then 0 else mem table i
  behind : ∀ q ∈ (userScope mem root).paths, ∀ i f, p ++ [i] <+: q → tableAt mem root q = some f →
    m.mem f = if i ∈ done then wiped q (mem f) else mem f
  others : ∀ f, (∀ q ∈ (userScope mem root).paths, p <+: q → tableAt mem root q ≠ some f) → m.mem f = start.mem f

/-- The table at `p` and everything behind it is wiped. -/
structure Torn {σ : Type} [FrameAllocator σ] (mem : Memory) (root : Frame) (p : List Index) (start : Machine σ)
    (given : List Frame) (m : Machine σ) : Prop where
  frames : m.frames = given.foldl FrameAllocator.pmmFree start.frames
  below : ∀ q ∈ (userScope mem root).paths, p <+: q → ∀ f, tableAt mem root q = some f → m.mem f = wiped q (mem f)
  others : ∀ f, (∀ q ∈ (userScope mem root).paths, p <+: q → tableAt mem root q ≠ some f) → m.mem f = start.mem f

section Run

variable {σ : Type} [FrameAllocator σ] {mem : Memory} {root table : Frame} {p : List Index} {i : Index} {level : Nat}
  {start m : Machine σ} {given : List Frame} {done : List Index}

theorem Swept.store (tree : Distinct entryChild (userScope mem root).toScope mem root)
    (inside : p ∈ (userScope mem root).paths) (here : tableAt mem root p = some table)
    (swept : Swept mem root p table start given done m)
    (present : isPresent (mem table i) = true) {after : Machine σ} {more : List Frame}
    (frames : after.frames = more.foldl FrameAllocator.pmmFree m.frames) (own : after.mem table = m.mem table)
    (behind : ∀ q ∈ (userScope mem root).paths, ∀ f, p ++ [i] <+: q → tableAt mem root q = some f →
      after.mem f = wiped q (mem f))
    (others : ∀ f, (∀ q ∈ (userScope mem root).paths, p ++ [i] <+: q → tableAt mem root q ≠ some f) →
      after.mem f = m.mem f) : Swept mem root p table start (given ++ more) (done ++ [i]) (after.store table i 0) := by
  have notTable : ∀ {q : List Index} {f : Frame} {j : Index}, q ∈ (userScope mem root).paths → p ++ [j] <+: q →
      tableAt mem root q = some f → f ≠ table := by
    intro q f j member front reached same
    rw [same] at reached
    rw [← tree p inside q member table here reached] at front
    have length := front.length_le
    rw [List.length_append, List.length_singleton] at length
    omega
  refine ⟨?_, fun j => ?_, fun q member j f front reached => ?_, fun f outside => ?_⟩
  · show after.frames = _
    rw [frames, swept.frames, List.foldl_append]
  · show write after.mem table i 0 table j = _
    by_cases same : j = i
    · rw [same, write_self, if_pos ⟨by simp, present⟩]
    · rw [write_of_ne_index _ _ _ same, own, swept.here j]
      have member : j ∈ done ++ [i] ↔ j ∈ done := by simp [same]
      simp only [member]
  · have other := notTable member front reached
    show write after.mem table i 0 f = _
    rw [write_of_ne_node _ _ _ other]
    by_cases same : j = i
    · rw [same] at front
      rw [same, if_pos (by simp), behind q member f front reached]
    · have apart : ∀ q' ∈ (userScope mem root).paths, p ++ [i] <+: q' → tableAt mem root q' ≠ some f := by
        intro q' member' front' reached'
        rw [← tree q member q' member' f reached reached'] at front'
        have equal : p ++ [j] = p ++ [i] :=
          (List.prefix_of_prefix_length_le front front' (by simp)).eq_of_length (by simp)
        exact same (List.singleton_inj.mp (List.append_cancel_left equal))
      have still : j ∈ done ++ [i] ↔ j ∈ done := by simp [same]
      rw [others f apart, swept.behind q member j f front reached]
      simp only [still]
  · have other : f ≠ table := by
      intro same
      rw [same] at outside
      exact outside p inside (List.prefix_refl p) here
    show write after.mem table i 0 f = _
    rw [write_of_ne_node _ _ _ other, ← swept.others f outside]
    exact others f fun q member front => outside q member ((List.prefix_append p [i]).trans front)

theorem freeEntry_swept (tree : Distinct entryChild (userScope mem root).toScope mem root)
    (depth : p.length + (level + 1) = 4) (inside : p ∈ (userScope mem root).paths)
    (here : tableAt mem root p = some table) (user : UserEntry p i) (fresh : i ∉ done)
    (swept : Swept mem root p table start given done m)
    (deeper : ∀ child, p ++ [i] ∈ (userScope mem root).paths → tableAt mem root (p ++ [i]) = some child →
      Torn mem root (p ++ [i]) m (givenBack mem level child) (vmmFreeUserTables level child m)) :
    Swept mem root p table start (given ++ givenFor (fun child => givenBack mem level child) (level + 1) (mem table i))
      (done ++ [i]) (freeEntry (vmmFreeUserTables level) level table m i) := by
  have entry : m.mem table i = mem table i := by
    rw [swept.here i, if_neg fun both => fresh both.1]
  have read : readEntry mem root p i = mem table i := readAt_of here i
  have nothing : (isPresent (mem table i) = true → IsLeaf p (mem table i)) →
      ∀ q ∈ (userScope mem root).paths, ∀ f, p ++ [i] <+: q → tableAt mem root q ≠ some f := by
    intro noTable q member f front reached
    have present := present_above_table reached front
    have inner := (member.2 p i front).2 present
    rw [read] at present inner
    exact inner (noTable present)
  unfold freeEntry givenFor
  rw [entry]
  dsimp only
  by_cases present : isPresent (mem table i) = true
  · rw [if_neg (not_not.mpr present), if_neg (not_not.mpr present)]
    by_cases leaf : IsLeaf p (mem table i)
    · have test := (leaf_iff depth (mem table i)).mpr leaf
      rw [if_pos test, if_pos test]
      have none := nothing fun _ => leaf
      apply swept.store tree inside here present
      · split
        · rfl
        · rfl
      · split
        · rfl
        · rfl
      · intro q member f front reached
        exact absurd reached (none q member f front)
      · intro f _
        split
        · rfl
        · rfl
    · have test : ¬ (level + 1 = 1 ∨ (level + 1 < 4 ∧ isHuge (mem table i) = true)) :=
        fun yes => leaf ((leaf_iff depth _).mp yes)
      rw [if_neg test, if_neg test]
      have further := userScope_concat inside user (by rw [read]; exact leaf)
      have child : tableAt mem root (p ++ [i]) = some (frameOf (mem table i)) := by
        rw [tableAt_concat, read, entryChild_of_present present]
      have torn := deeper _ further child
      apply swept.store tree inside here present
      · show FrameAllocator.pmmFree _ _ = _
        rw [torn.frames, List.foldl_append]
        rfl
      · apply torn.others
        intro q member front reached
        rw [← tree p inside q member table here reached] at front
        have length := front.length_le
        rw [List.length_append, List.length_singleton] at length
        omega
      · intro q member f front reached
        exact torn.below q member front f reached
      · intro f outside
        exact torn.others f outside
  · rw [if_pos present, if_pos present, List.append_nil]
    have none := nothing fun yes => absurd yes present
    refine ⟨swept.frames, fun j => ?_, fun q member j f front reached => ?_, swept.others⟩
    · rw [swept.here j]
      by_cases same : j = i
      · rw [same, if_neg fun both => present both.2, if_neg fun both => present both.2]
      · have still : j ∈ done ++ [i] ↔ j ∈ done := by simp [same]
        simp only [still]
    · by_cases same : j = i
      · rw [same] at front
        exact absurd reached (none q member f front)
      · have still : j ∈ done ++ [i] ↔ j ∈ done := by simp [same]
        rw [swept.behind q member j f front reached]
        simp only [still]

/-- The tables behind `p` are torn down, if they are as in `mem`. -/
theorem vmmFreeUserTables_torn (tree : Distinct entryChild (userScope mem root).toScope mem root)
    (depth : p.length + level = 4) (inside : p ∈ (userScope mem root).paths) (here : tableAt mem root p = some table)
    (agree : ∀ q ∈ (userScope mem root).paths, p <+: q → ∀ f, tableAt mem root q = some f → start.mem f = mem f) :
    Torn mem root p start (givenBack mem level table) (vmmFreeUserTables level table start) := by
  induction level generalizing p table start with
  | zero =>
    have bound := inside.1
    omega
  | succ level ih =>
    have loop : ∀ (rest done : List Index) (m : Machine σ), done ++ rest = userEntries (level + 1) →
        Swept mem root p table start
          (done.flatMap fun i => givenFor (fun child => givenBack mem level child) (level + 1) (mem table i)) done m →
        Swept mem root p table start (givenBack mem (level + 1) table) (userEntries (level + 1))
          (rest.foldl (freeEntry (vmmFreeUserTables level) level table) m) := by
      intro rest
      induction rest with
      | nil =>
        intro done m all swept
        rw [List.append_nil] at all
        rw [all] at swept
        exact swept
      | cons i rest inner =>
        intro done m all swept
        have member : i ∈ userEntries (level + 1) := by
          rw [← all]
          simp
        have fresh : i ∉ done := by
          have nodup := userEntries_nodup (level + 1)
          rw [← all, List.nodup_append] at nodup
          exact fun before => nodup.2.2 i before i List.mem_cons_self rfl
        have next := freeEntry_swept tree depth inside here ((mem_userEntries depth i).mp member) fresh swept
          fun child further reached => by
            apply ih (by rw [List.length_append, List.length_singleton]; omega) further reached
            intro q within front f found
            rw [swept.behind q within i f front found, if_neg fresh]
        apply inner (done ++ [i]) _ (by rw [List.append_assoc]; exact all)
        rw [List.flatMap_append, List.flatMap_singleton]
        exact next
    rw [vmmFreeUserTables]
    have swept := loop (userEntries (level + 1)) [] start rfl
      ⟨rfl, fun i => by
        rw [if_neg fun both => List.not_mem_nil both.1, agree p inside (List.prefix_refl p) table here],
        fun q member i f front reached => by
          rw [if_neg List.not_mem_nil]
          exact agree q member ((List.prefix_append p [i]).trans front) f reached,
        fun _ _ => rfl⟩
    refine ⟨swept.frames, fun q member front f reached => ?_, swept.others⟩
    obtain ⟨rest, rfl⟩ := front
    cases rest with
    | nil =>
      rw [List.append_nil] at reached ⊢
      cases here.symm.trans reached
      funext i
      rw [swept.here i, wiped]
      simp only [mem_userEntries depth i]
    | cons j rest =>
      have front : p ++ [j] <+: p ++ j :: rest := ⟨rest, by rw [List.append_assoc]; rfl⟩
      rw [swept.behind _ member j f front reached, if_pos]
      exact (mem_userEntries depth j).mpr (member.2 p j front).1

end Run

/-- `vmm_pagetable_free_owned` gives back `released`: the tables of the lower half and its owned
pages, once each, whatever the frame allocator, and clears every present entry of these tables. -/
structure ExactTeardown (mem : Memory) (inUse : InUse) (pml4 : Frame) (released : List Frame) : Prop where
  once : released.Nodup
  members : ∀ f, f ∈ released ↔ IsTable (userScope mem pml4) mem pml4 f ∨
    ∃ q i, OwnedLeaf mem pml4 q i ∧ frameOf (readEntry mem pml4 q i) = f
  frames : ∀ {σ : Type} [FrameAllocator σ] (m : Machine σ), m.mem = mem →
    (vmmPagetableFreeOwned inUse pml4 m).frames = released.foldl FrameAllocator.pmmFree m.frames
  cleared : ∀ {σ : Type} [FrameAllocator σ] (m : Machine σ), m.mem = mem →
    ∀ q ∈ (userScope mem pml4).paths, ∀ f i, tableAt mem pml4 q = some f → UserEntry q i →
      isPresent ((vmmPagetableFreeOwned inUse pml4 m).mem f i) = false
  kept : ∀ {σ : Type} [FrameAllocator σ] (m : Machine σ), m.mem = mem →
    ∀ f i, (¬ IsTable (userScope mem pml4) mem pml4 f ∨ f = pml4 ∧ 256 ≤ i.val) →
      (vmmPagetableFreeOwned inUse pml4 m).mem f i = mem f i

variable {i : Index} {q : List Index}

theorem isPresent_wiped (user : UserEntry q i) (entries : Index → Entry) : isPresent (wiped q entries i) = false := by
  unfold wiped
  split
  · exact isPresent_zero
  · rename_i absent
    exact Bool.eq_false_iff.mpr fun present => absent ⟨user, present⟩

section Exact

variable {mem : Memory} {pml4 f : Frame} {inUse : InUse}

theorem mem_givenBack_root : f ∈ givenBack mem 4 pml4 ++ [pml4] ↔ IsTable (userScope mem pml4) mem pml4 f ∨
      ∃ q i, OwnedLeaf mem pml4 q i ∧ frameOf (readEntry mem pml4 q i) = f := by
  rw [List.mem_append, List.mem_singleton, mem_givenBack rfl (userScope_nil mem pml4) rfl]
  constructor
  · rintro (⟨q, i, -, gives⟩ | rfl)
    · by_cases leaf : IsLeaf q (readEntry mem pml4 q i)
      · exact .inr ⟨q, i, gives.ownedLeaf leaf, gives.frame⟩
      · exact .inl ⟨q ++ [i], gives.reaches leaf⟩
    · exact .inl ⟨[], userScope_nil mem f, rfl⟩
  · rintro (⟨q, inside, reached⟩ | ⟨q, i, page, frame⟩)
    · rcases List.eq_nil_or_concat q with rfl | ⟨q, i, rfl⟩
      · exact .inr (Option.some.inj reached).symm
      · rw [List.concat_eq_append] at inside reached
        have present := present_above_table reached (List.prefix_refl (q ++ [i]))
        have ⟨user, inner⟩ := inside.2 q i (List.prefix_refl (q ++ [i]))
        have frame : entryChild (readEntry mem pml4 q i) = some f := by
          rw [← tableAt_concat]
          exact reached
        rw [entryChild_of_present present] at frame
        exact .inl ⟨q, i, List.nil_prefix, (userScope mem pml4).closed inside, user, present,
          fun leaf => absurd leaf (inner present), Option.some.inj frame⟩
    · exact .inl ⟨q, i, List.nil_prefix, page.inside, page.user, page.present, fun _ => page.owned, frame⟩

theorem root_not_given (owned : OwnedTree mem pml4) : pml4 ∉ givenBack mem 4 pml4 := by
  rw [mem_givenBack rfl (userScope_nil mem pml4) rfl]
  intro ⟨q, i, _, gives⟩
  by_cases leaf : IsLeaf q (readEntry mem pml4 q i)
  · have page := owned.apart q i (gives.ownedLeaf leaf)
    rw [gives.frame] at page
    exact page ⟨[], userScope_nil mem pml4, rfl⟩
  · have ⟨inside, reached⟩ := gives.reaches leaf
    have same := owned.tree [] (userScope_nil mem pml4) _ inside pml4 rfl reached
    simp at same

theorem teardown_exact (nonzero : pml4 ≠ 0) (notKernel : pml4 ≠ inUse.kernelPagedirPhys)
    (notCurrent : inUse.cr3 ≠ pml4) (owned : OwnedTree mem pml4) :
    ∃ released, ExactTeardown mem inUse pml4 released := by
  have run : ∀ {σ : Type} [FrameAllocator σ] (m : Machine σ),
      vmmPagetableFreeOwned inUse pml4 m = (vmmFreeUserTables 4 pml4 m).release pml4 := by
    intro σ _ m
    rw [vmmPagetableFreeOwned, if_neg (not_or.mpr ⟨nonzero, notKernel⟩), if_neg notCurrent]
  have torn : ∀ {σ : Type} [FrameAllocator σ] (m : Machine σ), m.mem = mem →
      Torn mem pml4 [] m (givenBack mem 4 pml4) (vmmFreeUserTables 4 pml4 m) := by
    intro σ _ m start
    apply vmmFreeUserTables_torn owned.tree rfl (userScope_nil mem pml4) rfl
    intro q _ _ f _
    rw [start]
  refine ⟨givenBack mem 4 pml4 ++ [pml4], ?_, fun f => mem_givenBack_root, ?_, ?_, ?_⟩
  · rw [List.nodup_append]
    refine ⟨givenBack_nodup owned rfl (userScope_nil mem pml4) rfl, List.nodup_singleton _, fun f member g single => ?_⟩
    rw [List.mem_singleton.mp single]
    exact fun same => root_not_given owned (same ▸ member)
  · intro σ _ m start
    rw [run, List.foldl_append, ← (torn m start).frames]
    rfl
  · intro σ _ m start q inside f i reached user
    rw [run]
    show isPresent ((vmmFreeUserTables 4 pml4 m).mem f i) = false
    rw [(torn m start).below q inside List.nil_prefix f reached]
    exact isPresent_wiped user (mem f)
  · intro σ _ m start f i outside
    rw [run]
    show (vmmFreeUserTables 4 pml4 m).mem f i = mem f i
    rcases outside with outside | ⟨rfl, high⟩
    · rw [(torn m start).others f fun q inside _ reached => outside ⟨q, inside, reached⟩, start]
    · rw [(torn m start).below [] (userScope_nil mem f) List.nil_prefix f rfl, wiped, if_neg]
      intro ⟨user, _⟩
      have low := user rfl
      omega

end Exact

/-- A lower half with an owned 1 GiB page and an upper half that is shared. -/
def ownedSpace : Memory := fun f i =>
  if f = pageAt 1 then
    if i = 0 then tableEntry (pageAt 2) 0 else if i = 256 then tableEntry (pageAt 3) 0 else 0
  else if f = pageAt 2 then
    if i = 0 then pageAt (2 ^ 18) ||| (ptePresent ||| pteHuge ||| pteLocalOwned) else 0
  else 0

theorem ownedSpace_tables {p : List Index} {f : Frame} (inside : p ∈ (userScope ownedSpace (pageAt 1)).paths)
    (reached : tableAt ownedSpace (pageAt 1) p = some f) : p = [] ∧ f = pageAt 1 ∨ p = [0] ∧ f = pageAt 2 := by
  have top : tableAt ownedSpace (pageAt 1) [] = some (pageAt 1) := rfl
  have next : tableAt ownedSpace (pageAt 1) [0] = some (pageAt 2) := by decide
  cases p with
  | nil => exact .inl ⟨rfl, (Option.some.inj reached).symm⟩
  | cons i p =>
    have low := (inside.2 [] i ⟨p, rfl⟩).1 rfl
    have present := present_above_table reached (⟨p, rfl⟩ : [] ++ [i] <+: i :: p)
    rw [readEntry, readAt_of top, ownedSpace, if_pos rfl] at present
    by_cases first : i = 0
    · subst first
      cases p with
      | nil => exact .inr ⟨rfl, Option.some.inj (reached.symm.trans next)⟩
      | cons j p =>
        have front : [0] ++ [j] <+: 0 :: j :: p := ⟨p, rfl⟩
        have present := present_above_table reached front
        have inner := (inside.2 [0] j front).2 present
        rw [readEntry, readAt_of next, ownedSpace, if_neg (by decide), if_pos rfl] at present inner
        by_cases slot : j = 0
        · rw [if_pos slot] at inner
          exact absurd (.inr (by decide)) inner
        · rw [if_neg slot] at present
          cases present
    · have shared : i ≠ 256 := by
        intro same
        rw [same] at low
        exact absurd low (by decide)
      rw [if_neg first, if_neg shared] at present
      cases present

theorem ownedSpace_leaf (page : OwnedLeaf ownedSpace (pageAt 1) q i) : q = [0] ∧ i = 0 := by
  have present := page.present
  have leaf := page.leaf
  cases reached : tableAt ownedSpace (pageAt 1) q with
  | none =>
    rw [readEntry, readAt_of_none reached] at present
    cases present
  | some f =>
    rcases ownedSpace_tables page.inside reached with ⟨rfl, rfl⟩ | ⟨rfl, rfl⟩
    · rcases leaf with short | ⟨same, _⟩
      · cases short
      · exact absurd rfl same
    · rw [readEntry, readAt_of reached, ownedSpace, if_neg (by decide), if_pos rfl] at present
      by_cases slot : i = 0
      · exact ⟨rfl, slot⟩
      · rw [if_neg slot] at present
        cases present

theorem ownedSpace_tree : OwnedTree ownedSpace (pageAt 1) := by
  have apart : pageAt 1 ≠ pageAt 2 := by decide
  constructor
  · intro p first q second f left right
    rcases ownedSpace_tables first left with ⟨rfl, rfl⟩ | ⟨rfl, rfl⟩
    · rcases ownedSpace_tables second right with ⟨rfl, _⟩ | ⟨_, same⟩
      · rfl
      · exact absurd same apart
    · rcases ownedSpace_tables second right with ⟨_, same⟩ | ⟨rfl, _⟩
      · exact absurd same.symm apart
      · rfl
  · intro q i q' i' left right _
    have ⟨path, slot⟩ := ownedSpace_leaf left
    have ⟨path', slot'⟩ := ownedSpace_leaf right
    rw [path, path', slot, slot']
    exact ⟨rfl, rfl⟩
  · intro q i page ⟨p, inside, reached⟩
    have ⟨path, slot⟩ := ownedSpace_leaf page
    have frame : frameOf (readEntry ownedSpace (pageAt 1) [0] 0) = pageAt (2 ^ 18) := by decide
    rw [path, slot, frame] at reached
    rcases ownedSpace_tables inside reached with ⟨_, same⟩ | ⟨_, same⟩
    · exact absurd same (by decide)
    · exact absurd same (by decide)

theorem teardown_exact_shared : OwnedTree ownedSpace (pageAt 1) ∧
    ∃ released, ExactTeardown ownedSpace ⟨pageAt 4, pageAt 4⟩ (pageAt 1) released :=
  ⟨ownedSpace_tree, teardown_exact (by decide) (by decide) (by decide) ownedSpace_tree⟩

end CreeperKernel.Vmm

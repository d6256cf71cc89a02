import CreeperKernel.DirectoryListing
import CreeperKernel.VfsTreeRuns

namespace CreeperKernel.Vfs

open Paging (page page_append_drop page_eq_nil_iff)
open Transitions (Run)

/-- The names that a directory holds: `.`, `..` and those of its children. -/
def listing (fs : Fs) (dir : Ptr) : List Name :=
  ((fs.dentries dir).map fun d => [dot, dotdot] ++ d.children.map (nameOf fs)).getD []

/-- The file system and the position of the open directory. -/
structure Cursor where
  fs : Fs
  pos : Nat

/-- What happens to the open directory: a call that returns `ret` and records with these names, a new
child, or a child less. -/
inductive DirEvent where
  | listed (ret : Int) (names : List Name)
  | created (name : Name)
  | unlinked (name : Name)

def DirEvent.names : DirEvent → List Name
  | .listed _ names => names
  | .created _ => []
  | .unlinked _ => []

/-- The names that the calls have returned, in this order. -/
def returned (events : List DirEvent) : List Name := events.foldl (fun seen event => seen ++ event.names) []

/-- The names in the records that a call has left in its buffer; none if they cannot be read. -/
def namesIn (buf : List Byte) (ret : Int) : List Name :=
  ((recordsOf (buf.take ret.toNat)).getD []).map Record.dName

/-- A name without a zero byte that fits a record. -/
def CString (name : Name) : Prop := 0 ∉ name ∧ name.length < 65000

/-- A call with room for any record of the directory, a creation under a new name, or an unlink. -/
inductive DirStep (i dir : Ptr) : Cursor → DirEvent → Cursor → Prop where
  | list {fs : Fs} {pos pos' count : Nat} {buf buf' : List Byte} {ret : Int} (large : count ≤ buf.length)
      (room : ∀ name ∈ listing fs dir, recordLength name ≤ count)
      (done : vfsGetdents64 fs (some { fInode := some i, fPos := pos }) (some buf) count =
        .ok (ret, some { fInode := some i, fPos := pos' }, some buf')) :
      DirStep i dir ⟨fs, pos⟩ (.listed ret (namesIn buf' ret)) ⟨fs, pos'⟩
  | create {fs fs₁ fs' : Fs} {pos : Nat} {node : Ptr} {name : Name} {mode : UMode} {excl : Bool} (proper : CString name)
      (new : newDentry fs name dir = (some node, fs₁)) (done : callCreate fs₁ i node mode excl = .ok (0, fs')) :
      DirStep i dir ⟨fs, pos⟩ (.created name) ⟨fs', pos⟩
  | unlink {fs fs' : Fs} {pos : Nat} {name : Name} (done : callUnlink fs i name = .ok (0, fs')) :
      DirStep i dir ⟨fs, pos⟩ (.unlinked name) ⟨fs', pos⟩

/-- Nothing is created once a child has been returned, and no name is unlinked that has been returned. -/
def Careful (dir : Ptr) (s : Cursor) : DirEvent → Prop
  | .listed _ _ => True
  | .created _ => s.pos ≤ 2
  | .unlinked name => name ∉ (listing s.fs dir).take s.pos

def CarefulStep (i dir : Ptr) (s : Cursor) (event : DirEvent) (s' : Cursor) : Prop :=
  DirStep i dir s event s' ∧ Careful dir s event

/-- An open directory of a tree. -/
structure OpenDirectory (fs : Fs) (i dir : Ptr) : Prop where
  sound : Sound fs
  own : fs.inodeOf dir = .ok i
  isdir : ∃ x, fs.inodes i = some x ∧ sIsdir x.iMode = true
  proper : ∀ name ∈ listing fs dir, CString name

section Steps

variable {fs fs' : Fs} {i dir : Ptr} {d : Dentry} {pos pos' count : Nat} {buf buf' : List Byte} {ret : Int}
    {name : Name}

theorem listing_eq (live : fs.dentries dir = some d) : listing fs dir = [dot, dotdot] ++ d.children.map (nameOf fs) := by
  rw [listing, live]
  rfl

theorem nameOf_eq {p : Ptr} (live : fs.dentries p = some d) : nameOf fs p = d.name := by
  rw [nameOf, live]
  rfl

theorem OpenDirectory.listable (opened : OpenDirectory fs i dir) : ∃ d, Listable fs i dir d := by
  have tree := opened.sound.tree
  obtain ⟨d, live, its⟩ := inodeOf_eq_ok.mp opened.own
  obtain ⟨x, there, mode⟩ := opened.isdir
  obtain ⟨j, y, its', there', back⟩ := tree.backed dir d live
  cases its.symm.trans its'
  cases there.symm.trans there'
  refine ⟨d, ⟨x, there, mode, back⟩, live, fun p up => ?_, fun c member => ?_⟩
  · obtain ⟨cell, above, -⟩ := tree.tree.linked dir d.cell p (cells_eq live) up
    obtain ⟨e, there, -⟩ := cells_eq_some above
    exact ⟨e, there⟩
  · obtain ⟨cell, below, -⟩ := tree.tree.child dir d.cell c (cells_eq live) member
    obtain ⟨child, atChild, -⟩ := cells_eq_some below
    obtain ⟨k, z, its, inode, -⟩ := tree.backed c child atChild
    have name := opened.proper child.name (by
      rw [listing_eq live, ← nameOf_eq atChild]
      exact List.mem_append_right _ (List.mem_map_of_mem member))
    refine ⟨child, atChild, name.1, name.2, fun j behind => ?_⟩
    cases its.symm.trans behind
    exact ⟨z, inode⟩

/-- A call returns the names it passes, and none only if none is left. -/
theorem list_passes (listable : Listable fs i dir d) (within : pos ≤ (listing fs dir).length) (large : count ≤ buf.length)
    (room : ∀ name ∈ listing fs dir, recordLength name ≤ count)
    (done : vfsGetdents64 fs (some { fInode := some i, fPos := pos }) (some buf) count =
      .ok (ret, some { fInode := some i, fPos := pos' }, some buf')) :
    pos ≤ pos' ∧ pos' ≤ (listing fs dir).length ∧ (ret = 0 → pos = (listing fs dir).length) ∧
      namesIn buf' ret = ((listing fs dir).drop pos).take (pos' - pos) := by
  obtain ⟨virt, kids, entries, shown, fit⟩ := listable.hasEntries
  have names : (virt ++ kids).map Entry.name = listing fs dir := by
    have firsts := congrArg (List.map Prod.fst) shown
    rw [listing_eq listable.live]
    simpa [expected, Function.comp_def] using firsts
  have length : (virt ++ kids).length = (listing fs dir).length := by rw [← names, List.length_map]
  have fits : ∀ entry ∈ virt ++ kids, entry.size ≤ count := fun entry member =>
    room entry.name (names ▸ List.mem_map_of_mem member)
  rw [← length] at within ⊢
  have emitted : Emitted count ((virt ++ kids).drop pos) pos 0 buf _ _ := emit_emitted count _ (Nat.zero_le count) large
  rw [Nat.sub_zero] at emitted
  have left := fun entry member => fits entry (List.mem_of_mem_drop (i := pos) member)
  have answered := vfsGetdents64_emit listable entries within large
  rw [answer_of_emitted emitted (page_eq_nil_iff Entry.size left).mp, done] at answered
  have whole := page_append_drop Entry.size count ((virt ++ kids).drop pos)
  have none_ := page_eq_nil_iff Entry.size left
  generalize page Entry.size count ((virt ++ kids).drop pos) = taken at emitted answered whole none_
  have lengths := congrArg List.length whole
  rw [List.length_append, List.length_drop, List.length_drop] at lengths
  simp only [Except.ok.injEq, Prod.mk.injEq, Option.some.injEq, DirFile.mk.injEq, true_and] at answered
  obtain ⟨bytes, place, written⟩ := answered
  have next : pos' = pos + taken.length := by omega
  refine ⟨by omega, by omega, fun nothing => ?_, ?_⟩
  · have zero : (taken.map Entry.size).sum = 0 := by omega
    have empty := congrArg List.length (none_.mp (sum_size_eq_zero.mp zero))
    rw [List.length_drop, List.length_nil] at empty
    omega
  · -- what has been written are the records of the page
    obtain ⟨encoded, encodes, front⟩ := emitted.bytes
    rw [emitted.place, List.take_zero, List.nil_append, Nat.zero_add] at front
    have members : ∀ entry ∈ taken, entry.Fits := fun entry member =>
      fit entry (List.mem_of_mem_drop (whole ▸ List.mem_append_left _ member))
    have size : ret.toNat = (taken.map Entry.size).sum := by omega
    rw [namesIn, size, written, front, recordsOf, encodes.splitRecords members (Nat.le_refl _), ← names, next,
      Nat.add_sub_cancel_left, ← List.map_drop, ← List.map_take, ← whole, List.take_left, Option.getD_some, List.map_map]
    rfl

/-- A new child stands before the others. -/
theorem OpenDirectory.create (opened : OpenDirectory fs i dir) {fs₁ : Fs} {node : Ptr} {mode : UMode}
    {excl : Bool} (proper : CString name) (new : newDentry fs name dir = (some node, fs₁))
    (done : callCreate fs₁ i node mode excl = .ok (0, fs')) :
    OpenDirectory fs' i dir ∧ ∃ names, listing fs dir = [dot, dotdot] ++ names ∧
      listing fs' dir = [dot, dotdot] ++ name :: names := by
  obtain ⟨sound, own, ⟨x, there, mode⟩, all⟩ := opened
  have noded := newDentry_noded new
  have grown := Made.grown noded sound.fresh own (callCreate_made (noded.apart sound.fresh) done)
  rw [if_neg (Int.lt_irrefl 0)] at grown
  cases grown with
  | refused negative => exact absurd negative (Int.lt_irrefl 0)
  | lost _ negative => exact absurd negative (Int.lt_irrefl 0)
  | @added home j inode _ added =>
    cases added.home_eq sound.tree
    obtain ⟨e, live, -, after⟩ := added.place
    obtain ⟨e', live', its⟩ := inodeOf_eq_ok.mp own
    cases live.symm.trans live'
    have here : fs'.dentries dir = some { e with children := node :: e.children } := by rw [after, Function.update_self]
    have apart : dir ≠ node := fun same =>
      Nat.lt_irrefl node (Nat.lt_of_lt_of_le (same ▸ sound.fresh.dentries.lt live) added.newNode.1)
    have others : ∀ c ∈ e.children, nameOf fs' c = nameOf fs c := by
      intro c member
      obtain ⟨cell, below, -⟩ := sound.tree.tree.child dir e.cell c (cells_eq live) member
      obtain ⟨child, atChild, -⟩ := cells_eq_some below
      have old : c ≠ node := Nat.ne_of_lt (Nat.lt_of_lt_of_le (sound.fresh.dentries.lt atChild) added.newNode.1)
      rw [nameOf, nameOf, after]
      by_cases same : c = dir
      · rw [same, Function.update_self, live]
        rfl
      · rw [Function.update_of_ne same, Function.update_of_ne old]
    have first : nameOf fs' node = name := by
      rw [nameOf, after, Function.update_of_ne apart.symm, Function.update_self]
      rfl
    have list : listing fs' dir = [dot, dotdot] ++ name :: e.children.map (nameOf fs) := by
      rw [listing_eq here, List.map_cons, first, List.map_congr_left others]
    refine ⟨⟨(EditStep.add added).keeps_sound sound ⟨i, x, own, there, mode⟩, inodeOf_eq_ok.mpr ⟨_, here, its⟩,
      ⟨x, added.inodes_of_live sound.fresh there, mode⟩, fun other member => ?_⟩, _, listing_eq live, list⟩
    rw [list] at member
    rcases List.mem_append.mp member with fixed | member
    · exact all other (listing_eq live ▸ List.mem_append_left _ fixed)
    · rcases List.mem_cons.mp member with rfl | member
      · exact proper
      · exact all other (listing_eq live ▸ List.mem_append_right _ member)

theorem map_erase_nodup {α β : Type} [BEq α] [LawfulBEq α] [BEq β] [LawfulBEq β] {f : α → β} {xs : List α} {x : α}
    (different : (xs.map f).Nodup) (member : x ∈ xs) : (xs.erase x).map f = (xs.map f).erase (f x) := by
  induction xs with
  | nil => cases member
  | cons y rest ih =>
    obtain ⟨new, later⟩ := List.nodup_cons.mp different
    by_cases same : y = x
    · rw [same, List.erase_cons_head, List.map_cons, List.erase_cons_head]
    · have member := (List.mem_cons.mp member).resolve_left (Ne.symm same)
      have other : f y ≠ f x := fun equal => new (equal ▸ List.mem_map_of_mem member)
      rw [List.erase_cons_tail (by simpa using same), List.map_cons, List.map_cons, List.erase_cons_tail (by simpa using other),
        ih later member]

/-- The names of the children are different. -/
theorem OpenDirectory.nodup (opened : OpenDirectory fs i dir) (live : fs.dentries dir = some d) :
    (d.children.map (nameOf fs)).Nodup := by
  have tree := opened.sound.tree.tree
  apply List.Nodup.map_on _ (tree.once dir d.cell (cells_eq live))
  intro a left b right same
  obtain ⟨x, atA, -⟩ := tree.child dir d.cell a (cells_eq live) left
  obtain ⟨y, atB, -⟩ := tree.child dir d.cell b (cells_eq live) right
  obtain ⟨e, there, rfl⟩ := cells_eq_some atA
  obtain ⟨f, there', rfl⟩ := cells_eq_some atB
  rw [nameOf_eq there, nameOf_eq there'] at same
  exact tree.named dir d.cell (cells_eq live) a left b right _ _ atA atB same

theorem OpenDirectory.unlink (opened : OpenDirectory fs i dir) (done : callUnlink fs i name = .ok (0, fs')) :
    OpenDirectory fs' i dir ∧ ∃ names, listing fs dir = [dot, dotdot] ++ names ∧
      listing fs' dir = [dot, dotdot] ++ names.erase name := by
  obtain ⟨e, live, its⟩ := inodeOf_eq_ok.mp opened.own
  have different := opened.nodup live
  obtain ⟨sound, own, ⟨x, there, mode⟩, all⟩ := opened
  cases callUnlink_taken done with
  | refused negative => exact absurd negative (Int.lt_irrefl 0)
  | @removed home node j _ target removed =>
    obtain ⟨y, home', f, there', back, atHome, member, child, atNode, named⟩ := vfsLookup_eq_some target
    cases there.symm.trans there'
    obtain ⟨k, z, its', there', back'⟩ := sound.tree.backed dir e live
    cases its.symm.trans its'
    cases there.symm.trans there'
    cases back.symm.trans back'
    cases live.symm.trans atHome
    obtain ⟨cell, below, up⟩ := sound.tree.tree.child dir e.cell node (cells_eq live) member
    obtain ⟨g, child', homeLive, member', nodeLive, behind, bare, -⟩ := removed.leaf sound.tree
    obtain ⟨cell', below', up'⟩ := sound.tree.tree.child home g.cell node (cells_eq homeLive) member'
    cases below.symm.trans below'
    cases up.symm.trans up'
    cases atNode.symm.trans nodeLive
    obtain ⟨g', -, homeLive', -, -, -, -, after⟩ := removed.place
    cases live.symm.trans homeLive'
    have apart : dir ≠ node := by
      rintro rfl
      cases live.symm.trans atNode
      rw [bare] at member
      cases member
    have here : fs'.dentries dir = some { e with children := e.children.erase node } := by
      rw [after, Function.update_of_ne apart, Function.update_self]
    have others : ∀ c ∈ e.children.erase node, nameOf fs' c = nameOf fs c := by
      intro c left
      have old : c ≠ node := ((sound.tree.tree.once dir e.cell (cells_eq live)).mem_erase_iff.mp left).1
      rw [nameOf, nameOf, after, Function.update_of_ne old]
      by_cases same : c = dir
      · rw [same, Function.update_self, live]
        rfl
      · rw [Function.update_of_ne same]
    have list : listing fs' dir = [dot, dotdot] ++ (e.children.map (nameOf fs)).erase name := by
      rw [listing_eq here, List.map_congr_left others, map_erase_nodup different member, nameOf_eq atNode, named]
    have kept : i ≠ j := by
      rintro rfl
      exact apart (sound.tree.inode_inj live atNode its behind)
    refine ⟨⟨(EditStep.remove removed).keeps_sound sound trivial, inodeOf_eq_ok.mpr ⟨_, here, its⟩,
      ⟨x, by rw [removed.inodes_of_ne kept, there], mode⟩, fun other member => ?_⟩, _, listing_eq live, list⟩
    rw [list] at member
    apply all other
    rw [listing_eq live]
    exact (List.mem_append.mp member).elim (List.mem_append_left _) fun left =>
      List.mem_append_right _ (List.mem_of_mem_erase left)

end Steps

theorem take_erase {α : Type} [BEq α] [LawfulBEq α] {x : α} {xs : List α} {n : Nat} (absent : x ∉ xs.take n) :
    (xs.erase x).take n = xs.take n := by
  induction xs generalizing n with
  | nil => rfl
  | cons y rest ih =>
    cases n with
    | zero => rfl
    | succ n =>
      rw [List.take_succ_cons, List.mem_cons, not_or] at absent
      rw [List.erase_cons_tail (by simpa using Ne.symm absent.1), List.take_succ_cons, List.take_succ_cons, ih absent.2]

/-- What has been returned is all that stands before the position. -/
structure ListedOnce (i dir : Ptr) (s : Cursor) (seen : List Name) : Prop where
  opened : OpenDirectory s.fs i dir
  within : s.pos ≤ (listing s.fs dir).length
  seen : seen = (listing s.fs dir).take s.pos

theorem ListedOnce.step {i dir : Ptr} {s s' : Cursor} {event : DirEvent} {seen : List Name}
    (exact_ : ListedOnce i dir s seen) (taken : CarefulStep i dir s event s') :
    ListedOnce i dir s' (seen ++ event.names) := by
  obtain ⟨opened, within, before⟩ := exact_
  obtain ⟨step, careful⟩ := taken
  cases step with
  | list large room done =>
    obtain ⟨d, listable⟩ := opened.listable
    obtain ⟨further, bounded, -, names⟩ := list_passes listable within large room done
    refine ⟨opened, bounded, ?_⟩
    rw [before, DirEvent.names, names, ← List.take_add, Nat.add_sub_cancel' further]
  | @create fs fs₁ fs' pos node name mode excl proper new done =>
    obtain ⟨opened', names, list, list'⟩ := opened.create proper new done
    have early : pos ≤ [dot, dotdot].length := careful
    refine ⟨opened', ?_, ?_⟩
    · rw [list', List.length_append]
      exact Nat.le_trans early (Nat.le_add_right ..)
    · rw [before, DirEvent.names, List.append_nil, list, list', List.take_append_of_le_length early,
        List.take_append_of_le_length early]
  | @unlink fs fs' pos name done =>
    obtain ⟨opened', names, list, list'⟩ := opened.unlink done
    have absent : name ∉ names.take (pos - 2) := by
      intro member
      apply careful
      show name ∈ (listing fs dir).take pos
      rw [list, List.take_append]
      exact List.mem_append_right _ member
    have same : (listing fs' dir).take pos = (listing fs dir).take pos := by
      rw [list, list', List.take_append, List.take_append]
      exact congrArg _ (take_erase absent)
    refine ⟨opened', ?_, ?_⟩
    · have length := congrArg List.length same
      rw [List.length_take, List.length_take] at length
      have low : pos ≤ (listing fs dir).length := within
      show pos ≤ (listing fs' dir).length
      omega
    · rw [before, DirEvent.names, List.append_nil]
      exact same.symm

/-- If nothing is created once a child has been returned and no name is unlinked that has been returned, then up to a
call that returns 0 the records of the calls are `.`, `..` and each child of the directory once. -/
theorem directory_cursor_stable {i dir : Ptr} {fs : Fs} {events : List DirEvent} {s s' : Cursor} {names : List Name}
    (opened : OpenDirectory fs i dir) (run : Run (CarefulStep i dir) ⟨fs, 0⟩ events s)
    (last : CarefulStep i dir s (.listed 0 names) s') :
    returned (events ++ [.listed 0 names]) = listing s'.fs dir ∧ ((listing s'.fs dir).drop 2).Nodup := by
  have before : ListedOnce i dir s (returned events) :=
    run.simulation (ListedOnce i dir) (fun seen (event : DirEvent) => seen ++ event.names)
      (fun _ _ _ _ held step => held.step step) ⟨opened, Nat.zero_le _, rfl⟩
  have after := before.step last
  have all : returned (events ++ [.listed 0 names]) = (listing s'.fs dir).take s'.pos := by
    rw [returned, List.foldl_append]
    exact after.seen
  obtain ⟨d, listable⟩ := after.opened.listable
  refine ⟨?_, ?_⟩
  · obtain ⟨step, -⟩ := last
    generalize heq : DirEvent.listed 0 names = event at step
    cases step with
    | create => cases heq
    | unlink => cases heq
    | list large room done =>
      cases heq
      obtain ⟨further, bounded, whole, -⟩ := list_passes listable before.within large room done
      rw [all, List.take_of_length_le (whole rfl ▸ further)]
  · rw [listing_eq listable.live]
    exact after.opened.nodup listable.live

section Samples

instance (name : Name) : Decidable (CString name) := inferInstanceAs (Decidable (_ ∧ _))

/-- A file made in the root. -/
def createIn (fs : Fs) (name : Name) : Except Stop (Int × Fs) :=
  match newDentry fs name 0 with
  | (none, fs) => .ok (-eNomem, fs)
  | (some node, fs) => callCreate fs 0 node 0o644 true

theorem created_in {fs fs' : Fs} {name : Name} {pos : Nat} (proper : CString name)
    (done : createIn fs name = .ok (0, fs')) : DirStep 0 0 ⟨fs, pos⟩ (.created name) ⟨fs', pos⟩ := by
  unfold createIn at done
  split at done
  · cases done
  · rename_i node fs₁ new
    exact .create proper new done

/-- A call with a buffer of 100 bytes that returns `ret` and these names, and leaves the position `pos'`. -/
def lists (fs : Fs) (pos : Nat) (ret : Int) (pos' : Nat) (names : List Name) : Bool :=
  (listing fs 0).all (fun name => decide (recordLength name ≤ 100)) &&
    match vfsGetdents64 fs (some { fInode := some 0, fPos := pos }) (some (List.replicate 100 0)) 100 with
    | .ok (r, some file, some buf) => decide (r = ret ∧ file = { fInode := some 0, fPos := pos' } ∧ namesIn buf r = names)
    | _ => false

theorem listed_of_lists {fs : Fs} {pos pos' : Nat} {ret : Int} {names : List Name} (check : lists fs pos ret pos' names = true) :
    DirStep 0 0 ⟨fs, pos⟩ (.listed ret names) ⟨fs, pos'⟩ := by
  obtain ⟨room, check⟩ := Bool.and_eq_true_iff.mp check
  split at check
  · rename_i r file buf' done
    obtain ⟨rfl, rfl, rfl⟩ := of_decide_eq_true check
    exact .list List.length_replicate.ge (fun name member => of_decide_eq_true (List.all_eq_true.mp room name member)) done
  · cases check

/-- The directory `sys` is made in the root, which is then listed as a whole. -/
theorem directory_cursor_stable_sys : ∃ s s', Run (CarefulStep 0 0) ⟨tmpRoot, 0⟩
    [.created (str sys), .listed 72 [dot, dotdot, str sys]] s ∧ CarefulStep 0 0 s (.listed 0 []) s' ∧
    listing s'.fs 0 = [dot, dotdot, str sys] := by
  have ends : endsWith (fun x => x.1 == 0 && lists x.2 0 72 3 [dot, dotdot, str sys] && lists x.2 3 0 3 [])
      (createIn tmpRoot (str sys)) = true := by decide +kernel
  obtain ⟨⟨ret, fs⟩, made, ends⟩ := exists_of_endsWith ends
  simp only [Bool.and_eq_true, beq_iff_eq] at ends
  obtain ⟨⟨rfl, first⟩, last⟩ := ends
  have opened : OpenDirectory tmpRoot 0 0 := ⟨tmpRoot_sound, rfl, ⟨_, rfl, rfl⟩, by decide⟩
  have run : Run (CarefulStep 0 0) ⟨tmpRoot, 0⟩ [.created (str sys), .listed 72 [dot, dotdot, str sys]] ⟨fs, 3⟩ :=
    .cons ⟨created_in (by decide) made, Nat.zero_le 2⟩ (.single ⟨listed_of_lists first, trivial⟩)
  have finish : CarefulStep 0 0 ⟨fs, 3⟩ (.listed 0 []) ⟨fs, 3⟩ := ⟨listed_of_lists last, trivial⟩
  exact ⟨_, _, run, finish, (directory_cursor_stable opened run finish).1.symm⟩

/-- A file created while the directory is listed has `sys` returned twice. -/
theorem created_entry_shifts_cursor : ∃ fs s s', str sys ∈ listing fs 0 ∧ str sys ∈ listing s'.fs 0 ∧
    Run (DirStep 0 0) ⟨fs, 0⟩ [.listed 72 [dot, dotdot, str sys], .created (str ['b']), .listed 24 [str sys]] s ∧
    DirStep 0 0 s (.listed 0 []) s' := by
  have ends : endsWith (fun x => (listing x.2 0).contains (str sys) && lists x.2 0 72 3 [dot, dotdot, str sys] &&
      endsWith (fun y => y.1 == 0 && (listing y.2 0).contains (str sys) && lists y.2 3 24 4 [str sys] && lists y.2 4 0 4 [])
        (createIn x.2 (str ['b']))) (createIn tmpRoot (str sys)) = true := by decide +kernel
  obtain ⟨⟨ret, fs⟩, -, ends⟩ := exists_of_endsWith ends
  simp only [Bool.and_eq_true, List.contains_iff_mem] at ends
  obtain ⟨⟨present, first⟩, ends⟩ := ends
  obtain ⟨⟨ret', fs'⟩, grown, ends⟩ := exists_of_endsWith ends
  simp only [Bool.and_eq_true, List.contains_iff_mem, beq_iff_eq] at ends
  obtain ⟨⟨⟨rfl, present'⟩, again⟩, last⟩ := ends
  exact ⟨fs, ⟨fs', 4⟩, ⟨fs', 4⟩, present, present', .cons (listed_of_lists first)
    (.cons (created_in (by decide) grown) (.single (listed_of_lists again))), listed_of_lists last⟩

end Samples

end CreeperKernel.Vfs

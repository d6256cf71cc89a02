import CreeperKernel.VfsTreeRuns

namespace CreeperKernel.Vfs

/-- `kpath_create` and `kpath_mkdir`. -/
inductive Maker where
  | create (mode : UMode) (excl : Bool)
  | mkdir (mode : UMode)

def Maker.call : Maker → Fs → Ptr → Ptr → Except Stop (Int × Fs)
  | .create mode excl, fs, dir, node => callCreate fs dir node mode excl
  | .mkdir mode, fs, dir, node => callMkdir fs dir node mode

def Maker.run (maker : Maker) (fs : Fs) (start : Ptr) (path : Name) : Except Stop (Int × Fs) :=
  kpathNew maker.call fs start path

def ChildListsKept (fs fs' : Fs) : Prop := ∀ p, (fs'.dentries p).map Dentry.children = (fs.dentries p).map Dentry.children

/-- No child list contains a released dentry. -/
def NoneReleased (fs : Fs) : Prop := ∀ p d c, fs.dentries p = some d → c ∈ d.children → fs.dentries c ≠ none

/-- A regular file is created in a RAM directory: `vfs_create` links the new dentry, and then there is no
memory for the `ramfile_info`. -/
def Maker.Starves (maker : Maker) (fs : Fs) (dir node : Ptr) : Prop :=
  ∃ mode excl fs₁, maker = .create mode excl ∧ operations fs dir = .ok .ramDir ∧
    vfsCreate fs dir node (sIfreg ||| (mode &&& ~~~sIfmt)) = .ok (0, fs₁) ∧ fs₁.kmalloc.1 = none

/-- The path leads to a directory in which the call starves. -/
def Maker.StarvesAt (maker : Maker) (fs : Fs) (start : Ptr) (path : Name) : Prop :=
  ∃ p fs₁ dir fs₂ node fs₃ i, fs.kmalloc = (some p, fs₁) ∧
    kpathLookup fs₁ start (splitLast path).1 = .ok (some dir, fs₂) ∧
    newDentry fs₂ (splitLast path).2 dir = (some node, fs₃) ∧ fs₃.inodeOf dir = .ok i ∧ maker.Starves fs₃ i node

section Outcomes

variable {fs fs' : Fs} {dir node start : Ptr} {path : Name} {ret : Int} {maker : Maker}

/-- A call that fails has done nothing, unless it starves: then the new dentry is in its parent's list. -/
theorem Maker.call_failed (apart : HomesApart fs node) (unbound : ∀ d, fs.dentries node = some d → d.inode = none)
    (done : maker.call fs dir node = .ok (ret, fs')) (negative : ret < 0) :
    (Same fs fs' ∧ ¬ maker.Starves fs dir node) ∨ (maker.Starves fs dir node ∧ ∃ home d d', home ≠ node ∧
      fs.dentries home = some d ∧ fs'.dentries home = some d' ∧ d'.children = node :: d.children) := by
  cases maker with
  | mkdir mode =>
    have made : Made False fs dir node ret fs' := callMkdir_made apart done
    cases made with
    | refused _ same => exact .inl ⟨same, fun ⟨_, _, _, impossible, _⟩ => nomatch impossible⟩
    | linked => cases negative
    | stripped may => exact may.elim
  | create mode excl =>
    have ⟨ops, table, done⟩ := bind_eq_ok.mp done
    cases ops with
    | defVfs =>
      rcases vfsCreate_cases done with ⟨_, same⟩ | ⟨zero, _⟩
      · exact .inl ⟨same, fun ⟨_, _, _, _, ram, _⟩ => nomatch table.symm.trans ram⟩
      · omega
    | ramDir =>
      have ⟨new, self, done⟩ := bind_eq_ok.mp done
      rw [unbound new (dentry_eq_ok.mp self), Option.isSome_none, Bool.and_false, if_neg Bool.false_ne_true] at done
      have ⟨⟨res, fs₁⟩, created, done⟩ := bind_eq_ok.mp done
      dsimp only at done
      rcases vfsCreate_cases created with ⟨refused, same⟩ | ⟨zero, home, i, inode, linked, _, _⟩
      · rw [if_pos refused] at done
        cases done
        refine .inl ⟨same, fun ⟨_, _, _, equal, _, again, _⟩ => ?_⟩
        cases equal
        cases created.symm.trans again
        omega
      · rw [if_neg (by omega)] at done
        have ⟨made, at_, done⟩ := bind_eq_ok.mp done
        have ⟨j, its, done⟩ := bind_eq_ok.mp done
        split at done
        · rename_i fs₂ failed
          cases done
          have ⟨d, _, live, _, _, after⟩ := linked.place
          have away := linked.apart apart
          refine .inr ⟨⟨mode, excl, fs₁, rfl, table, zero ▸ created, by rw [failed]⟩, home, d,
            { d with children := node :: d.children }, away, live, ?_, rfl⟩
          show Function.update fs₂.dentries node _ home = _
          rw [Function.update_of_ne away, (kmalloc_same failed).1.dentries, after, Function.update_self]
        · have ⟨_, _, done⟩ := bind_eq_ok.mp done
          cases done
          cases negative

/-- A path call that fails leaves the dentries as they were, unless it starves: then a directory's list has
a new entry. -/
theorem Maker.run_failed (fresh : Fresh fs) (done : maker.run fs start path = .ok (ret, fs')) (negative : ret < 0) :
    (fs'.dentries = fs.dentries ∧ ¬ maker.StarvesAt fs start path) ∨ (maker.StarvesAt fs start path ∧
      ∃ home node d d', fs.dentries home = some d ∧ fs'.dentries home = some d' ∧ d'.children = node :: d.children) := by
  unfold Maker.run kpathNew at done
  split at done
  · rename_i fs₁ failed
    cases done
    refine .inl ⟨(kmalloc_same failed).1.dentries, fun ⟨_, _, _, _, _, _, _, copied, _⟩ => ?_⟩
    cases failed.symm.trans copied
  · rename_i p fs₁ copied
    have same := (kmalloc_same copied).1
    have ⟨⟨found, fs₂⟩, looked, done⟩ := bind_eq_ok.mp done
    have sameAt : ∀ {dir fs₂' node fs₃ i}, maker.StarvesAt fs start path →
        kpathLookup fs₁ start (splitLast path).1 = .ok (some dir, fs₂') →
        newDentry fs₂' (splitLast path).2 dir = (some node, fs₃) → fs₃.inodeOf dir = .ok i →
        maker.Starves fs₃ i node := by
      intro dir fs₂' node fs₃ i ⟨_, _, _, _, _, _, _, copied', looked', noded', behind', starves⟩ looked noded behind
      cases copied.symm.trans copied'
      cases looked.symm.trans looked'
      cases noded.symm.trans noded'
      cases behind.symm.trans behind'
      exact starves
    rcases kpathLookup_edits looked with ⟨rfl, same'⟩ | ⟨d, i, rfl, _, behind, edits⟩
    · cases done
      refine .inl ⟨same'.dentries.trans same.dentries, fun ⟨_, _, _, _, _, _, _, copied', looked', _⟩ => ?_⟩
      cases copied.symm.trans copied'
      cases looked.symm.trans looked'
    · have before : fs₂.dentries = fs.dentries := (dentries_of_counted edits).trans same.dentries
      have fresh₂ := edits.keeps_fresh (same.keeps_fresh fresh)
      dsimp only at done
      split at done
      · rename_i fs₃ failed
        cases done
        rcases newDentry_cases failed with ⟨_, same₃⟩ | ⟨impossible, _⟩
        · refine .inl ⟨same₃.dentries.trans before, fun ⟨_, _, _, _, _, _, _, copied', looked', noded', _⟩ => ?_⟩
          cases copied.symm.trans copied'
          cases looked.symm.trans looked'
          cases failed.symm.trans noded'
        · cases impossible
      · rename_i node fs₃ named
        have noded := newDentry_noded named
        have ⟨j, its, done⟩ := bind_eq_ok.mp done
        have ⟨⟨res, fs₄⟩, made, done⟩ := bind_eq_ok.mp done
        cases done
        have unbound : ∀ d, fs₃.dentries node = some d → d.inode = none := by
          intro d live
          rw [noded.dentries, Function.update_self] at live
          cases live
          rfl
        rw [if_pos negative]
        rcases Maker.call_failed (noded.apart fresh₂) unbound made negative with
          ⟨same₄, fed⟩ | ⟨starves, home, d, d', away, live, after, list⟩
        · exact .inl ⟨(noded.refused fresh₂ same₄).dentries.trans before, fun at_ => fed (sameAt at_ looked named its)⟩
        · refine .inr ⟨⟨_, _, _, _, _, _, _, copied, looked, named, its, starves⟩, home, node, d, d', ?_, ?_, list⟩
          · rw [noded.dentries, Function.update_of_ne away, before] at live
            exact live
          · exact (Function.update_of_ne away _ _).trans after

end Outcomes

/-- When `kpath_create` or `kpath_mkdir` fails, every child list is as it was and has no released dentry in it,
unless a file was to be created in a RAM directory and the memory lacked for its `ramfile_info` only. -/
theorem failed_creation_kept_iff {fs fs' : Fs} {start : Ptr} {path : Name} {ret : Int} {maker : Maker} (fresh : Fresh fs)
    (tree : NoneReleased fs) (done : maker.run fs start path = .ok (ret, fs')) (negative : ret < 0) :
    (ChildListsKept fs fs' ∧ NoneReleased fs') ↔ ¬ maker.StarvesAt fs start path := by
  rcases Maker.run_failed fresh done negative with ⟨same, fed⟩ | ⟨starves, home, node, d, d', before, after, list⟩
  · have kept : ChildListsKept fs fs' ∧ NoneReleased fs' := by
      unfold ChildListsKept NoneReleased
      rw [same]
      exact ⟨fun _ => rfl, tree⟩
    exact ⟨fun _ => fed, fun _ => kept⟩
  · constructor
    · intro ⟨kept, _⟩
      have equal := kept home
      rw [before, after, Option.map_some, Option.map_some, list] at equal
      exact absurd (Option.some.inj equal) (List.cons_ne_self node d.children)
    · exact fun fed => absurd starves fed

theorem noneReleased_tmpRoot : NoneReleased tmpRoot := by
  intro p d c live member
  simp only [tmpRoot, Function.update_apply] at live
  split at live
  · cases live
    cases member
  · cases live

theorem failed_creation_kept_iff_copy : ∃ fs', (Maker.mkdir 0o755).run { tmpRoot with heap := [false] } 0
      (absolute [['a']]) = .ok (-12, fs') ∧ ChildListsKept tmpRoot fs' ∧ NoneReleased fs' := by
  have fed : ¬ (Maker.mkdir 0o755).StarvesAt { tmpRoot with heap := [false] } 0 (absolute [['a']]) :=
    fun ⟨_, _, _, _, _, _, _, copied, _⟩ => nomatch copied
  exact ⟨_, rfl, (failed_creation_kept_iff (tmpRoot_fresh.of_heap [false]) noneReleased_tmpRoot rfl (by decide)).mpr fed⟩

/-- The run in which `/tmp` is made and then `/tmp/a` created, with memory for its inode but not for its
`ramfile_info`. -/
def starvedCreation : Except Stop (Int × Fs × Fs) := do
  let (_, fs) ← kRamfileMkdir tmpRoot (absolute [['t', 'm', 'p']]) 0o666
  let fs := { fs with heap := [true, true, true, true, true, false] }
  let (ret, fs') ← (Maker.create 0o644 true).run fs 0 (absolute [['t', 'm', 'p'], ['a']])
  .ok (ret, fs, fs')

/-- The released dentry 9 stays in the list of `/tmp`, the dentry 3. -/
theorem released_dentry_listed : ∃ ret fs fs', starvedCreation = .ok (ret, fs, fs') ∧ ret < 0 ∧
    ¬ ChildListsKept fs fs' ∧ ¬ NoneReleased fs' := by
  have ⟨⟨ret, fs, fs'⟩, done, check⟩ := exists_of_endsWith (show endsWith
    (fun r : Int × Fs × Fs => decide (r.1 < 0 ∧ (r.2.1.dentries 3).map Dentry.children = some [] ∧
      (r.2.2.dentries 3).map Dentry.children = some [9] ∧ r.2.2.dentries 9 = none)) starvedCreation = true by
    decide +kernel)
  have ⟨negative, before, after, gone⟩ := of_decide_eq_true check
  refine ⟨ret, fs, fs', done, negative, fun kept => ?_, fun none => ?_⟩
  · exact absurd (before.symm.trans ((kept 3).symm.trans after)) (by decide)
  · have ⟨d, live, list⟩ := Option.map_eq_some_iff.mp after
    exact none 3 d 9 live (by rw [list]; exact List.mem_singleton_self 9) gone

end CreeperKernel.Vfs

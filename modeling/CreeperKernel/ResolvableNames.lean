import CreeperKernel.FileEffects

namespace CreeperKernel.Vfs

open Transitions (Run)

/-- A name that a path can have as a component: not empty, without slashes, and neither `.`
nor `..`. -/
def Component (name : Name) : Prop := Tokens.Word slash name ∧ Plain name

instance (name : Name) : Decidable (Component name) := inferInstanceAs (Decidable (_ ∧ _))

/-- Every dentry but the root has a name that a path can have as a component. -/
def Named (fs : Fs) : Prop := ∀ p d, fs.dentries p = some d → p ≠ fs.rootDentry → Component d.name

/-- The names after a step are those there were and perhaps `name`. -/
structure NamesFrom (fs fs' : Fs) (new : Name → Prop) : Prop where
  rootDentry : fs'.rootDentry = fs.rootDentry
  names : ∀ p d, fs'.dentries p = some d → new d.name ∨ ∃ e, fs.dentries p = some e ∧ e.name = d.name

variable {fs' fs : Fs}

theorem NamesFrom.keeps_named {new : Name → Prop} (from_ : NamesFrom fs fs' new) (named : Named fs)
    (good : ∀ name, new name → Component name) : Named fs' := by
  intro p d live other
  rcases from_.names p d live with fresh | ⟨e, old, same⟩
  · exact good d.name fresh
  · rw [← same]
    exact named p e old (from_.rootDentry ▸ other)

theorem NamesFrom.of_dentries (new : Name → Prop) (dentries : fs'.dentries = fs.dentries)
    (rootDentry : fs'.rootDentry = fs.rootDentry) : NamesFrom fs fs' new :=
  ⟨rootDentry, fun _ d live => .inr ⟨d, dentries ▸ live, rfl⟩⟩

theorem name_of_update {dentries : Ptr → Option Dentry} {home p : Ptr} {d e : Dentry} {children : List Ptr}
    (atHome : dentries home = some d)
    (live : Function.update dentries home (some { d with children }) p = some e) :
    ∃ x, dentries p = some x ∧ x.name = e.name := by
  by_cases same : p = home
  · subst same
    rw [Function.update_self] at live
    cases live
    exact ⟨d, atHome, rfl⟩
  · rw [Function.update_of_ne same] at live
    exact ⟨e, live, rfl⟩

/-- The name that an edit brings. -/
def Edit.names : Edit → Name → Prop
  | .add _ _ _ _ name _, new => new = name
  | _, _ => False

theorem EditStep.namesFrom {e : Edit} (step : EditStep fs e fs') (fresh : Fresh fs) : NamesFrom fs fs' e.names := by
  cases step with
  | count n live => exact .of_dentries _ rfl rfl
  | retable retabled => exact .of_dentries _ retabled.dentries retabled.rootDentry
  | @add _ dir home node i name inode added =>
    obtain ⟨d, atHome, -, after⟩ := added.place
    have apart : home ≠ node := by
      intro same
      rw [same, fresh.dentries node added.newNode.1] at atHome
      cases atHome
    refine ⟨added.rootDentry, fun p x live => ?_⟩
    rw [after] at live
    have atHome' : Function.update fs.dentries node
        (some { name, parent := some dir, inode := some i, children := [] }) home = some d := by
      rw [Function.update_of_ne apart, atHome]
    obtain ⟨y, there, same⟩ := name_of_update atHome' live
    rw [← same]
    by_cases atNode : p = node
    · subst atNode
      rw [Function.update_self] at there
      cases there
      exact .inl rfl
    · rw [Function.update_of_ne atNode] at there
      exact .inr ⟨y, there, rfl⟩
  | @remove _ home node i removed =>
    obtain ⟨d, x, atHome, -, -, -, -, after⟩ := removed.place
    refine ⟨removed.rootDentry, fun p y live => .inr ?_⟩
    rw [after] at live
    have other : p ≠ node := by
      intro same
      rw [same, Function.update_self] at live
      cases live
    rw [Function.update_of_ne other] at live
    exact name_of_update atHome live
  | lose lost =>
    obtain ⟨d, atHome, after⟩ := lost.place
    refine ⟨lost.rootDentry, fun p y live => .inr ?_⟩
    rw [after] at live
    exact name_of_update atHome live

/-- Whatever the call creates has a last component that a path can have, unless its parent is
not there. -/
def NameCareful (w : World) (event : Event) : Prop :=
  ∀ start path d, MayCreate w event start path → Resolves w.fs start (splitLast path).1 d →
    Component (splitLast path).2

/-- The state between calls: unused addresses and names. -/
def NamedFresh (fs : Fs) : Prop := Fresh fs ∧ Named fs

variable {w : World}

theorem FileStep.keeps_named {w' : World} {event : Event} (step : FileStep w event w') (careful : NameCareful w event)
    (good : NamedFresh w.fs) : NamedFresh w'.fs := by
  obtain ⟨⟨fs₀, es, ⟨uid, gid, heap, rfl⟩, edits, may⟩⟩ := step.edits good.1
  have start : NamedFresh { w.fs with uid, gid, heap } :=
    ⟨⟨good.1.dentries, good.1.inodes, good.1.infos, good.1.homes⟩, good.2⟩
  refine edits.invariant NamedFresh ?_ ?_ start
  · intro fs fs' good same
    refine ⟨same.keeps_fresh good.1, ?_⟩
    exact (NamesFrom.of_dentries (fun _ => False) same.dentries same.rootDentry).keeps_named good.2 fun _ => False.elim
  · intro fs e fs' member good step
    refine ⟨step.keeps_fresh good.1, (step.namesFrom good.1).keeps_named good.2 ?_⟩
    intro name brings
    cases e with
    | add d home node i new inode =>
      cases brings
      obtain ⟨start, path, creates, parent, rfl⟩ := may _ member
      exact careful start path d creates parent
    | count | remove | retable | lose => exact brings.elim

/-- The names stay such that a path can have them, as long as what is created has such a
last component. -/
theorem names_stay_components (w : World) (fresh : Fresh w.fs) (named : Named w.fs) (events : List Event) (w' : World)
    (run : Run (fun w event w' => FileStep w event w' ∧ NameCareful w event) w events w') : Named w'.fs := by
  have kept := run.invariant (fun w => NamedFresh w.fs) (fun _ _ _ good step => step.1.keeps_named step.2 good)
    ⟨fresh, named⟩
  exact kept.2

/-- The root with one process. -/
def rootWorld : World := { fs := tmpRoot, procs := [idle] }

theorem tmpRoot_named : Named tmpRoot := by
  intro p d live other
  simp only [tmpRoot, Function.update_apply] at live
  split at live
  · rename_i same
    exact absurd same other
  · cases live

theorem names_stay_components_tmp : ∃ w', Run (fun w event w' => FileStep w event w' ∧ NameCareful w event) rootWorld
    [⟨0, [], .mkdir (some (absolute [['t', 'm', 'p']])) 0o755⟩] w' ∧ Named w'.fs := by
  have returns : endsWith (fun _ => true)
      (perform rootWorld ⟨0, [], .mkdir (some (absolute [['t', 'm', 'p']])) 0o755⟩) = true := by decide +kernel
  obtain ⟨⟨ret, w'⟩, done, -⟩ := exists_of_endsWith returns
  have careful : NameCareful rootWorld ⟨0, [], .mkdir (some (absolute [['t', 'm', 'p']])) 0o755⟩ := by
    intro start path d creates _
    cases creates with
    | mkdir call =>
      cases call
      decide
    | create call | mkdirat call | open_ call | openat call => cases call
  have run : Run (fun w event w' => FileStep w event w' ∧ NameCareful w event) rootWorld
      [⟨0, [], .mkdir (some (absolute [['t', 'm', 'p']])) 0o755⟩] w' := .single ⟨⟨ret, done⟩, careful⟩
  exact ⟨w', run, names_stay_components rootWorld tmpRoot_fresh tmpRoot_named _ w' run⟩

/-- Some dentry other than the root has the empty name. -/
def emptyName (w : World) : Bool :=
  (List.range w.fs.fresh).any fun p => p ≠ w.fs.rootDentry && (w.fs.dentries p).any fun d => d.name.isEmpty

theorem not_named (bad : emptyName w = true) : ¬ Named w.fs := by
  intro named
  obtain ⟨p, -, both⟩ := List.any_eq_true.mp bad
  rw [Bool.and_eq_true, decide_eq_true_eq] at both
  cases live : w.fs.dentries p with
  | none =>
    rw [live] at both
    cases both.2
  | some d =>
    rw [live] at both
    have empty : d.name.isEmpty = true := both.2
    exact (named p d live both.1).1.1 (List.isEmpty_iff.mp empty)

/-- `sys_mkdir("/tmp/")` after boot: what follows the last slash is the name. -/
theorem mkdir_trailing_slash : ∃ w w', bootWorld = .ok w ∧
    Run FileStep w [⟨0, [], .mkdir (some (absolute [['t', 'm', 'p'], []])) 0o755⟩] w' ∧ ¬ Named w'.fs := by
  have ends : endsWith (fun w => endsWith emptyName
      (runFiles w [⟨0, [], .mkdir (some (absolute [['t', 'm', 'p'], []])) 0o755⟩])) bootWorld = true := by
    decide +kernel
  obtain ⟨w, boots, ends⟩ := exists_of_endsWith ends
  obtain ⟨w', done, bad⟩ := exists_of_endsWith ends
  exact ⟨w, w', boots, run_of_runFiles done, not_named bad⟩

end CreeperKernel.Vfs

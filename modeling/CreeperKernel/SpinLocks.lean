import CreeperKernel.Transitions
import Mathlib.Logic.Function.Basic

namespace CreeperKernel.Locks

open Transitions (Run)

/-- A processor: its interrupt flag, the lock it spins on, and the locks it holds, the latest first, each with
the interrupt flag that was saved for it. -/
structure Cpu (Lock : Type) where
  interrupts : Bool
  spinning : Option (Lock × Bool)
  held : List (Lock × Bool)

structure Machine (Proc Lock : Type) where
  word : Lock → Bool
  cpu : Proc → Cpu Lock

variable {Proc Lock : Type} [DecidableEq Proc] [DecidableEq Lock]

def Machine.put (m : Machine Proc Lock) (p : Proc) (cpu : Cpu Lock) (l : Lock) (word : Bool) : Machine Proc Lock :=
  { word := Function.update m.word l word, cpu := Function.update m.cpu p cpu }

/-- `spin_lock_irqsave`, `try_lock_irqsave` and `spin_unlock_irqrestore`, one access to the lock word a step. A
processor releases the lock it took last, with the flags it got for it. -/
inductive Step (m : Machine Proc Lock) (p : Proc) : Machine Proc Lock → Prop where
  | enter (l : Lock) (runs : (m.cpu p).spinning = none) : Step m p (m.put p
      { m.cpu p with interrupts := false, spinning := some (l, (m.cpu p).interrupts) } l (m.word l))
  -- a round of the loop, and `try_lock_irqsave`, which restores the flags
  | refused (l : Lock) (taken : m.word l = true) : Step m p m
  | take {l : Lock} {f : Bool} (spins : (m.cpu p).spinning = some (l, f)) (free : m.word l = false) :
      Step m p (m.put p { m.cpu p with spinning := none, held := (l, f) :: (m.cpu p).held } l true)
  | tryTakes (l : Lock) (runs : (m.cpu p).spinning = none) (free : m.word l = false) : Step m p (m.put p
      { m.cpu p with interrupts := false, held := (l, (m.cpu p).interrupts) :: (m.cpu p).held } l true)
  | unlock {l : Lock} {f : Bool} {rest : List (Lock × Bool)} (runs : (m.cpu p).spinning = none)
      (last : (m.cpu p).held = (l, f) :: rest) :
      Step m p (m.put p { m.cpu p with interrupts := (m.cpu p).interrupts || f, held := rest } l false)

def Cpu.locks (cpu : Cpu Lock) : List Lock := cpu.held.map Prod.fst

/-- The interrupt flag and the saved ones, the latest first. -/
def Cpu.flags (cpu : Cpu Lock) : List Bool := cpu.interrupts :: (cpu.spinning.toList ++ cpu.held).map Prod.snd

def Cpu.Idle (cpu : Cpu Lock) : Prop := cpu.spinning = none ∧ cpu.held = []

/-- Every lock has at most one holder, and every processor saved its flag `first` before any other. -/
structure Sound (first : Proc → Bool) (holder : Lock → Option Proc) (m : Machine Proc Lock) : Prop where
  word : ∀ l, m.word l = (holder l).isSome
  held : ∀ p l, l ∈ (m.cpu p).locks ↔ holder l = some p
  once : ∀ p, (m.cpu p).locks.Nodup
  nested : ∀ p, ∃ n, (m.cpu p).flags = List.replicate n false ++ [first p]

variable {first : Proc → Bool} {holder : Lock → Option Proc} {m m' : Machine Proc Lock} {p : Proc} {l : Lock}
  {cpu : Cpu Lock}

theorem Sound.put (sound : Sound first holder m) {word : Bool} (owner : Option Proc) (set : word = owner.isSome)
    (others : ∀ q ≠ p, owner = some q ↔ holder l = some q)
    (locks : ∀ k, k ∈ cpu.locks ↔ Function.update holder l owner k = some p) (once : cpu.locks.Nodup)
    (nested : ∃ n, cpu.flags = List.replicate n false ++ [first p]) :
    Sound first (Function.update holder l owner) (m.put p cpu l word) where
  word k := by by_cases same : k = l <;> simp [Machine.put, same, set, sound.word]
  held q k := by
    by_cases its : q = p
    · simp [Machine.put, its, locks]
    · by_cases same : k = l <;> simp [Machine.put, its, same, sound.held, others q its]
  once q := by by_cases its : q = p <;> simp [Machine.put, its, once, sound.once]
  nested q := by by_cases its : q = p <;> simp [Machine.put, its, nested, sound.nested]

theorem Sound.acquire (sound : Sound first holder m) (free : m.word l = false)
    (grown : cpu.locks = l :: (m.cpu p).locks) (nested : ∃ n, cpu.flags = List.replicate n false ++ [first p]) :
    Sound first (Function.update holder l (some p)) (m.put p cpu l true) := by
  have unheld : holder l = none := by simpa [sound.word] using free
  refine sound.put _ rfl (fun q other => by simp [unheld, other.symm]) (fun k => ?_) ?_ nested
  · by_cases same : k = l <;> simp [grown, same, sound.held]
  · simp [grown, sound.once, sound.held, unheld]

theorem Sound.step (sound : Sound first holder m) (step : Step m p m') : ∃ holder, Sound first holder m' := by
  obtain ⟨n, nested⟩ := sound.nested p
  cases step with
  | refused => exact ⟨holder, sound⟩
  | enter l runs =>
    refine ⟨_, sound.put _ (sound.word l) (fun _ _ => .rfl) (fun k => ?_) (sound.once p) ⟨n + 1, ?_⟩⟩
    · rw [Function.update_eq_self]
      exact sound.held p k
    · simpa [Cpu.flags, runs, List.replicate_succ] using nested
  | take spins free => exact ⟨_, sound.acquire free rfl ⟨n, by simpa [Cpu.flags, spins] using nested⟩⟩
  | tryTakes l runs free =>
    exact ⟨_, sound.acquire free rfl ⟨n + 1, by simpa [Cpu.flags, runs, List.replicate_succ] using nested⟩⟩
  | @unlock l f rest runs last =>
    have locks : (m.cpu p).locks = l :: rest.map Prod.fst := by rw [Cpu.locks, last, List.map_cons]
    obtain ⟨notLater, once⟩ := List.nodup_cons.mp (locks ▸ sound.once p)
    have owned : holder l = some p := (sound.held p l).mp (by simp [locks])
    refine ⟨_, sound.put none rfl (fun q other => by simp [owned, other.symm]) (fun k => ?_) once ⟨n - 1, ?_⟩⟩
    · by_cases same : k = l
      · rw [same, Function.update_self]
        exact iff_of_false notLater (by simp)
      · rw [Function.update_of_ne same, ← sound.held, locks, List.mem_cons, or_iff_right same]
        rfl
    · cases n with
      | zero => simp [Cpu.flags, last] at nested
      | succ n => simp_all [Cpu.flags, List.replicate_succ]

section Runs

variable {events : List Proc} (free : ∀ l, m.word l = false) (idle : ∀ p, (m.cpu p).Idle) (run : Run Step m events m')
include free idle run

theorem sound_of_run : ∃ holder, Sound (fun p => (m.cpu p).interrupts) holder m' :=
  run.invariant (fun s => ∃ holder, Sound _ holder s)
    (fun _ _ _ good step => good.elim fun _ sound => sound.step step)
    ⟨fun _ => none, by simp [free], by simp [Cpu.locks, (idle _).2], by simp [Cpu.locks, (idle _).2],
      fun p => ⟨0, by simp [Cpu.flags, (idle p).1, (idle p).2]⟩⟩

/-- Over any interleaving of processors that take and release locks, a lock's word is set while a processor holds
it, no two processors hold one lock, a processor that holds or awaits a lock has its interrupts off, and any
other has the interrupt flag it started with. -/
theorem locks_exclude : (∀ l, m'.word l = true ↔ ∃ p, l ∈ (m'.cpu p).locks) ∧
    (∀ p q l, l ∈ (m'.cpu p).locks → l ∈ (m'.cpu q).locks → p = q) ∧
    ∀ p, (¬ (m'.cpu p).Idle → (m'.cpu p).interrupts = false) ∧
      ((m'.cpu p).Idle → (m'.cpu p).interrupts = (m.cpu p).interrupts) := by
  obtain ⟨holder, sound⟩ := sound_of_run free idle run
  refine ⟨fun l => ?_, fun p q l held held' => ?_, fun p => ?_⟩
  · simp only [sound.word, sound.held, Option.isSome_iff_exists]
  · exact Option.some.inj (((sound.held p l).mp held).symm.trans ((sound.held q l).mp held'))
  · obtain ⟨n, nested⟩ := sound.nested p
    constructor
    all_goals
      intro state
      cases n <;> simp_all [Cpu.flags, Cpu.Idle, List.replicate_succ]

/-- A processor that waits for a lock it holds itself waits for ever, whatever the others do. -/
theorem own_lock_never_comes {f : Bool} (spins : (m'.cpu p).spinning = some (l, f)) (own : l ∈ (m'.cpu p).locks)
    {later : List Proc} {m'' : Machine Proc Lock} (run' : Run Step m' later m'') : m''.cpu p = m'.cpu p := by
  obtain ⟨_, start⟩ := sound_of_run free idle run
  refine (run'.invariant (fun s => (∃ holder, Sound _ holder s) ∧ s.cpu p = m'.cpu p) ?_ ⟨⟨_, start⟩, rfl⟩).2
  rintro s q s' ⟨⟨holder, sound⟩, same⟩ step
  refine ⟨sound.step step, ?_⟩
  have taken : s.word l = true := by
    rw [sound.word, (sound.held p l).mp (same ▸ own)]
    rfl
  rw [← same] at spins ⊢
  by_cases its : p = q
  · cases step <;> simp_all
  · cases step <;> simp [Machine.put, its]

end Runs

def twoLocks : Machine Bool Bool := ⟨fun _ => false, fun _ => ⟨true, none, []⟩⟩

/-- The second processor waits for a lock of the first until that is released. -/
theorem locks_exclude_twoLocks : ∃ m : Machine Bool Bool, (m.cpu true).locks = [false] ∧
    (m.cpu true).interrupts = false ∧ (m.cpu false).interrupts = true := by
  have run : Run Step twoLocks [false, false, true, true, false, true] _ :=
    .cons (.enter false rfl) <| .cons (.take rfl rfl) <| .cons (.enter false rfl) <| .cons (.refused false rfl) <|
      .cons (.unlock rfl rfl) <| .single (.take rfl rfl)
  have sound := locks_exclude (fun _ => rfl) (fun _ => ⟨rfl, rfl⟩) run
  exact ⟨_, rfl, (sound.2.2 true).1 (by simp [Cpu.Idle, Machine.put]), (sound.2.2 false).2 ⟨rfl, rfl⟩⟩

theorem own_lock_never_comes_twoLocks : ∃ m : Machine Bool Bool, (m.cpu false).locks = [false] ∧
    ∀ later m', Run Step m later m' → m'.cpu false = m.cpu false := by
  have run : Run Step twoLocks [false, false] _ := .cons (.tryTakes false rfl rfl) (.single (.enter false rfl))
  exact ⟨_, rfl, fun _ _ => own_lock_never_comes (fun _ => rfl) (fun _ => ⟨rfl, rfl⟩) run rfl (.head _)⟩

end CreeperKernel.Locks

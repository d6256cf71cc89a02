import Mathlib.Data.BitVec

namespace CreeperKernel.Timer

structure TimerDev where
  addr : Nat
  type : BitVec 8
  freq : BitVec 64
  deriving DecidableEq, Repr

/-- `dev->type & TIMER_TYPE_MASK` -/
def TimerDev.kind (dev : TimerDev) : BitVec 8 := dev.type &&& 3

inductive Role where
  | systemTime
  | sleep
  | sched
  deriving DecidableEq, Repr

/-- `TIMER_ROLE_SYSTEM_TIME`, `TIMER_ROLE_SLEEP` and `TIMER_ROLE_SCHED` -/
def Role.mask : Role → BitVec 32
  | systemTime => 1 <<< 0
  | sleep => 1 <<< 1
  | sched => 1 <<< 2

structure Slot where
  dev : Option TimerDev
  priority : Int

structure Timers where
  slots : Role → Slot
  /-- the used entries of `devices_by_type[type]`, as many as `devices_by_type_count[type]` -/
  devicesByType : BitVec 8 → List TimerDev
  ticksMs : BitVec 64
  ticksUs : BitVec 64

def Timers.init : Timers where
  slots _ := { dev := none, priority := -1 }
  devicesByType _ := []
  ticksMs := 0
  ticksUs := 0

def eInval : BitVec 8 := 22

def eNospc : BitVec 8 := 28

def IsError (id : BitVec 8) : Prop := id = -eInval ∨ id = -eNospc

def tryPromote (slot : Slot) (dev : TimerDev) (priority : Int) : Slot :=
  if slot.priority < priority then { dev := some dev, priority } else slot

def encode (type idx : BitVec 8) : BitVec 8 := ((type &&& 3) <<< 5) ||| (idx &&& 0x1f)

structure Request where
  dev : Option TimerDev
  roles : BitVec 32
  priority : Int

/-- What `timer_register` does for a type that has room. The `enable` of a device does not touch the registry. -/
def Timers.enter (s : Timers) (r : Request) (dev : TimerDev) : Timers :=
  { s with
    slots := fun role => if r.roles &&& role.mask ≠ 0 then tryPromote (s.slots role) dev r.priority else s.slots role
    devicesByType := Function.update s.devicesByType dev.kind (s.devicesByType dev.kind ++ [dev]) }

def timerRegister (s : Timers) (r : Request) : BitVec 8 × Timers :=
  match r.dev with
  | none => (-eInval, s)
  | some dev =>
    if 32 ≤ (s.devicesByType dev.kind).length then (-eNospc, s)
    else (encode dev.kind (BitVec.ofNat 8 (s.devicesByType dev.kind).length), s.enter r dev)

/-- The entry of `devices_by_type` that an id stands for; its type has two bits and passes the check for 4. -/
def resolve (s : Timers) (id : BitVec 8) : Option TimerDev :=
  (s.devicesByType ((id >>> 5) &&& 3))[(id &&& 0x1f).toNat]?

/-- `common_timer_dispatcher`: nothing where it returns false, otherwise the device whose interrupt it resets and whether
it calls `yield_core`. -/
def commonTimerDispatcher (s : Timers) (id : BitVec 8) (taskSwitchingFlag : Bool) : Option (TimerDev × Bool) × Timers :=
  if id.toInt < 0 then (none, s) else
  match resolve s id with
  | none => (none, s)
  | some firing =>
    let holds role := (s.slots role).dev.map TimerDev.addr = some firing.addr
    let ticksUs := s.ticksUs + 1000000 / firing.freq
    (some (firing, decide (holds .sched) && taskSwitchingFlag),
      if holds .sleep ∧ firing.freq ≠ 0 then { s with ticksUs, ticksMs := ticksUs / 1000 } else s)

/-- A request with its answer. -/
abbrev Entry := Request × BitVec 8

/-- The requests so far with their answers, and the state they have led to. -/
def registerNext (h : List Entry × Timers) (r : Request) : List Entry × Timers :=
  (h.1 ++ [(r, (timerRegister h.2 r).1)], (timerRegister h.2 r).2)

def registerAll (requests : List Request) : List Entry × Timers :=
  requests.foldl registerNext ([], Timers.init)

/-- A successful request for the role, of a priority that is not negative. -/
def Counts (role : Role) (e : Entry) : Prop :=
  0 ≤ e.2.toInt ∧ e.1.roles &&& role.mask ≠ 0 ∧ 0 ≤ e.1.priority

/-- The earliest of the requests for the role that have the maximal priority. -/
def Best (role : Role) (log : List Entry) (e : Entry) : Prop :=
  Counts role e ∧ ∃ earlier later, log = earlier ++ e :: later ∧
    (∀ e' ∈ earlier, Counts role e' → e'.1.priority < e.1.priority) ∧
    ∀ e' ∈ later, Counts role e' → e'.1.priority ≤ e.1.priority

/-- What the slot of a role holds after the requests. -/
def SlotAfter (role : Role) (log : List Entry) (slot : Slot) : Prop :=
  (∃ e, Best role log e ∧ slot = { dev := e.1.dev, priority := e.1.priority }) ∨
    (∀ e ∈ log, ¬ Counts role e) ∧ slot = { dev := none, priority := -1 }

structure Registered (log : List Entry) (s : Timers) : Prop where
  /-- an answer is an error, or an id under which its own device is found -/
  answers : ∀ e ∈ log, IsError e.2 ∨ 0 ≤ e.2.toInt ∧ e.1.dev ≠ none ∧ resolve s e.2 = e.1.dev
  distinct : log.Pairwise fun e e' => 0 ≤ e.2.toInt → 0 ≤ e'.2.toInt → e.2 ≠ e'.2
  slots : ∀ role, SlotAfter role log (s.slots role)

/-- The dispatcher takes `id` apart into these two. -/
abbrev Decodes (id kind : BitVec 8) (idx : Nat) : Prop :=
  0 ≤ id.toInt ∧ (id >>> 5) &&& 3 = kind ∧ (id &&& 0x1f).toNat = idx

theorem decodes_encode : ∀ kind < 4, ∀ idx < 32,
    Decodes (encode (BitVec.ofNat 8 kind) (BitVec.ofNat 8 idx)) (BitVec.ofNat 8 kind) idx := by
  decide

section Step

variable {log : List Entry} {s : Timers} {r : Request} {dev : TimerDev} {id : BitVec 8} {role : Role}

theorem TimerDev.decodes_encode (dev : TimerDev) {idx : Nat} (room : idx < 32) :
    Decodes (encode dev.kind (BitVec.ofNat 8 idx)) dev.kind idx := by
  have small : dev.kind.toNat < 4 := by
    rw [TimerDev.kind, BitVec.toNat_and]
    exact Nat.lt_succ_of_le Nat.and_le_right
  have spec := Timer.decodes_encode _ small idx room
  rwa [BitVec.ofNat_toNat, BitVec.setWidth_eq] at spec

theorem timerRegister_cases (s : Timers) (r : Request) : IsError (timerRegister s r).1 ∧ (timerRegister s r).2 = s ∨
    ∃ dev, r.dev = some dev ∧ (s.devicesByType dev.kind).length < 32 ∧
      timerRegister s r = (encode dev.kind (BitVec.ofNat 8 (s.devicesByType dev.kind).length), s.enter r dev) := by
  unfold timerRegister
  cases r.dev with
  | none => exact .inl ⟨.inl rfl, rfl⟩
  | some dev =>
    by_cases full : 32 ≤ (s.devicesByType dev.kind).length
    · simp [full, IsError]
    · exact .inr ⟨dev, rfl, Nat.lt_of_not_le full, by simp [full]⟩

theorem resolve_enter (found : resolve s id = some dev) (r : Request) (new : TimerDev) :
    resolve (s.enter r new) id = some dev := by
  simp only [resolve, Timers.enter] at found ⊢
  by_cases same : (id >>> 5) &&& 3 = new.kind
  · have inside := (List.getElem?_eq_some_iff.mp found).1
    rw [same] at found inside
    rw [same, Function.update_self, List.getElem?_append_left inside, found]
  · rw [Function.update_of_ne same, found]

variable {c e : Entry} {slot : Slot}

theorem Best.le (best : Best role log c) (member : e ∈ log) (counts : Counts role e) : e.1.priority ≤ c.1.priority := by
  obtain ⟨_, earlier, later, rfl, before, after⟩ := best
  simp only [List.mem_append, List.mem_cons] at member
  rcases member with front | rfl | back
  · exact Int.le_of_lt (before e front counts)
  · exact Int.le_refl _
  · exact after e back counts

theorem Best.append (best : Best role log c) (less : Counts role e → e.1.priority ≤ c.1.priority) :
    Best role (log ++ [e]) c := by
  obtain ⟨counts, earlier, later, rfl, before, after⟩ := best
  refine ⟨counts, earlier, later ++ [e], by simp, before, ?_⟩
  exact List.forall_mem_append.mpr ⟨after, List.forall_mem_singleton.mpr less⟩

theorem SlotAfter.append_of_not (h : SlotAfter role log slot) (no : ¬ Counts role e) : SlotAfter role (log ++ [e]) slot := by
  rcases h with ⟨c, best, is⟩ | ⟨never, is⟩
  · exact .inl ⟨c, best.append fun counts => absurd counts no, is⟩
  · exact .inr ⟨List.forall_mem_append.mpr ⟨never, List.forall_mem_singleton.mpr no⟩, is⟩

theorem SlotAfter.promote (h : SlotAfter role log slot) (counts : Counts role (r, id)) (given : r.dev = some dev) :
    SlotAfter role (log ++ [(r, id)]) (tryPromote slot dev r.priority) := by
  have last (above : ∀ e ∈ log, Counts role e → e.1.priority < r.priority) : Best role (log ++ [(r, id)]) (r, id) :=
    ⟨counts, log, [], rfl, above, by simp⟩
  rcases h with ⟨c, best, rfl⟩ | ⟨never, rfl⟩
  · by_cases more : c.1.priority < r.priority
    · rw [tryPromote, if_pos more, ← given]
      exact .inl ⟨_, last fun e member wanted => Int.lt_of_le_of_lt (best.le member wanted) more, rfl⟩
    · rw [tryPromote, if_neg more]
      exact .inl ⟨c, best.append fun _ => Int.le_of_not_gt more, rfl⟩
  · have above : -1 < r.priority := by
      have positive : 0 ≤ r.priority := counts.2.2
      omega
    rw [tryPromote, if_pos above, ← given]
    exact .inl ⟨_, last fun e member wanted => absurd wanted (never e member), rfl⟩

/-- A priority below 0 never takes a slot. -/
theorem SlotAfter.tryPromote_of_neg (h : SlotAfter role log slot) (negative : ¬ 0 ≤ r.priority) (dev : TimerDev) :
    tryPromote slot dev r.priority = slot := by
  rw [tryPromote, if_neg]
  rcases h with ⟨c, best, rfl⟩ | ⟨_, rfl⟩
  · have positive := best.1.2.2
    show ¬ c.1.priority < r.priority
    omega
  · show ¬ -1 < r.priority
    omega

theorem IsError.negative (is : IsError id) : id.toInt < 0 := by
  rcases is with rfl | rfl <;> decide

theorem Registered.error (h : Registered log s) (is : IsError id) (r : Request) : Registered (log ++ [(r, id)]) s := by
  have negative : ¬ 0 ≤ id.toInt := Int.not_le.mpr is.negative
  refine ⟨?_, ?_, fun role => ?_⟩
  · exact List.forall_mem_append.mpr ⟨h.answers, List.forall_mem_singleton.mpr (.inl is)⟩
  · rw [List.pairwise_append]
    refine ⟨h.distinct, List.pairwise_singleton _ _, fun e _ e' new _ nonneg => ?_⟩
    rw [List.mem_singleton.mp new] at nonneg
    exact absurd nonneg negative
  · exact (h.slots role).append_of_not fun counts => negative counts.1

theorem Registered.enter (h : Registered log s) (given : r.dev = some dev) (room : (s.devicesByType dev.kind).length < 32) :
    Registered (log ++ [(r, encode dev.kind (BitVec.ofNat 8 (s.devicesByType dev.kind).length))]) (s.enter r dev) := by
  obtain ⟨nonneg, kind, idx⟩ := dev.decodes_encode room
  generalize encode dev.kind (BitVec.ofNat 8 (s.devicesByType dev.kind).length) = id at *
  have free : resolve s id = none := by
    rw [resolve, kind, idx, List.getElem?_eq_none (Nat.le_refl _)]
  have found : resolve (s.enter r dev) id = some dev := by
    simp only [resolve, kind, idx, Timers.enter, Function.update_self, List.getElem?_concat_length]
  refine ⟨?_, ?_, fun role => ?_⟩
  · intro e member
    rcases List.mem_append.mp member with old | new
    · rcases h.answers e old with error | ⟨positive, some_, its⟩
      · exact .inl error
      · obtain ⟨dev', is⟩ := Option.ne_none_iff_exists'.mp some_
        rw [is] at its ⊢
        exact .inr ⟨positive, by simp, resolve_enter its r dev⟩
    · rw [List.mem_singleton.mp new]
      exact .inr ⟨nonneg, by simp [given], found.trans given.symm⟩
  · rw [List.pairwise_append]
    refine ⟨h.distinct, List.pairwise_singleton _ _, fun e old e' new positive _ same => ?_⟩
    rw [List.mem_singleton.mp new] at same
    rcases h.answers e old with error | ⟨_, some_, its⟩
    · exact absurd positive (Int.not_le.mpr error.negative)
    · rw [same, free] at its
      exact some_ its.symm
  · have slot := h.slots role
    simp only [Timers.enter]
    split
    · rename_i asked
      by_cases counts : 0 ≤ r.priority
      · exact slot.promote ⟨nonneg, asked, counts⟩ given
      · rw [slot.tryPromote_of_neg counts]
        exact slot.append_of_not fun yes => counts yes.2.2
    · rename_i notAsked
      exact slot.append_of_not fun yes => notAsked yes.2.1

theorem registerNext_registered (h : Registered log s) (r : Request) :
    Registered (registerNext (log, s) r).1 (registerNext (log, s) r).2 := by
  rw [registerNext]
  rcases timerRegister_cases s r with ⟨is, same⟩ | ⟨dev, given, room, result⟩
  · rw [same]
    exact h.error is r
  · rw [result]
    exact h.enter given room

end Step

theorem registerAll_registered (requests : List Request) : Registered (registerAll requests).1 (registerAll requests).2 := by
  have run : ∀ (requests : List Request) (h : List Entry × Timers), Registered h.1 h.2 →
      Registered (requests.foldl registerNext h).1 (requests.foldl registerNext h).2 := by
    intro requests
    induction requests with
    | nil => exact fun h holds => holds
    | cons r requests ih => exact fun h holds => ih _ (registerNext_registered holds r)
  exact run requests ([], Timers.init) ⟨by simp, .nil, fun _ => .inr ⟨by simp, rfl⟩⟩

/-- After any sequence of calls: an id leads the dispatcher to the device that got it and to no other, an error leads it
nowhere, and each slot holds the device of the best request for its role. A device is accepted unless there are 32 of its
type. -/
theorem timer_registry_correct (requests : List Request) :
    (∀ e ∈ (registerAll requests).1,
      0 ≤ e.2.toInt ∧ e.1.dev ≠ none ∧ (∀ flag,
        ((commonTimerDispatcher (registerAll requests).2 e.2 flag).1.map Prod.fst) = e.1.dev) ∨
      IsError e.2 ∧ e.2.toInt < 0 ∧ ∀ s flag, commonTimerDispatcher s e.2 flag = (none, s)) ∧
    ((registerAll requests).1.Pairwise fun e e' => 0 ≤ e.2.toInt → 0 ≤ e'.2.toInt → e.2 ≠ e'.2) ∧
    (∀ role, (∃ e, Best role (registerAll requests).1 e ∧ ((registerAll requests).2.slots role).dev = e.1.dev) ∨
      (∀ e ∈ (registerAll requests).1, ¬ Counts role e) ∧ ((registerAll requests).2.slots role).dev = none) ∧
    ∀ r dev, r.dev = some dev → (0 ≤ (timerRegister (registerAll requests).2 r).1.toInt ↔
      ((registerAll requests).2.devicesByType dev.kind).length < 32) := by
  have h := registerAll_registered requests
  refine ⟨fun e member => ?_, h.distinct, fun role => ?_, fun r dev given => ?_⟩
  · rcases h.answers e member with error | ⟨nonneg, some_, its⟩
    · refine .inr ⟨error, error.negative, fun s flag => ?_⟩
      rw [commonTimerDispatcher, if_pos error.negative]
    · refine .inl ⟨nonneg, some_, fun flag => ?_⟩
      rw [commonTimerDispatcher, if_neg (Int.not_lt.mpr nonneg), ← its]
      cases resolve (registerAll requests).2 e.2 <;> rfl
  · rcases h.slots role with ⟨e, best, is⟩ | ⟨never, is⟩
    · exact .inl ⟨e, best, by rw [is]⟩
    · exact .inr ⟨never, by rw [is]⟩
  · unfold timerRegister
    rw [given]
    by_cases full : 32 ≤ ((registerAll requests).2.devicesByType dev.kind).length
    · simp only [full, if_true, Nat.not_lt.mpr full, iff_false]
      decide
    · simp only [full, if_false, Nat.lt_of_not_le full, iff_true]
      exact (dev.decodes_encode (Nat.lt_of_not_le full)).1

end CreeperKernel.Timer

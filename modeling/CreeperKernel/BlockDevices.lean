import CreeperKernel.Transitions
import Mathlib.Data.BitVec

namespace CreeperKernel.Block

open Transitions (Run)

abbrev Ptr := Nat

/-- The bits of a word of a bitmap, `sizeof(size_t) * 8`. -/
def wordBits : Nat := 64

/-- `bitmap_set`: bit `idx % 8` of byte `idx / 8`, which is bit `idx % 64` of its word. Outside of
the map the access faults. -/
def bitmapSet (bitmap : List (BitVec 64)) (idx : Nat) (state : Bool) : Option (List (BitVec 64)) :=
  if idx / wordBits < bitmap.length then
    some (bitmap.modify (idx / wordBits) fun w =>
      if state then w ||| 1#64 <<< (idx % wordBits) else w &&& ~~~(1#64 <<< (idx % wordBits)))
  else none

/-- The index that the loop of `wbitmap_alloc_1_first` finds from word `i` on. -/
def firstSet : List (BitVec 64) → Nat → Option Nat
  | [], _ => none
  | w :: words, i => if w = 0 then firstSet words (i + 1) else some (i * wordBits + w.ctz.toNat)

/-- `wbitmap_alloc_1_first`: the first set bit, which it clears, or `(size_t)-1`. -/
def wbitmapAlloc1First (bitmap : List (BitVec 64)) : BitVec 64 × List (BitVec 64) :=
  match firstSet bitmap 0 with
  | none => (-1, bitmap)
  | some idx => (BitVec.ofNat 64 idx, (bitmapSet bitmap idx false).getD bitmap)

structure BlockDevice where
  addr : Ptr
  id : BitVec 32
  deriving DecidableEq, Repr

structure Registry where
  /-- `_blkdev_id_map` -/
  blkdevIdMap : List (BitVec 64)
  /-- the devices from `block_device_list_start` on -/
  devices : List BlockDevice
  /-- `block_device_amount` -/
  amount : BitVec 16

/-- The static objects before the first call: nothing in the kernel writes to the map but the
functions here. -/
def Registry.init : Registry := { blkdevIdMap := [0, 0], devices := [], amount := 0 }

/-- `register_block_device`, with the address of the new device and whether the memory for its
path is there. A device that is in the list already is not taken out of it without that memory. -/
def registerBlockDevice (s : Registry) (blkdev : Option Ptr) (tmpbuff : Bool) : Option Ptr × Registry :=
  match blkdev with
  | none => (none, s)
  | some addr =>
    let (idx, blkdevIdMap) := wbitmapAlloc1First s.blkdevIdMap
    let device : BlockDevice := { addr, id := idx.setWidth 32 }
    (if tmpbuff then some addr else none,
      { blkdevIdMap, devices := s.devices ++ [device], amount := s.amount + 1 })

/-- `unregister_block_device`, and what it returns unless the release of the id faults. -/
def unregisterBlockDevice (s : Registry) (blkdev : BlockDevice) : Option Int × Registry :=
  let devices := s.devices.filter (·.addr ≠ blkdev.addr)
  -- the id is sign-extended to an index
  match bitmapSet s.blkdevIdMap (blkdev.id.signExtend 64).toNat false with
  | none => (none, { s with devices })
  | some blkdevIdMap => (some 0, { s with devices, blkdevIdMap })

def getBlockDevice (s : Registry) (id : BitVec 32) : Option BlockDevice :=
  if id.toInt < 0 then none else s.devices.find? (·.id = id)

def getBlockDeviceAmount (s : Registry) : Int := s.amount.toInt

def Fresh (s : Registry) (addr : Ptr) : Prop := ∀ d ∈ s.devices, d.addr ≠ addr

inductive Call where
  | register (blkdev : Option Ptr) (tmpbuff : Bool)
  | unregister (blkdev : BlockDevice)

/-- A call: memory is handed out once, and devices are unregistered that are registered. -/
inductive Step (s : Registry) : Call → Registry → Prop where
  | register {blkdev : Option Ptr} (tmpbuff : Bool) (fresh : ∀ addr, blkdev = some addr → Fresh s addr) :
      Step s (.register blkdev tmpbuff) (registerBlockDevice s blkdev tmpbuff).2
  | unregister {blkdev : BlockDevice} (registered : blkdev ∈ s.devices) :
      Step s (.unregister blkdev) (unregisterBlockDevice s blkdev).2

def deviceRoom : Nat := 128

/-- The registered devices are told apart by their ids, and there is an id for the next one. -/
structure Identity (s : Registry) : Prop where
  ids : ∀ d ∈ s.devices, 0 ≤ d.id.toInt
  distinct : s.devices.Pairwise fun a b => a.id ≠ b.id
  found : ∀ d ∈ s.devices, getBlockDevice s d.id = some d
  counted : getBlockDeviceAmount s = s.devices.length
  room : s.devices.length < deviceRoom → ∀ addr, Fresh s addr →
    ∃ d, d ∈ (registerBlockDevice s (some addr) true).2.devices ∧ d.addr = addr ∧ 0 ≤ d.id.toInt ∧
      ∀ other ∈ s.devices, other.id ≠ d.id

/-- No bit of the map is ever set, and so no device has an id. -/
structure Nameless (s : Registry) : Prop where
  map : s.blkdevIdMap = [0, 0]
  ids : ∀ d ∈ s.devices, d.id = -1

namespace Nameless

theorem alloc : wbitmapAlloc1First [0, 0] = (-1, [0, 0]) := rfl

theorem init : Nameless .init := ⟨rfl, fun _ member => (nomatch member)⟩

variable {s : Registry}

theorem bitmapSet_clear {idx : Nat} {bitmap : List (BitVec 64)} (done : bitmapSet [0, 0] idx false = some bitmap) :
    bitmap = [0, 0] := by
  unfold bitmapSet at done
  split at done
  · rename_i inside
    cases done
    generalize idx / wordBits = word at inside
    match word, inside with
    | 0, _ => simp [List.modify]
    | 1, _ => simp [List.modify]
  · cases done

theorem register (nameless : Nameless s) (blkdev : Option Ptr) (tmpbuff : Bool) :
    Nameless (registerBlockDevice s blkdev tmpbuff).2 := by
  cases blkdev with
  | none => exact nameless
  | some addr =>
    unfold registerBlockDevice
    rw [nameless.map, alloc]
    constructor
    · rfl
    · intro d member
      rcases List.mem_append.mp member with old | new
      · exact nameless.ids d old
      · rw [List.mem_singleton.mp new]
        rfl

theorem unregister (nameless : Nameless s) (blkdev : BlockDevice) : Nameless (unregisterBlockDevice s blkdev).2 := by
  have ids : ∀ d ∈ s.devices.filter (·.addr ≠ blkdev.addr), d.id = -1 := fun d member =>
    nameless.ids d (List.mem_of_mem_filter member)
  unfold unregisterBlockDevice
  dsimp only
  split
  · exact ⟨nameless.map, ids⟩
  · rename_i bitmap done
    rw [nameless.map] at done
    exact ⟨bitmapSet_clear done, ids⟩

theorem step {call : Call} {s' : Registry} (nameless : Nameless s) (step : Step s call s') : Nameless s' := by
  cases step with
  | register tmpbuff fresh => exact nameless.register _ tmpbuff
  | unregister registered => exact nameless.unregister _

theorem getBlockDevice_eq_none (nameless : Nameless s) (id : BitVec 32) : getBlockDevice s id = none := by
  unfold getBlockDevice
  split
  · rfl
  · rename_i positive
    rw [List.find?_eq_none]
    intro d member same
    rw [decide_eq_true_eq, nameless.ids d member] at same
    rw [← same] at positive
    exact positive (by decide)

theorem exists_fresh (s : Registry) : ∃ addr, Fresh s addr := by
  obtain ⟨addr, other⟩ := Infinite.exists_notMem_finset (s.devices.map (·.addr)).toFinset
  refine ⟨addr, fun d member same => other ?_⟩
  rw [List.mem_toFinset, ← same]
  exact List.mem_map_of_mem member

theorem not_identity (nameless : Nameless s) : ¬ Identity s := by
  intro identity
  by_cases full : s.devices.length < deviceRoom
  · obtain ⟨addr, fresh⟩ := exists_fresh s
    obtain ⟨d, member, _, positive, _⟩ := identity.room full addr fresh
    rw [(nameless.register (some addr) true).ids d member] at positive
    exact absurd positive (by decide)
  · have some' : s.devices ≠ [] := by
      intro none'
      rw [none'] at full
      exact full (by decide)
    obtain ⟨d, member⟩ := List.exists_mem_of_ne_nil _ some'
    have positive := identity.ids d member
    rw [nameless.ids d member] at positive
    exact absurd positive (by decide)

end Nameless

/-- In no state that registering and unregistering lead to are devices told apart by their ids:
each has the id -1, which no lookup finds. -/
theorem block_devices_never_identified (calls : List Call) (s : Registry) (run : Run Step .init calls s) :
    (∀ d ∈ s.devices, d.id = -1) ∧ (∀ id, getBlockDevice s id = none) ∧ ¬ Identity s := by
  have nameless : Nameless s := run.invariant Nameless (fun _ _ _ nameless step => nameless.step step) .init
  exact ⟨nameless.ids, nameless.getBlockDevice_eq_none, nameless.not_identity⟩

/-- Two devices are registered. -/
theorem block_devices_never_identified_two : ∃ s,
    Run Step .init [.register (some 0x1000) true, .register (some 0x2000) true] s ∧ ¬ Identity s := by
  have run : Run Step .init [.register (some 0x1000) true, .register (some 0x2000) true] _ :=
    .cons (.register true fun _ _ _ member => (nomatch member)) <| .cons (.register true (by
      intro addr same d member
      cases same
      rw [List.mem_singleton.mp member]
      decide)) <| .nil _
  exact ⟨_, run, (block_devices_never_identified _ _ run).2.2⟩

/-- A device is registered: it has the id -1, and is not found. -/
theorem registered_device_not_found : ∃ s, Run Step .init [.register (some 0x1000) true] s ∧
    s.devices = [⟨0x1000, -1⟩] ∧ getBlockDevice s (-1) = none ∧ ¬ Identity s := by
  have run : Run Step .init [.register (some 0x1000) true] _ :=
    .single (.register true fun _ _ _ member => (nomatch member))
  exact ⟨_, run, rfl, rfl, (Nameless.init.register _ _).not_identity⟩

end CreeperKernel.Block

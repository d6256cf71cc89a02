import Mathlib.Data.List.Basic
import Mathlib.Algebra.GroupWithZero.Nat

namespace CreeperKernel.UserStack

abbrev Byte := BitVec 8

abbrev Mem := Nat → Byte

/-- `memcpy` of these bytes to an address. -/
def put (mem : Mem) (addr : Nat) (bytes : List Byte) : Mem :=
  fun a => if addr ≤ a then bytes[a - addr]?.getD (mem a) else mem a

def bytesOf (v : Nat) : Nat → List Byte
  | 0 => []
  | width + 1 => BitVec.ofNat 8 v :: bytesOf (v / 256) width

def load (mem : Mem) (a : Nat) : Nat → Nat
  | 0 => 0
  | width + 1 => (mem a).toNat + 256 * load mem (a + 1) width

def stackBytes : Nat := 128 * 4096

def atNull : Nat := 0
def atPagesz : Nat := 6
def atRandom : Nat := 25

section Sizes

variable (argv envp : List (List Byte))

def stringBytes (strings : List (List Byte)) : Nat := (strings.map fun s => s.length + 1).sum

def argvBytes : Nat := (argv.length + 1) * 8
def envpBytes : Nat := (envp.length + 1) * 8
def auxvBytes : Nat := 48 * 8
def fixedBytes : Nat := 8 + argvBytes argv + envpBytes envp + auxvBytes
def strBytes : Nat := stringBytes argv + stringBytes envp
def pad : Nat := (16 - (fixedBytes argv envp + strBytes argv envp) % 16) % 16

/-- The sizes of the strings and arrays, which are in memory, have a sum that does not wrap. -/
def total : Nat := fixedBytes argv envp + pad argv envp + strBytes argv envp

end Sizes

/-- The loop over `argv` or `envp`: each string is copied behind the one before, and its user
address is stored. -/
def putStrings (kStrings stringsUva : Nat) : Mem → (kPtrs off : Nat) → List (List Byte) → Mem × Nat
  | mem, _, off, [] => (mem, off)
  | mem, kPtrs, off, s :: rest =>
    let mem := put mem (kStrings + off) (s ++ [0])
    let mem := put mem kPtrs (bytesOf (stringsUva + off) 8)
    putStrings kStrings stringsUva mem (kPtrs + 8) (off + (s.length + 1)) rest

def putWords (mem : Mem) (addr : Nat) (words : List Nat) : Mem := put mem addr (words.flatMap fun w => bytesOf w 8)

def auxWords (uStackTop : Nat) : List Nat := [atPagesz, 4096, atRandom, uStackTop - 16, atNull, 0]

/-- `_setup_user_stack_args`: the stack pointer for the user and the memory, or `none` for
`false`. A NULL array has no strings. -/
def setupUserStackArgs (mem : Mem) (kStackTop uStackTop : Nat) (argv envp : List (List Byte)) : Option (Nat × Mem) :=
  if total argv envp > stackBytes then none else
  let base := kStackTop - total argv envp
  let baseUva := uStackTop - total argv envp
  let mem := put mem base (List.replicate (total argv envp) 0)
  let kArgvPtrs := base + 8
  let kEnvpPtrs := kArgvPtrs + argvBytes argv
  let kAuxv := kEnvpPtrs + envpBytes envp
  let kStrings := kAuxv + auxvBytes + pad argv envp
  let stringsUva := baseUva + (fixedBytes argv envp + pad argv envp)
  let (mem, strOff) := putStrings kStrings stringsUva mem kArgvPtrs 0 argv
  let mem := putWords mem (kArgvPtrs + 8 * argv.length) [0]
  let (mem, _) := putStrings kStrings stringsUva mem kEnvpPtrs strOff envp
  let mem := putWords mem (kEnvpPtrs + 8 * envp.length) [0]
  let mem := putWords mem kAuxv (auxWords uStackTop)
  let mem := putWords mem base [argv.length]
  some (baseUva, mem)

/-- The user's view of the stack: its pages end at `uStackTop` there and at `kStackTop` here. -/
def userView (mem : Mem) (kStackTop uStackTop : Nat) : Mem := fun a => mem (kStackTop - (uStackTop - a))

/-- The words before the first that is NULL. -/
def pointers (mem : Mem) : (fuel : Nat) → Nat → List Nat
  | 0, _ => []
  | fuel + 1, a => if load mem a 8 = 0 then [] else load mem a 8 :: pointers mem fuel (a + 8)

def cstring (mem : Mem) : (fuel : Nat) → Nat → List Byte
  | 0, _ => []
  | fuel + 1, a => if mem a = 0 then [] else mem a :: cstring mem fuel (a + 1)

/-- The pairs before `AT_NULL`. -/
def auxiliary (mem : Mem) : (fuel : Nat) → Nat → List (Nat × Nat)
  | 0, _ => []
  | fuel + 1, a => if load mem a 8 = atNull then [] else (load mem a 8, load mem (a + 8) 8) :: auxiliary mem fuel (a + 16)

/-- What a program finds on its stack. -/
structure Arguments where
  argc : Nat
  argv : List (List Byte)
  envp : List (List Byte)
  auxv : List (Nat × Nat)

/-- The System V layout: the number of arguments, the two tables of pointers, each ended by NULL,
and the auxiliary vector. -/
def decode (user : Mem) (fuel rsp : Nat) : Arguments :=
  let argv := pointers user fuel (rsp + 8)
  let envpAt := rsp + 8 + 8 * (argv.length + 1)
  let envp := pointers user fuel envpAt
  { argc := load user rsp 8
    argv := argv.map (cstring user fuel)
    envp := envp.map (cstring user fuel)
    auxv := auxiliary user fuel (envpAt + 8 * (envp.length + 1)) }

section Bytes

/-- These bytes are in memory from an address on. -/
def At (mem : Mem) : Nat → List Byte → Prop
  | _, [] => True
  | a, b :: rest => mem a = b ∧ At mem (a + 1) rest

variable {mem mem' : Mem} {a addr : Nat} {bytes : List Byte}

@[simp] theorem length_bytesOf (v width : Nat) : (bytesOf v width).length = width := by
  induction width generalizing v with
  | zero => rfl
  | succ width ih => rw [bytesOf, List.length_cons, ih]

theorem put_outside (out : a < addr ∨ addr + bytes.length ≤ a) : put mem addr bytes a = mem a := by
  unfold put
  split
  · rw [List.getElem?_eq_none (by omega)]
    rfl
  · rfl

theorem At.congr {a' : Nat} (here : At mem a bytes) (same : ∀ i < bytes.length, mem' (a' + i) = mem (a + i)) :
    At mem' a' bytes := by
  induction bytes generalizing a a' with
  | nil => trivial
  | cons b rest ih =>
    refine ⟨(same 0 (Nat.zero_lt_succ _)).trans here.1, ih here.2 fun i low => ?_⟩
    have next := same (i + 1) (Nat.succ_lt_succ low)
    rw [show a' + 1 + i = a' + (i + 1) by omega, show a + 1 + i = a + (i + 1) by omega]
    exact next

theorem at_of_getElem (each : ∀ i < bytes.length, mem (a + i) = bytes[i]?.getD 0) : At mem a bytes := by
  induction bytes generalizing a with
  | nil => trivial
  | cons b rest ih =>
    refine ⟨each 0 (Nat.zero_lt_succ _), ih fun i low => ?_⟩
    have next := each (i + 1) (Nat.succ_lt_succ low)
    rw [show a + 1 + i = a + (i + 1) by omega, next, List.getElem?_cons_succ]

theorem at_put (mem : Mem) (addr : Nat) (bytes : List Byte) : At (put mem addr bytes) addr bytes := by
  apply at_of_getElem
  intro i low
  rw [put, if_pos (Nat.le_add_right addr i), Nat.add_sub_cancel_left, List.getElem?_eq_getElem low]
  rfl

theorem put_spec (done : put mem addr bytes = mem') :
    At mem' addr bytes ∧ ∀ a, a < addr ∨ addr + bytes.length ≤ a → mem' a = mem a := by
  subst done
  exact ⟨at_put mem addr bytes, fun _ out => put_outside out⟩

theorem At.put (here : At mem a bytes) {more : List Byte}
    (apart : a + bytes.length ≤ addr ∨ addr + more.length ≤ a) : At (UserStack.put mem addr more) a bytes := by
  apply here.congr
  intro i low
  exact put_outside (by omega)

theorem load_of_at {v width : Nat} (here : At mem a (bytesOf v width)) : load mem a width = v % 256 ^ width := by
  induction width generalizing v a with
  | zero => rw [load, Nat.pow_zero, Nat.mod_one]
  | succ width ih =>
    have split : v % 256 ^ (width + 1) = v % 256 + 256 * (v / 256 % 256 ^ width) := by
      rw [Nat.pow_succ, Nat.mul_comm (256 ^ width), Nat.mod_mul]
    rw [load, here.1, ih here.2, BitVec.toNat_ofNat, split]

theorem At.append {front back : List Byte} (here : At mem a (front ++ back)) :
    At mem a front ∧ At mem (a + front.length) back := by
  induction front generalizing a with
  | nil => exact ⟨trivial, here⟩
  | cons b rest ih =>
    have ⟨first, later⟩ := ih here.2
    refine ⟨⟨here.1, first⟩, ?_⟩
    rw [List.length_cons, Nat.add_comm rest.length, ← Nat.add_assoc]
    exact later

theorem load_word {v : Nat} (small : v < 2 ^ 64) (here : At mem a (bytesOf v 8)) : load mem a 8 = v := by
  rw [load_of_at here]
  exact Nat.mod_eq_of_lt small

theorem cstring_of_at {s : List Byte} {fuel : Nat} (here : At mem a (s ++ [0])) (terminated : 0 ∉ s)
    (enough : s.length < fuel) : cstring mem fuel a = s := by
  induction s generalizing a fuel with
  | nil =>
    have ⟨fuel', more⟩ := Nat.exists_eq_succ_of_ne_zero (Nat.ne_of_gt enough)
    rw [more, cstring, if_pos here.1]
  | cons b rest ih =>
    have ⟨fuel', more⟩ := Nat.exists_eq_succ_of_ne_zero (Nat.ne_of_gt (Nat.zero_lt_of_lt enough))
    have ⟨first, later⟩ := not_or.mp (mt List.mem_cons.mpr terminated)
    rw [more, List.length_cons] at enough
    rw [more, cstring, here.1, if_neg (Ne.symm first), ih here.2 later (by omega)]

end Bytes

section Strings

/-- The strings and the table of their addresses are in memory: the pointers from `ptrs` on, the
strings from `place + off` on, where `uva + off` is their address for the user. -/
def Stored (mem : Mem) (place uva : Nat) : (ptrs off : Nat) → List (List Byte) → Prop
  | _, _, [] => True
  | ptrs, off, s :: rest => At mem ptrs (bytesOf (uva + off) 8) ∧ At mem (place + off) (s ++ [0]) ∧
      Stored mem place uva (ptrs + 8) (off + (s.length + 1)) rest

variable {mem mem' : Mem} {place uva ptrs off : Nat} {strings : List (List Byte)}

theorem stringBytes_cons (s : List Byte) (rest : List (List Byte)) :
    stringBytes (s :: rest) = s.length + 1 + stringBytes rest := by
  rw [stringBytes, List.map_cons, List.sum_cons, stringBytes]

theorem Stored.congr {place' ptrs' : Nat} (stored : Stored mem place uva ptrs off strings)
    (pointers : ∀ i < 8 * strings.length, mem' (ptrs' + i) = mem (ptrs + i))
    (bytes : ∀ i, off ≤ i → i < off + stringBytes strings → mem' (place' + i) = mem (place + i)) :
    Stored mem' place' uva ptrs' off strings := by
  induction strings generalizing ptrs ptrs' off with
  | nil => trivial
  | cons s rest ih =>
    rw [stringBytes_cons] at bytes
    rw [List.length_cons] at pointers
    have ⟨first, string, later⟩ := stored
    refine ⟨first.congr fun i low => ?_, string.congr fun i low => ?_, ih later (fun i low => ?_) fun i from_ below => ?_⟩
    · rw [length_bytesOf] at low
      exact pointers i (by omega)
    · rw [List.length_append, List.length_singleton] at low
      have same := bytes (off + i) (by omega) (by omega)
      rw [Nat.add_assoc, Nat.add_assoc]
      exact same
    · have same := pointers (8 + i) (by omega)
      rw [Nat.add_assoc, Nat.add_assoc]
      exact same
    · exact bytes i (by omega) (by omega)

/-- The loop stores all strings, and writes only to the table and behind the strings before. -/
theorem putStrings_spec (place uva : Nat) (mem : Mem) (below : ptrs + 8 * strings.length ≤ place + off) :
    Stored (putStrings place uva mem ptrs off strings).1 place uva ptrs off strings ∧
      (putStrings place uva mem ptrs off strings).2 = off + stringBytes strings ∧
      ∀ a, a < ptrs ∨ ptrs + 8 * strings.length ≤ a → a < place + off ∨ place + (off + stringBytes strings) ≤ a →
        (putStrings place uva mem ptrs off strings).1 a = mem a := by
  induction strings generalizing mem ptrs off with
  | nil => exact ⟨trivial, rfl, fun _ _ _ => rfl⟩
  | cons s rest ih =>
    rw [List.length_cons] at below
    have length : (s ++ [(0 : Byte)]).length = s.length + 1 := by rw [List.length_append, List.length_singleton]
    have pointer := length_bytesOf (uva + off) 8
    have ⟨later, next, frame⟩ := ih (put (put mem (place + off) (s ++ [0])) ptrs (bytesOf (uva + off) 8))
      (show ptrs + 8 + 8 * rest.length ≤ place + (off + (s.length + 1)) by omega)
    rw [putStrings]
    refine ⟨⟨?_, ?_, later⟩, ?_, fun a table text => ?_⟩
    · apply (at_put _ ptrs _).congr
      intro i low
      rw [pointer] at low
      exact frame _ (by omega) (by omega)
    · have written : At (put (put mem (place + off) (s ++ [0])) ptrs (bytesOf (uva + off) 8)) (place + off) (s ++ [0]) := by
        apply (at_put mem (place + off) (s ++ [0])).put
        rw [pointer]
        omega
      apply written.congr
      intro i low
      rw [length] at low
      exact frame _ (by omega) (by omega)
    · rw [next, stringBytes_cons]
      omega
    · rw [stringBytes_cons] at text
      rw [List.length_cons] at table
      rw [frame a (by omega) (by omega), put_outside (by rw [pointer]; omega), put_outside (by rw [length]; omega)]

theorem pointers_of_stored (stored : Stored mem uva uva ptrs off strings)
    (last : At mem (ptrs + 8 * strings.length) (bytesOf 0 8)) (positive : 0 < uva)
    (small : uva + off + stringBytes strings ≤ 2 ^ 64) (terminated : ∀ s ∈ strings, 0 ∉ s) {fuel size : Nat}
    (enough : strings.length < fuel) (wide : stringBytes strings ≤ size) :
    (pointers mem fuel ptrs).length = strings.length ∧ (pointers mem fuel ptrs).map (cstring mem size) = strings := by
  induction strings generalizing ptrs off fuel with
  | nil =>
    have ⟨fuel', more⟩ := Nat.exists_eq_succ_of_ne_zero (Nat.ne_of_gt enough)
    have zero : load mem ptrs 8 = 0 := load_word (by decide) last
    rw [more, pointers, if_pos zero]
    exact ⟨rfl, rfl⟩
  | cons s rest ih =>
    have ⟨fuel', more⟩ := Nat.exists_eq_succ_of_ne_zero (Nat.ne_of_gt (Nat.zero_lt_of_lt enough))
    rw [stringBytes_cons] at small wide
    rw [more, List.length_cons] at enough
    rw [List.length_cons, show ptrs + 8 * (rest.length + 1) = ptrs + 8 + 8 * rest.length by omega] at last
    have ⟨first, string, later⟩ := stored
    have address : load mem ptrs 8 = uva + off := load_word (by omega) first
    have ⟨count, read⟩ := ih later last (by omega) (fun t member => terminated t (List.mem_cons_of_mem s member))
      (show rest.length < fuel' by omega) (by omega)
    rw [more, pointers, address, if_neg (by omega), List.length_cons, List.map_cons, count, read, List.length_cons]
    rw [cstring_of_at string (terminated s List.mem_cons_self) (by omega)]
    exact ⟨rfl, rfl⟩

end Strings

section Layout

/-- What stands on the stack of the user from `rsp` on. -/
structure LaidOut (user : Mem) (rsp uStackTop : Nat) (argv envp : List (List Byte)) : Prop where
  count : At user rsp (bytesOf argv.length 8)
  arguments : Stored user (rsp + (fixedBytes argv envp + pad argv envp)) (rsp + (fixedBytes argv envp + pad argv envp))
    (rsp + 8) 0 argv
  argumentsEnd : At user (rsp + 8 + 8 * argv.length) (bytesOf 0 8)
  environment : Stored user (rsp + (fixedBytes argv envp + pad argv envp)) (rsp + (fixedBytes argv envp + pad argv envp))
    (rsp + 8 + argvBytes argv) (stringBytes argv) envp
  environmentEnd : At user (rsp + 8 + argvBytes argv + 8 * envp.length) (bytesOf 0 8)
  auxv : At user (rsp + 8 + argvBytes argv + envpBytes envp) ((auxWords uStackTop).flatMap fun w => bytesOf w 8)

variable {user mem mem' : Mem} {rsp kStackTop uStackTop : Nat} {argv envp : List (List Byte)}

theorem auxiliary_of_at {a fuel : Nat} (here : At user a ((auxWords uStackTop).flatMap fun w => bytesOf w 8))
    (small : uStackTop < 2 ^ 64) (enough : 3 ≤ fuel) :
    auxiliary user fuel a = [(atPagesz, 4096), (atRandom, uStackTop - 16)] := by
  have ⟨fuel', more⟩ : ∃ fuel', fuel = fuel' + 3 := ⟨fuel - 3, by omega⟩
  have ⟨tag₁, here⟩ := here.append
  have ⟨value₁, here⟩ := here.append
  have ⟨tag₂, here⟩ := here.append
  have ⟨value₂, here⟩ := here.append
  have ⟨last, _⟩ := here.append
  simp only [length_bytesOf, Nat.add_assoc, Nat.reduceAdd] at value₁ tag₂ value₂ last
  have null : load user (a + 32) 8 = atNull := load_word (by decide) last
  rw [more, auxiliary, auxiliary, auxiliary, load_word (by decide) tag₁, load_word (by decide) value₁,
    load_word (by decide) tag₂, show a + 16 + 8 = a + 24 from rfl, load_word (by omega) value₂,
    show a + 16 + 16 = a + 32 from rfl, null, if_neg (by decide), if_neg (by decide), if_pos rfl]

/-- A stack that is laid out is read as it was meant. -/
theorem decode_of_laidOut (laid : LaidOut user rsp uStackTop argv envp) (small : uStackTop < 2 ^ 64)
    (inside : rsp + total argv envp ≤ uStackTop) (terminated : ∀ s ∈ argv ++ envp, 0 ∉ s) {fuel : Nat}
    (enough : total argv envp ≤ fuel) :
    decode user fuel rsp = ⟨argv.length, argv, envp, [(atPagesz, 4096), (atRandom, uStackTop - 16)]⟩ := by
  have whole : total argv envp = fixedBytes argv envp + pad argv envp + (stringBytes argv + stringBytes envp) := rfl
  have fixed : fixedBytes argv envp = 8 + (argv.length + 1) * 8 + (envp.length + 1) * 8 + 48 * 8 := rfl
  have ⟨argc, args⟩ := pointers_of_stored laid.arguments laid.argumentsEnd (by omega) (by omega)
    (fun s member => terminated s (List.mem_append_left _ member)) (show argv.length < fuel by omega)
    (show stringBytes argv ≤ fuel by omega)
  have ⟨envc, env⟩ := pointers_of_stored laid.environment laid.environmentEnd (by omega) (by omega)
    (fun s member => terminated s (List.mem_append_right _ member)) (show envp.length < fuel by omega)
    (show stringBytes envp ≤ fuel by omega)
  have envpAt : rsp + 8 + 8 * (argv.length + 1) = rsp + 8 + argvBytes argv := by
    rw [argvBytes, Nat.mul_comm]
  have auxAt : rsp + 8 + argvBytes argv + 8 * (envp.length + 1) = rsp + 8 + argvBytes argv + envpBytes envp := by
    rw [envpBytes, Nat.mul_comm]
  have count : argv.length < 2 ^ 64 := by omega
  simp only [decode]
  rw [argc, args, envpAt, envc, env, auxAt, load_word count laid.count,
    auxiliary_of_at laid.auxv small (by omega)]

theorem userView_eq {size x : Nat} (mem : Mem) (kernel : size ≤ kStackTop) (inside : size ≤ uStackTop) (low : x ≤ size) :
    userView mem kStackTop uStackTop (uStackTop - size + x) = mem (kStackTop - size + x) := by
  rw [userView]
  congr 1
  omega

theorem setup_spec (kernel : stackBytes ≤ kStackTop) (inside : stackBytes ≤ uStackTop)
    (done : setupUserStackArgs mem kStackTop uStackTop argv envp = some (rsp, mem')) :
    total argv envp ≤ stackBytes ∧ rsp = uStackTop - total argv envp ∧
      LaidOut (userView mem' kStackTop uStackTop) rsp uStackTop argv envp ∧
      ∀ a, a < kStackTop - total argv envp ∨ kStackTop ≤ a → mem' a = mem a := by
  unfold setupUserStackArgs at done
  split at done
  · cases done
  rename_i fits
  have fits := Nat.not_lt.mp fits
  have whole : total argv envp = fixedBytes argv envp + pad argv envp + (stringBytes argv + stringBytes envp) := rfl
  have fixed : fixedBytes argv envp = 8 + argvBytes argv + envpBytes envp + auxvBytes := rfl
  have tableA : argvBytes argv = 8 * argv.length + 8 := Nat.mul_comm (argv.length + 1) 8
  have tableE : envpBytes envp = 8 * envp.length + 8 := Nat.mul_comm (envp.length + 1) 8
  have aux : auxvBytes = 384 := rfl
  dsimp only at done
  generalize hBase : kStackTop - total argv envp = base at done
  generalize hStrings : base + 8 + argvBytes argv + envpBytes envp + auxvBytes + pad argv envp = kStrings at done
  generalize hUva : uStackTop - total argv envp + (fixedBytes argv envp + pad argv envp) = uva at done
  -- each write in turn: what it leaves, and where it does not write
  generalize h₁ : put mem base (List.replicate (total argv envp) 0) = m₁ at done
  have ⟨_, zeroed⟩ := put_spec h₁
  rw [List.length_replicate] at zeroed
  have ⟨arguments, next, frameA⟩ := putStrings_spec kStrings uva m₁
    (show base + 8 + 8 * argv.length ≤ kStrings + 0 by omega)
  generalize putStrings kStrings uva m₁ (base + 8) 0 argv = r₂ at done arguments next frameA
  have ⟨m₂, strOff⟩ := r₂
  dsimp only at done arguments next frameA
  have single : ∀ v : Nat, ([v].flatMap fun w => bytesOf w 8) = bytesOf v 8 := fun v => by simp
  simp only [putWords, single] at done
  generalize h₃ : put m₂ (base + 8 + 8 * argv.length) (bytesOf 0 8) = m₃ at done
  have ⟨argumentsEnd, frame₃⟩ := put_spec h₃
  have ⟨environment, _, frameE⟩ := putStrings_spec kStrings uva m₃
    (show base + 8 + argvBytes argv + 8 * envp.length ≤ kStrings + strOff by omega)
  generalize putStrings kStrings uva m₃ (base + 8 + argvBytes argv) strOff envp = r₄ at done environment frameE
  have ⟨m₄, _⟩ := r₄
  dsimp only at done environment frameE
  generalize h₅ : put m₄ (base + 8 + argvBytes argv + 8 * envp.length) (bytesOf 0 8) = m₅ at done
  have ⟨environmentEnd, frame₅⟩ := put_spec h₅
  have words : ((auxWords uStackTop).flatMap fun w => bytesOf w 8).length = 48 := by
    simp [auxWords]
  generalize h₆ : put m₅ (base + 8 + argvBytes argv + envpBytes envp)
    ((auxWords uStackTop).flatMap fun w => bytesOf w 8) = m₆ at done
  have ⟨vector, frame₆⟩ := put_spec h₆
  rw [words] at frame₆
  generalize h₇ : put m₆ base (bytesOf argv.length 8) = m₇ at done
  have ⟨count, frame₇⟩ := put_spec h₇
  rw [length_bytesOf] at frame₃ frame₅ frame₇
  have ⟨atRsp, atMem⟩ := Prod.mk.inj (Option.some.inj done)
  subst atMem
  refine ⟨fits, atRsp.symm, ?_⟩
  -- the user sees it all at its own addresses
  have seen : ∀ {a k}, a + base = rsp + k → base ≤ k → k ≤ base + total argv envp →
      userView m₇ kStackTop uStackTop a = m₇ k := by
    intro a k moved low high
    have view := userView_eq m₇ (Nat.le_trans fits kernel) (Nat.le_trans fits inside)
      (show k - base ≤ total argv envp by omega)
    rwa [atRsp, hBase, show rsp + (k - base) = a by omega, show base + (k - base) = k by omega] at view
  have strings : rsp + (fixedBytes argv envp + pad argv envp) = uva := by rw [← atRsp, hUva]
  have moved : uva + base = rsp + kStrings := by omega
  have top : base + total argv envp = kStackTop := by omega
  have stop : kStrings + (stringBytes argv + stringBytes envp) = base + total argv envp := by omega
  have room : base + 8 + argvBytes argv + envpBytes envp + 48 ≤ kStrings := by omega
  clear hBase hUva hStrings atRsp whole fixed aux fits kernel inside
  -- what a part holds after its own write it holds at the end
  have last₆ : ∀ a, base + 8 ≤ a → m₇ a = m₆ a := fun a low => frame₇ a (.inr low)
  have last₅ : ∀ a, base + 8 ≤ a → a < base + 8 + argvBytes argv + envpBytes envp ∨ kStrings ≤ a → m₇ a = m₅ a :=
    fun a low out => (last₆ a low).trans (frame₆ a (by omega))
  have last₄ : ∀ a, base + 8 ≤ a → a < base + 8 + argvBytes argv + 8 * envp.length ∨ kStrings ≤ a → m₇ a = m₄ a :=
    fun a low out => (last₅ a low (by omega)).trans (frame₅ a (by omega))
  have last₃ : ∀ a, base + 8 ≤ a → a < base + 8 + argvBytes argv ∨ kStrings ≤ a ∧ a < kStrings + strOff →
      m₇ a = m₃ a :=
    fun a low out => (last₄ a low (by omega)).trans (frameE a (by omega) (by omega))
  have last₂ : ∀ a, base + 8 ≤ a → a < base + 8 + 8 * argv.length ∨ kStrings ≤ a ∧ a < kStrings + strOff →
      m₇ a = m₂ a :=
    fun a low out => (last₃ a low (by omega)).trans (frame₃ a (by omega))
  refine ⟨⟨?_, ?_, ?_, ?_, ?_, ?_⟩, fun a out => ?_⟩
  · apply count.congr
    intro i low
    rw [length_bytesOf] at low
    exact seen (by omega) (by omega) (by omega)
  · rw [strings]
    apply arguments.congr
    · intro i low
      exact (seen (by omega) (by omega) (by omega)).trans (last₂ _ (by omega) (by omega))
    · intro i _ low
      exact (seen (by omega) (by omega) (by omega)).trans (last₂ _ (by omega) (by omega))
  · apply argumentsEnd.congr
    intro i low
    rw [length_bytesOf] at low
    exact (seen (by omega) (by omega) (by omega)).trans (last₃ _ (by omega) (by omega))
  · rw [strings]
    rw [next, Nat.zero_add] at environment
    apply environment.congr
    · intro i low
      exact (seen (by omega) (by omega) (by omega)).trans (last₄ _ (by omega) (by omega))
    · intro i from_ low
      exact (seen (by omega) (by omega) (by omega)).trans (last₄ _ (by omega) (by omega))
  · apply environmentEnd.congr
    intro i low
    rw [length_bytesOf] at low
    exact (seen (by omega) (by omega) (by omega)).trans (last₅ _ (by omega) (by omega))
  · apply vector.congr
    intro i low
    rw [words] at low
    exact (seen (by omega) (by omega) (by omega)).trans (last₆ _ (by omega))
  · rw [frame₇ a (by omega), frame₆ a (by omega), frame₅ a (by omega), frameE a (by omega) (by omega), frame₃ a (by omega),
      frameA a (by omega) (by omega), zeroed a (by omega)]

/-- The parts of the block as the user sees them: the count, the two tables, the auxiliary vector
and the strings, each by its address and its size. -/
def regions (rsp : Nat) (argv envp : List (List Byte)) : List (Nat × Nat) :=
  [(rsp, 8), (rsp + 8, argvBytes argv), (rsp + 8 + argvBytes argv, envpBytes envp),
    (rsp + 8 + argvBytes argv + envpBytes envp, auxvBytes),
    (rsp + (fixedBytes argv envp + pad argv envp), strBytes argv envp)]

theorem regions_apart (rsp : Nat) (argv envp : List (List Byte)) :
    (regions rsp argv envp).Pairwise fun a b => a.1 + a.2 ≤ b.1 := by
  have fixed : fixedBytes argv envp = 8 + argvBytes argv + envpBytes envp + auxvBytes := rfl
  simp only [regions, List.pairwise_cons, List.mem_cons, List.not_mem_nil, or_false, forall_eq_or_imp, forall_eq,
    false_implies, implies_true, and_true, List.Pairwise.nil]
  omega

theorem total_aligned (argv envp : List (List Byte)) : 16 ∣ total argv envp := by
  have whole : total argv envp = fixedBytes argv envp + pad argv envp + strBytes argv envp := rfl
  have filled : pad argv envp = (16 - (fixedBytes argv envp + strBytes argv envp) % 16) % 16 := rfl
  omega

end Layout

/-- `_setup_user_stack_args` succeeds just if the block fits the stack. Then a program that reads
its stack by the System V layout finds its arguments and its environment; the stack pointer is
aligned, the parts of the block do not overlap, and nothing outside the block is written. -/
theorem user_stack_encodes_arguments (mem : Mem) {kStackTop uStackTop : Nat} (argv envp : List (List Byte))
    (kernel : stackBytes ≤ kStackTop) (inside : stackBytes ≤ uStackTop) (small : uStackTop < 2 ^ 64)
    (terminated : ∀ s ∈ argv ++ envp, 0 ∉ s) :
    ((∃ rsp mem', setupUserStackArgs mem kStackTop uStackTop argv envp = some (rsp, mem')) ↔
      total argv envp ≤ stackBytes) ∧
    ∀ rsp mem', setupUserStackArgs mem kStackTop uStackTop argv envp = some (rsp, mem') →
      (∀ fuel, total argv envp ≤ fuel → decode (userView mem' kStackTop uStackTop) fuel rsp =
        ⟨argv.length, argv, envp, [(atPagesz, 4096), (atRandom, uStackTop - 16)]⟩) ∧
      (16 ∣ uStackTop → 16 ∣ rsp) ∧
      (regions rsp argv envp).Pairwise (fun a b => a.1 + a.2 ≤ b.1) ∧
      ∀ a, a < kStackTop - total argv envp ∨ kStackTop ≤ a → mem' a = mem a := by
  constructor
  · constructor
    · intro ⟨rsp, mem', done⟩
      exact (setup_spec kernel inside done).1
    · intro fits
      rw [setupUserStackArgs, if_neg (Nat.not_lt.mpr fits)]
      exact ⟨_, _, rfl⟩
  · intro rsp mem' done
    have ⟨fits, atRsp, laid, frame⟩ := setup_spec kernel inside done
    have aligned := total_aligned argv envp
    refine ⟨fun fuel enough => ?_, fun top => ?_, regions_apart rsp argv envp, frame⟩
    · exact decode_of_laidOut laid small (by omega) terminated enough
    · omega

/-- A program called `a` with the argument `bc`. -/
theorem user_stack_encodes_arguments_two : ∃ rsp mem',
    setupUserStackArgs (fun _ => 0) stackBytes stackBytes [[97], [98, 99]] [] = some (rsp, mem') ∧ 16 ∣ rsp ∧
      (decode (userView mem' stackBytes stackBytes) stackBytes rsp).argv = [[97], [98, 99]] := by
  have ⟨succeeds, all⟩ := user_stack_encodes_arguments (fun _ => 0) [[97], [98, 99]] [] (Nat.le_refl stackBytes)
    (Nat.le_refl stackBytes) (by decide) (by decide)
  have fits : total [[97], [98, 99]] [] ≤ stackBytes := by decide
  have ⟨rsp, mem', done⟩ := succeeds.mpr fits
  have ⟨read, aligned, _⟩ := all rsp mem' done
  exact ⟨rsp, mem', done, aligned (by decide), by rw [read stackBytes fits]⟩

end CreeperKernel.UserStack

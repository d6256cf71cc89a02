import Mathlib.Data.BitVec

namespace CreeperKernel.Format

inductive SizeUnit where
  | gib
  | mib
  | kib
  | b
  deriving DecidableEq, Repr

def SizeUnit.bytes : SizeUnit → Nat
  | gib => 1024 * 1024 * 1024
  | mib => 1024 * 1024
  | kib => 1024
  | b => 1

def SizeUnit.name : SizeUnit → List Char
  | gib => ['G', 'I', 'B']
  | mib => ['M', 'I', 'B']
  | kib => ['K', 'I', 'B']
  | b => ['B']

/-- `"%uGIB"` and so on -/
def group (v : Nat) (unit : SizeUnit) : List Char := Nat.toDigits 10 v ++ unit.name

structure Printing where
  /-- what has been written to `buf` before `p` -/
  text : List Char
  sizeBytes : Nat
  depth : Int

/-- One of the three blocks of `byte_nb_simplify`; an error is a `return` inside of it. -/
def unitBlock (s : Printing) (unit : SizeUnit) : Except (List Char) Printing :=
  if unit.bytes ≤ s.sizeBytes then
    let text := s.text ++ group (s.sizeBytes / unit.bytes) unit
    let sizeBytes := s.sizeBytes % unit.bytes
    let depth := s.depth - 1
    if depth < 0 ∨ sizeBytes = 0 then
      if sizeBytes = 0 then .error text else .ok { text := text ++ [' '], sizeBytes, depth }
    else .ok { text := text ++ [' '], sizeBytes, depth }
  else .ok s

/-- The end of `byte_nb_simplify` behind its three blocks. -/
def finish : Except (List Char) Printing → List Char
  | .error text => text
  | .ok s => s.text ++ group s.sizeBytes .b

/-- The string that `byte_nb_simplify` leaves in `buf`, without its terminating zero. -/
def byteNbSimplify (sizeBytes : BitVec 32) (depth : Int) : List Char :=
  finish do
    let s ← unitBlock { text := [], sizeBytes := sizeBytes.toNat, depth } .gib
    let s ← unitBlock s .mib
    unitBlock s .kib

/-- The groups of a number of bytes, from the first of `units` on. -/
def groups (size : Nat) : List SizeUnit → List (Nat × SizeUnit)
  | [] => [(size, .b)]
  | unit :: units =>
    if unit.bytes ≤ size then
      (size / unit.bytes, unit) :: if size % unit.bytes = 0 then [] else groups (size % unit.bytes) units
    else groups size units

def render (g : Nat × SizeUnit) : List Char := group g.1 g.2

theorem groups_ne_nil (size : Nat) (units : List SizeUnit) : groups size units ≠ [] := by
  induction units generalizing size with
  | nil => simp [groups]
  | cons unit units ih =>
    rw [groups]
    split
    · simp
    · exact ih size

/-- The depth stops nothing: whatever it is, all groups are printed. -/
theorem finish_blocks (units : List SizeUnit) (s : Printing) :
    finish (units.foldlM unitBlock s) = s.text ++ [' '].intercalate ((groups s.sizeBytes units).map render) := by
  induction units generalizing s with
  | nil => simp [finish, groups, render, pure, Except.pure]
  | cons unit units ih =>
    rw [List.foldlM_cons, groups]
    by_cases applies : unit.bytes ≤ s.sizeBytes
    · by_cases empty : s.sizeBytes % unit.bytes = 0
      · simp [unitBlock, applies, empty, finish, render, bind, Except.bind]
      · have more : (groups (s.sizeBytes % unit.bytes) units).map render ≠ [] := by
          simp [groups_ne_nil]
        simp [unitBlock, applies, empty, bind, Except.bind, ih, List.intercalate_cons_of_ne_nil more, render]
    · simp [unitBlock, applies, bind, Except.bind, ih]

def units : List SizeUnit := [.gib, .mib, .kib]

theorem byteNbSimplify_eq (sizeBytes : BitVec 32) (depth : Int) :
    byteNbSimplify sizeBytes depth = [' '].intercalate ((groups sizeBytes.toNat units).map render) := by
  have blocks := finish_blocks units { text := [], sizeBytes := sizeBytes.toNat, depth }
  simpa [byteNbSimplify, units] using blocks

theorem blank_not_mem_render (g : Nat × SizeUnit) : ' ' ∉ render g := by
  have letters (unit : SizeUnit) : ' ' ∉ unit.name := by cases unit <;> decide
  rw [render, group, List.mem_append]
  rintro (digit | letter)
  · have := Nat.isDigit_of_mem_toDigits (by decide) (by decide) digit
    exact absurd this (by decide)
  · exact letters g.2 letter

theorem splitOn_byteNbSimplify (sizeBytes : BitVec 32) (depth : Int) :
    (byteNbSimplify sizeBytes depth).splitOn ' ' = (groups sizeBytes.toNat units).map render := by
  rw [byteNbSimplify_eq]
  apply List.splitOn_intercalate
  · intro text member
    obtain ⟨g, _, rfl⟩ := List.mem_map.mp member
    exact blank_not_mem_render g
  · simp [groups_ne_nil]

/-- The number of bytes that a group of a text stands for. -/
def readGroup (text : List Char) : Nat :=
  let name := text.dropWhile Char.isDigit
  Nat.ofDigitChars 10 (text.takeWhile Char.isDigit) 0 *
    (([.gib, .mib, .kib, .b] : List SizeUnit).find? fun unit => unit.name = name).elim 0 SizeUnit.bytes

theorem readGroup_render (g : Nat × SizeUnit) : readGroup (render g) = g.1 * g.2.bytes := by
  have digits : ∀ c ∈ Nat.toDigits 10 g.1, c.isDigit = true := fun c member =>
    Nat.isDigit_of_mem_toDigits (by decide) (by decide) member
  have letters (unit : SizeUnit) : unit.name.takeWhile Char.isDigit = [] ∧ unit.name.dropWhile Char.isDigit = unit.name ∧
      (([.gib, .mib, .kib, .b] : List SizeUnit).find? fun other => other.name = unit.name) = some unit := by
    cases unit <;> decide
  simp only [readGroup, render, group, List.takeWhile_append_of_pos digits, List.dropWhile_append_of_pos digits,
    (letters g.2).1, (letters g.2).2, List.append_nil, Option.elim]
  rw [Nat.ofDigitChars_toDigits (by decide) (by decide)]

theorem sum_groups (size : Nat) (units : List SizeUnit) : ((groups size units).map fun g => g.1 * g.2.bytes).sum = size := by
  induction units generalizing size with
  | nil => simp [groups, SizeUnit.bytes]
  | cons unit units ih =>
    rw [groups]
    split
    · have whole := Nat.div_add_mod' size unit.bytes
      split
      · simp
        omega
      · simp [ih]
        omega
    · exact ih size

/-- The largest unit that is not above `size`. -/
def largestUnit (size : Nat) : SizeUnit := (units.find? fun unit => unit.bytes ≤ size).getD .b

theorem head_groups (size : Nat) : (groups size units).head? = some (size / (largestUnit size).bytes, largestUnit size) := by
  simp only [units, groups, largestUnit, List.find?]
  grind [SizeUnit.bytes]

theorem largestUnit_value (sizeBytes : BitVec 32) : sizeBytes.toNat / (largestUnit sizeBytes.toNat).bytes < 1024 := by
  have small := sizeBytes.isLt
  simp only [units, largestUnit, List.find?]
  grind [SizeUnit.bytes]

/-- The number of units of which `size` has any. -/
def unitsPresent (size : Nat) : Nat :=
  [size / 1073741824, size / 1048576 % 1024, size / 1024 % 1024, size % 1024].countP (· ≠ 0)

theorem length_groups_cons (size : Nat) {unit : SizeUnit} (units : List SizeUnit) (positive : 0 < unit.bytes) :
    (if size = 0 then 0 else (groups size (unit :: units)).length) = (if size / unit.bytes = 0 then 0 else 1) +
      if size % unit.bytes = 0 then 0 else (groups (size % unit.bytes) units).length := by
  rw [groups]
  by_cases applies : unit.bytes ≤ size
  · have some_ : size / unit.bytes ≠ 0 := (Nat.div_pos applies positive).ne'
    have filled : size ≠ 0 := by omega
    rw [if_neg filled, if_pos applies, if_neg some_, List.length_cons]
    split
    · rfl
    · omega
  · have below : size < unit.bytes := Nat.lt_of_not_le applies
    rw [if_neg applies, Nat.div_eq_of_lt below, Nat.mod_eq_of_lt below, if_pos rfl, Nat.zero_add]

theorem length_groups (size : Nat) : (groups size units).length = max 1 (unitsPresent size) := by
  by_cases empty : size = 0
  · rw [empty]
    decide
  · have gibs := length_groups_cons size [.mib, .kib] (show 0 < SizeUnit.gib.bytes by decide)
    have mibs := length_groups_cons (size % SizeUnit.gib.bytes) [.kib] (show 0 < SizeUnit.mib.bytes by decide)
    have kibs := length_groups_cons (size % SizeUnit.gib.bytes % SizeUnit.mib.bytes) [] (show 0 < SizeUnit.kib.bytes by decide)
    have bytes : (groups (size % SizeUnit.gib.bytes % SizeUnit.mib.bytes % SizeUnit.kib.bytes) []).length = 1 := rfl
    have mib : size % 1073741824 / 1048576 = size / 1048576 % 1024 := by omega
    have kib : size % 1073741824 % 1048576 / 1024 = size / 1024 % 1024 := by omega
    have byte : size % 1073741824 % 1048576 % 1024 = size % 1024 := by omega
    rw [if_neg empty, mibs, kibs, bytes] at gibs
    simp only [units, gibs, unitsPresent, SizeUnit.bytes, Nat.reduceMul, mib, kib, byte, List.countP_cons, List.countP_nil,
      decide_not, Bool.not_eq_true', decide_eq_false_iff_not, ite_not]
    clear gibs mibs kibs
    grind

theorem length_group {v : Nat} (unit : SizeUnit) (small : v < 1024) : (group v unit).length ≤ 7 := by
  have digits : (Nat.toDigits 10 v).length ≤ 4 := (Nat.length_toDigits_le_iff (by decide) (by decide)).mpr (by omega)
  have letters : unit.name.length ≤ 3 := by cases unit <;> decide
  rw [group, List.length_append]
  omega

structure Respects (sizeBytes : BitVec 32) (depth : Nat) (text : List Char) : Prop where
  groups : (text.splitOn ' ').length ≤ depth + 1
  first : (text.splitOn ' ').head? =
    some (group (sizeBytes.toNat / (largestUnit sizeBytes.toNat).bytes) (largestUnit sizeBytes.toNat))
  total : 3 ≤ depth → ((text.splitOn ' ').map readGroup).sum = sizeBytes.toNat
  /-- with the terminating zero, in the buffer of `cpu_log_specs` -/
  fits : depth = 0 → text.length + 1 ≤ 8

theorem format_respects_depth_iff (sizeBytes : BitVec 32) (depth : Nat) :
    Respects sizeBytes depth (byteNbSimplify sizeBytes depth) ↔ unitsPresent sizeBytes.toNat ≤ depth + 1 := by
  have texts := splitOn_byteNbSimplify sizeBytes depth
  have count : ((byteNbSimplify sizeBytes depth).splitOn ' ').length = max 1 (unitsPresent sizeBytes.toNat) := by
    rw [texts, List.length_map, length_groups]
  constructor
  · intro respects
    have few := respects.groups
    omega
  · intro few
    refine ⟨by omega, ?_, fun _ => ?_, fun shallow => ?_⟩
    · rw [texts, List.head?_map, head_groups]
      rfl
    · rw [texts, List.map_map]
      have values : readGroup ∘ render = fun g => g.1 * g.2.bytes := funext readGroup_render
      rw [values, sum_groups]
    · have one : (groups sizeBytes.toNat units).length = 1 := by
        rw [length_groups]
        omega
      obtain ⟨g, only⟩ := List.length_eq_one_iff.mp one
      have head := head_groups sizeBytes.toNat
      rw [only, List.head?_cons, Option.some.injEq] at head
      rw [byteNbSimplify_eq, only, List.map_singleton, List.intercalate_singleton, head]
      exact Nat.succ_le_succ (length_group (largestUnit sizeBytes.toNat) (largestUnit_value sizeBytes))

/-- 1034 bytes at depth 0: two groups, in nine bytes. -/
theorem two_groups_at_depth_zero : ¬ Respects 1034 0 (byteNbSimplify 1034 0) ∧
    byteNbSimplify 1034 0 = ['1', 'K', 'I', 'B', ' ', '1', '0', 'B'] := by
  have text : byteNbSimplify 1034 0 = ['1', 'K', 'I', 'B', ' ', '1', '0', 'B'] := by decide
  refine ⟨fun respects => ?_, text⟩
  have fits := respects.fits rfl
  rw [text] at fits
  exact absurd fits (by decide)

end CreeperKernel.Format

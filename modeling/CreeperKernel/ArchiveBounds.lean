import CreeperKernel.Initrd
import CreeperKernel.VfsLookup

namespace CreeperKernel.Initrd

open CreeperKernel.Vfs

/-- The eleven bytes of the size field of a header. -/
def digitsAt (image : List Byte) (header : Nat) : List Byte := (image.drop (header + sizeField)).take 11

/-- What `get_tar_size` makes of the header at `header`. -/
def entrySize (image : List Byte) (header : Nat) : BitVec 32 := getTarSize (digitsAt image header)

def nextHeader (image : List Byte) (header : Nat) : Nat := header + headerSize + stride (entrySize image header)

/-- From `header` on the walk reads bytes of the module only, and comes to a zero byte after these headers. -/
inductive Walk (image : List Byte) : Nat → List Nat → Prop
  | stop {header : Nat} (zero : image[header]? = some 0) : Walk image header []
  | entry {header : Nat} {rest : List Nat} {first : Byte} (here : image[header]? = some first) (named : first ≠ 0)
      (inside : header + sizeField + 11 ≤ image.length) (later : Walk image (nextHeader image header) rest) :
      Walk image header (header :: rest)

/-- `parse_tar` ends and reads bytes of the module only, and the headers and the data it records lie in it. -/
def StaysInside (fs : Fs) (image : List Byte) : Prop :=
  ∃ count headers fs', parseTar fs image = .ok (count, headers, fs') ∧ ∀ header ∈ headers,
    header + headerSize ≤ image.length ∧ header + headerSize + (entrySize image header).toNat ≤ image.length

section Walks

variable {image : List Byte} {header count fuel : Nat} {headers : List Nat}

theorem byteAt_eq_ok {b : Byte} : byteAt image header = .ok b ↔ image[header]? = some b := deref_eq_ok

theorem sizeDigits_eq_ok {digits : List Byte} : sizeDigits image header = .ok digits ↔
    header + sizeField + 11 ≤ image.length ∧ digits = digitsAt image header := by
  unfold sizeDigits
  split
  · rename_i inside
    rw [and_iff_right inside, Except.ok.injEq]
    exact eq_comm
  · rename_i outside
    exact iff_of_false (fun wrong => nomatch wrong) fun ⟨inside, _⟩ => outside inside

theorem Walk.length_lt (walk : Walk image header headers) : header + headerSize * headers.length < image.length := by
  induction walk with
  | stop zero =>
    have ⟨inside, _⟩ := List.getElem?_eq_some_iff.mp zero
    simpa using inside
  | entry _ _ _ _ ih =>
    simp only [nextHeader, headerSize, List.length_cons] at ih ⊢
    omega

theorem Walk.next_lt (walk : Walk image header headers) : ∀ h ∈ headers, nextHeader image h < image.length := by
  induction walk with
  | stop zero => exact fun _ none_ => absurd none_ List.not_mem_nil
  | entry here named inside later ih =>
    intro h member
    rcases List.mem_cons.mp member with same | member
    · have bound := later.length_lt
      rw [same]
      omega
    · exact ih h member

theorem walk_of_count (counted : countTarEntries image fuel header = .ok count) :
    ∃ headers, Walk image header headers ∧ headers.length = count := by
  induction fuel generalizing header count with
  | zero => cases counted
  | succ fuel ih =>
    have ⟨first, read, counted⟩ := bind_eq_ok.mp counted
    have here := byteAt_eq_ok.mp read
    split at counted
    · rename_i zero
      cases counted
      rw [zero] at here
      exact ⟨[], .stop here, rfl⟩
    · rename_i named
      have ⟨digits, field, counted⟩ := bind_eq_ok.mp counted
      have ⟨rest, later, counted⟩ := bind_eq_ok.mp counted
      have ⟨inside, same⟩ := sizeDigits_eq_ok.mp field
      cases counted
      rw [same] at later
      have ⟨headers, walk, length⟩ := ih later
      exact ⟨header :: headers, .entry here named inside walk, congrArg (· + 1) length⟩

theorem Walk.counted (walk : Walk image header headers) (enough : headers.length < fuel) :
    countTarEntries image fuel header = .ok headers.length := by
  induction walk generalizing fuel with
  | stop zero =>
    have ⟨rounds, same⟩ : ∃ rounds, fuel = rounds + 1 := ⟨fuel - 1, by omega⟩
    have read := byteAt_eq_ok.mpr zero
    simp only [same, countTarEntries, read, bind, Except.bind, if_true, List.length_nil]
  | @entry header rest first here named inside later ih =>
    have ⟨rounds, same⟩ : ∃ rounds, fuel = rounds + 1 := ⟨fuel - 1, by omega⟩
    have read := byteAt_eq_ok.mpr here
    have field := sizeDigits_eq_ok.mpr ⟨inside, rfl⟩
    have after : countTarEntries image rounds (header + headerSize + stride (getTarSize (digitsAt image header))) =
        .ok rest.length := ih (by simp only [List.length_cons] at enough; omega)
    simp only [same, countTarEntries, read, named, field, after, bind, Except.bind, if_false, List.length_cons]

theorem Walk.recorded (walk : Walk image header headers) : tarHeaders image headers.length header = .ok headers := by
  induction walk with
  | stop zero => rfl
  | @entry header rest first here named inside later ih =>
    have read := byteAt_eq_ok.mpr here
    have field := sizeDigits_eq_ok.mpr ⟨inside, rfl⟩
    have after : tarHeaders image rest.length (header + headerSize + stride (getTarSize (digitsAt image header))) =
        .ok rest := ih
    simp only [List.length_cons, tarHeaders, read, named, field, after, bind, Except.bind, if_false]

end Walks

section Parsing

variable {fs : Fs} {image : List Byte} {all : List Nat}

/-- Along a walk in the module `parse_tar` records all its headers, if there is memory for their table. -/
theorem Walk.parseTar_eq (walk : Walk image 0 all) : parseTar fs image =
    if all.length = 0 then .ok (0, [], fs) else
    match fs.kmalloc with
    | (none, fs) => .ok (-eNomem, [], fs)
    | (some _, fs) => .ok (all.length, all, fs) := by
  have room := walk.length_lt
  have counted : countTarEntries image (image.length + 1) 0 = .ok all.length := by
    apply walk.counted
    simp only [headerSize] at room
    omega
  rcases table : fs.kmalloc with ⟨pointers, fs'⟩
  cases pointers with
  | none => simp [parseTar, counted, table, bind, Except.bind]
  | some pointers => simp [parseTar, counted, table, walk.recorded, bind, Except.bind]

theorem walk_of_parseTar {result : Int × List Nat × Fs} (done : parseTar fs image = .ok result) :
    ∃ all, Walk image 0 all := by
  have ⟨total, counted, _⟩ := bind_eq_ok.mp done
  have ⟨all, walk, _⟩ := walk_of_count counted
  exact ⟨all, walk⟩

theorem le_stride {size : BitVec 32} (small : size.toNat + 511 < 2 ^ 32) : size.toNat ≤ stride size := by
  have more : (511 : BitVec 32).toNat = 511 := rfl
  have block : (512 : BitVec 32).toNat = 512 := rfl
  simp only [stride, BitVec.toNat_mul, BitVec.toNat_udiv, BitVec.toNat_add, more, block]
  omega

theorem Walk.header_inside (walk : Walk image 0 all) : ∀ h ∈ all, h + headerSize ≤ image.length := by
  intro h member
  have next := walk.next_lt h member
  simp only [nextHeader] at next
  omega

/-- `parse_tar` stays in the module just if its walk from header to header comes to a zero byte in it, and no size on the
way wraps when it is rounded up, unless the module holds even so many bytes. The length of the module is not looked at. -/
theorem archive_stays_inside_iff (fs : Fs) (image : List Byte) : StaysInside fs image ↔ ∃ all, Walk image 0 all ∧
    (fs.kmalloc.1 = none ∨ ∀ h ∈ all, (entrySize image h).toNat + 511 < 2 ^ 32 ∨
      h + headerSize + (entrySize image h).toNat ≤ image.length) := by
  constructor
  · intro ⟨count, headers, fs', done, inside⟩
    have ⟨all, walk⟩ := walk_of_parseTar done
    refine ⟨all, walk, ?_⟩
    rw [walk.parseTar_eq] at done
    split at done
    · rename_i empty
      rw [List.length_eq_zero_iff.mp empty]
      exact .inr fun _ none_ => absurd none_ List.not_mem_nil
    · split at done
      · rename_i failed
        rw [failed]
        exact .inl rfl
      · cases done
        exact .inr fun h member => .inr (inside h member).2
  · intro ⟨all, walk, fits⟩
    unfold StaysInside
    rw [walk.parseTar_eq]
    split
    · exact ⟨_, _, _, rfl, fun _ none_ => absurd none_ List.not_mem_nil⟩
    · split
      · exact ⟨_, _, _, rfl, fun _ none_ => absurd none_ List.not_mem_nil⟩
      · rename_i table got
        refine ⟨_, _, _, rfl, fun h member => ⟨walk.header_inside h member, ?_⟩⟩
        have ready : fs.kmalloc.1 ≠ none := by
          rw [got]
          exact fun wrong => nomatch wrong
        rcases fits.resolve_left ready h member with small | large
        · have data := le_stride small
          have next := walk.next_lt h member
          simp only [nextHeader] at next
          omega
        · exact large

end Parsing

/-- A module that is cut off after one byte: the size field of its only header is read behind it. -/
theorem truncated_archive_read_outside : parseTar tmpRoot [0x61] = .error .dangling ∧ ¬ StaysInside tmpRoot [0x61] := by
  have stops : parseTar tmpRoot [0x61] = .error .dangling := rfl
  refine ⟨stops, fun ⟨_, _, _, done, _⟩ => ?_⟩
  rw [stops] at done
  cases done

end CreeperKernel.Initrd

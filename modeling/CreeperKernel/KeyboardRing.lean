import CreeperKernel.Transitions
import Mathlib.Data.BitVec

namespace CreeperKernel.Keyboard

open Transitions (Run)

abbrev Byte := BitVec 8

def inputCharBufferSize : Nat := 256

/-- `(index + 1) % INPUT_CHAR_BUFFER_SIZE`, as the handler and the reader compute it. -/
def next (index : BitVec 16) : BitVec 16 := BitVec.ofNat 16 ((index.toNat + 1) % inputCharBufferSize)

/-- Where `ps2_keyboard_handler` is: not running, with the character it has got, about to store
it, or about to advance `buf_tail`. -/
inductive Handler where
  | idle
  | got (ch : Byte)
  | storing (ch : Byte) (nextTail : BitVec 16)
  | stored (ch : Byte) (nextTail : BitVec 16)

/-- Where `ps2_kbd_read` is: not called, in its loops with the bytes in `out`, about to load a
character, or about to advance `buf_head`. -/
inductive Reader where
  | idle
  | polling (out : List Byte) (count : Nat)
  | loading (out : List Byte) (count : Nat)
  | loaded (out : List Byte) (count : Nat) (ch : Byte)

/-- The bytes the call under way has put into its buffer. -/
def Reader.out : Reader → List Byte
  | .idle => []
  | .polling out _ | .loading out _ | .loaded out _ _ => out

structure Ring where
  inputCharBuffer : Nat → Byte
  bufHead : BitVec 16
  bufTail : BitVec 16
  handler : Handler
  reader : Reader
  /-- the characters put into the ring so far -/
  accepted : List Byte
  /-- what the calls that are over have returned -/
  returned : List Byte

namespace Ring

def delivered (s : Ring) : List Byte := s.returned ++ s.reader.out

/-- How many cells are from `buf_head` to `buf_tail`. -/
def waiting (s : Ring) : Nat := (s.bufTail.toNat + inputCharBufferSize - s.bufHead.toNat) % inputCharBufferSize

def cell (s : Ring) (i : Nat) : Nat := (s.bufHead.toNat + i) % inputCharBufferSize

def unread (s : Ring) : List Byte := (List.range s.waiting).map fun i => s.inputCharBuffer (s.cell i)

end Ring

def boot : Ring where
  inputCharBuffer _ := 0
  bufHead := 0
  bufTail := 0
  handler := .idle
  reader := .idle
  accepted := []
  returned := []

inductive Label where
  | interrupt (ch : Byte)
  | nothing
  | room
  | drop
  | store
  | advanceTail
  | call (count : Nat)
  | empty
  | found
  | load
  | advanceHead
  | return_

/-- One access to the ring by the handler or by the reader. -/
inductive Step (s : Ring) : Label → Ring → Prop where
  | interrupt (ch : Byte) (at' : s.handler = .idle) : Step s (.interrupt ch) { s with handler := .got ch }
  | nothing (at' : s.handler = .got 0) : Step s .nothing { s with handler := .idle }
  | room {ch : Byte} (at' : s.handler = .got ch) (some' : ch ≠ 0) (free : next s.bufTail ≠ s.bufHead) :
      Step s .room { s with handler := .storing ch (next s.bufTail) }
  | drop {ch : Byte} (at' : s.handler = .got ch) (some' : ch ≠ 0) (full : next s.bufTail = s.bufHead) :
      Step s .drop { s with handler := .idle }
  | store {ch : Byte} {nextTail : BitVec 16} (at' : s.handler = .storing ch nextTail) :
      Step s .store { s with
        inputCharBuffer := Function.update s.inputCharBuffer s.bufTail.toNat ch
        handler := .stored ch nextTail }
  | advanceTail {ch : Byte} {nextTail : BitVec 16} (at' : s.handler = .stored ch nextTail) :
      Step s .advanceTail { s with bufTail := nextTail, handler := .idle, accepted := s.accepted ++ [ch] }
  | call (count : Nat) (at' : s.reader = .idle) : Step s (.call count) { s with reader := .polling [] count }
  | empty {out : List Byte} {count : Nat} (at' : s.reader = .polling out count) (more : out.length < count)
      (none' : s.bufHead = s.bufTail) : Step s .empty s
  | found {out : List Byte} {count : Nat} (at' : s.reader = .polling out count) (more : out.length < count)
      (some' : s.bufHead ≠ s.bufTail) : Step s .found { s with reader := .loading out count }
  | load {out : List Byte} {count : Nat} (at' : s.reader = .loading out count) :
      Step s .load { s with reader := .loaded out count (s.inputCharBuffer s.bufHead.toNat) }
  -- a zero would not leave the inner loop
  | advanceHead {out : List Byte} {count : Nat} {ch : Byte} (at' : s.reader = .loaded out count ch) :
      Step s .advanceHead { s with
        bufHead := next s.bufHead
        reader := .polling (if ch = 0 then out else out ++ [ch]) count }
  | return_ {out : List Byte} {count : Nat} (at' : s.reader = .polling out count) (all : count ≤ out.length) :
      Step s .return_ { s with reader := .idle, returned := s.returned ++ out }

/-- What the handler has decided: there is room for the character it holds, and once stored it is
in the cell behind the others. -/
def HandlerReady (s : Ring) : Prop :=
  match s.handler with
  | .idle | .got _ => True
  | .storing ch nextTail => ch ≠ 0 ∧ nextTail = next s.bufTail ∧ s.accepted.length < s.delivered.length + 255
  | .stored ch nextTail => ch ≠ 0 ∧ nextTail = next s.bufTail ∧ s.accepted.length < s.delivered.length + 255 ∧
      s.inputCharBuffer s.bufTail.toNat = ch

/-- What the reader has seen: there is a character for it, and once loaded it is the next one. -/
def ReaderReady (s : Ring) : Prop :=
  match s.reader with
  | .idle | .polling _ _ => True
  | .loading _ _ => s.delivered.length < s.accepted.length
  | .loaded _ _ ch => s.accepted[s.delivered.length]? = some ch

/-- The indices count the characters accepted and delivered, and the cells between them hold the
characters not yet delivered. -/
structure Fifo (s : Ring) : Prop where
  head : s.bufHead.toNat = s.delivered.length % inputCharBufferSize
  tail : s.bufTail.toNat = s.accepted.length % inputCharBufferSize
  order : s.delivered <+: s.accepted
  fits : s.accepted.length ≤ s.delivered.length + 255
  cells : ∀ k, s.delivered.length ≤ k → k < s.accepted.length →
    s.accepted[k]? = some (s.inputCharBuffer (k % inputCharBufferSize))
  nonzero : 0 ∉ s.accepted
  handler : HandlerReady s
  reader : ReaderReady s

theorem toNat_next (index : BitVec 16) : (next index).toNat = (index.toNat + 1) % inputCharBufferSize := by
  have small : (index.toNat + 1) % inputCharBufferSize < 2 ^ 16 :=
    Nat.lt_trans (Nat.mod_lt _ (by decide)) (by decide)
  rw [next, BitVec.toNat_ofNat, Nat.mod_eq_of_lt small]

theorem toNat_next_of_count {index : BitVec 16} {n : Nat} (counts : index.toNat = n % inputCharBufferSize) :
    (next index).toNat = (n + 1) % inputCharBufferSize := by
  rw [toNat_next, counts, Nat.mod_add_mod]

namespace Fifo

variable {s : Ring}

theorem below (fifo : Fifo s) : s.delivered.length ≤ s.accepted.length := fifo.order.length_le

/-- The ring is full for the handler just when 255 characters are not delivered. -/
theorem next_eq_head_iff (fifo : Fifo s) : next s.bufTail = s.bufHead ↔ s.accepted.length = s.delivered.length + 255 := by
  have below := fifo.below
  have fits := fifo.fits
  rw [← BitVec.toNat_inj, toNat_next_of_count fifo.tail, fifo.head]
  simp only [inputCharBufferSize]
  omega

/-- It is empty for the reader just when all characters are delivered. -/
theorem head_eq_tail_iff (fifo : Fifo s) : s.bufHead = s.bufTail ↔ s.delivered.length = s.accepted.length := by
  have below := fifo.below
  have fits := fifo.fits
  rw [← BitVec.toNat_inj, fifo.head, fifo.tail]
  simp only [inputCharBufferSize]
  omega

/-- The cell at `buf_tail` holds no character that is still to be delivered. -/
theorem tail_free (fifo : Fifo s) {k : Nat} (from' : s.delivered.length ≤ k) (before : k < s.accepted.length) :
    k % inputCharBufferSize ≠ s.bufTail.toNat := by
  have fits := fifo.fits
  rw [fifo.tail]
  simp only [inputCharBufferSize]
  omega

theorem room {ch : Byte} (fifo : Fifo s) (some' : ch ≠ 0) (free : next s.bufTail ≠ s.bufHead) :
    Fifo { s with handler := .storing ch (next s.bufTail) } := by
  have below : s.accepted.length < s.delivered.length + 255 := by
    have fits := fifo.fits
    have other := mt fifo.next_eq_head_iff.mpr free
    omega
  exact { fifo with handler := ⟨some', rfl, below⟩ }

theorem store {ch : Byte} {nextTail : BitVec 16} (fifo : Fifo s) (at' : s.handler = .storing ch nextTail) :
    Fifo { s with
      inputCharBuffer := Function.update s.inputCharBuffer s.bufTail.toNat ch
      handler := .stored ch nextTail } := by
  have ready := fifo.handler
  simp only [HandlerReady, at'] at ready
  have cells : ∀ k, s.delivered.length ≤ k → k < s.accepted.length →
      s.accepted[k]? = some (Function.update s.inputCharBuffer s.bufTail.toNat ch (k % inputCharBufferSize)) := by
    intro k from' before
    rw [Function.update_of_ne (fifo.tail_free from' before)]
    exact fifo.cells k from' before
  exact { fifo with
    cells := cells
    handler := ⟨ready.1, ready.2.1, ready.2.2, Function.update_self ..⟩ }

theorem advanceTail {ch : Byte} {nextTail : BitVec 16} (fifo : Fifo s) (at' : s.handler = .stored ch nextTail) :
    Fifo { s with bufTail := nextTail, handler := .idle, accepted := s.accepted ++ [ch] } := by
  have ready := fifo.handler
  simp only [HandlerReady, at'] at ready
  obtain ⟨some', rfl, free, held⟩ := ready
  have length : (s.accepted ++ [ch]).length = s.accepted.length + 1 := by
    rw [List.length_append, List.length_singleton]
  have kept {k : Nat} (before : k < s.accepted.length) : (s.accepted ++ [ch])[k]? = s.accepted[k]? :=
    List.getElem?_append_left before
  constructor
  · exact fifo.head
  · show (next s.bufTail).toNat = (s.accepted ++ [ch]).length % inputCharBufferSize
    rw [toNat_next_of_count fifo.tail, length]
  · exact fifo.order.trans (List.prefix_append ..)
  · show (s.accepted ++ [ch]).length ≤ s.delivered.length + 255
    omega
  · intro k from' before
    change k < (s.accepted ++ [ch]).length at before
    rw [length] at before
    show (s.accepted ++ [ch])[k]? = some (s.inputCharBuffer (k % inputCharBufferSize))
    by_cases last : k = s.accepted.length
    · rw [last, List.getElem?_concat_length, ← fifo.tail, held]
    · have before : k < s.accepted.length := by omega
      rw [kept before]
      exact fifo.cells k from' before
  · show 0 ∉ s.accepted ++ [ch]
    rw [List.mem_append, List.mem_singleton]
    intro zero
    rcases zero with zero | zero
    · exact fifo.nonzero zero
    · exact some' zero.symm
  · trivial
  · have reader := fifo.reader
    unfold ReaderReady at reader ⊢
    show match s.reader with
      | .idle | .polling _ _ => True
      | .loading _ _ => s.delivered.length < (s.accepted ++ [ch]).length
      | .loaded _ _ ch' => (s.accepted ++ [ch])[s.delivered.length]? = some ch'
    cases at' : s.reader with
    | idle | polling => trivial
    | loading =>
      rw [at'] at reader
      dsimp only at reader ⊢
      omega
    | loaded =>
      rw [at'] at reader
      dsimp only at reader ⊢
      rw [kept (List.getElem?_eq_some_iff.mp reader).1]
      exact reader

theorem readerStep {reader : Reader} {returned : List Byte} (fifo : Fifo s) (same : returned ++ reader.out = s.delivered)
    (ready : ReaderReady { s with reader, returned }) : Fifo { s with reader, returned } := by
  have same : ({ s with reader, returned } : Ring).delivered = s.delivered := same
  have handler := fifo.handler
  constructor
  · rw [same]
    exact fifo.head
  · exact fifo.tail
  · rw [same]
    exact fifo.order
  · rw [same]
    exact fifo.fits
  · rw [same]
    exact fifo.cells
  · exact fifo.nonzero
  · unfold HandlerReady at handler ⊢
    rw [same]
    exact handler
  · exact ready

theorem found {out : List Byte} {count : Nat} (fifo : Fifo s) (at' : s.reader = .polling out count)
    (some' : s.bufHead ≠ s.bufTail) : Fifo { s with reader := .loading out count } := by
  have same : s.returned ++ (Reader.loading out count).out = s.delivered := by
    simp only [Ring.delivered, at', Reader.out]
  apply fifo.readerStep same
  show (s.returned ++ (Reader.loading out count).out).length < s.accepted.length
  have below := fifo.below
  have other := mt fifo.head_eq_tail_iff.mpr some'
  rw [same]
  omega

theorem load {out : List Byte} {count : Nat} (fifo : Fifo s) (at' : s.reader = .loading out count) :
    Fifo { s with reader := .loaded out count (s.inputCharBuffer s.bufHead.toNat) } := by
  have same : s.returned ++ (Reader.loaded out count (s.inputCharBuffer s.bufHead.toNat)).out = s.delivered := by
    simp only [Ring.delivered, at', Reader.out]
  have ready := fifo.reader
  simp only [ReaderReady, at'] at ready
  apply fifo.readerStep same
  show s.accepted[(s.returned ++ _).length]? = some (s.inputCharBuffer s.bufHead.toNat)
  rw [same, fifo.cells _ (Nat.le_refl _) ready, fifo.head]

theorem advanceHead {out : List Byte} {count : Nat} {ch : Byte} (fifo : Fifo s) (at' : s.reader = .loaded out count ch) :
    Fifo { s with
      bufHead := next s.bufHead
      reader := .polling (if ch = 0 then out else out ++ [ch]) count } := by
  have ready := fifo.reader
  simp only [ReaderReady, at'] at ready
  obtain ⟨before, value⟩ := List.getElem?_eq_some_iff.mp ready
  have some' : ch ≠ 0 := by
    intro zero
    rw [zero] at value
    exact fifo.nonzero (value ▸ List.getElem_mem before)
  rw [if_neg some']
  have more : s.returned ++ (Reader.polling (out ++ [ch]) count).out = s.delivered ++ [ch] := by
    simp only [Ring.delivered, at', Reader.out, List.append_assoc]
  have more : ({ s with bufHead := next s.bufHead, reader := .polling (out ++ [ch]) count } : Ring).delivered =
      s.delivered ++ [ch] := more
  have length : (s.delivered ++ [ch]).length = s.delivered.length + 1 := by
    rw [List.length_append, List.length_singleton]
  have handler := fifo.handler
  constructor
  · rw [more, length]
    exact toNat_next_of_count fifo.head
  · exact fifo.tail
  · rw [more]
    obtain ⟨rest, split⟩ := fifo.order
    rw [← split, List.getElem?_append_right (Nat.le_refl _), Nat.sub_self] at ready
    cases rest with
    | nil => cases ready
    | cons first rest =>
      cases ready
      refine ⟨rest, ?_⟩
      rw [List.append_assoc]
      exact split
  · rw [more, length]
    have fits := fifo.fits
    show s.accepted.length ≤ _
    omega
  · rw [more, length]
    intro k from' inside
    exact fifo.cells k (by omega) inside
  · exact fifo.nonzero
  · unfold HandlerReady at handler ⊢
    rw [more, length]
    show match s.handler with
      | .idle | .got _ => True
      | .storing ch nextTail => ch ≠ 0 ∧ nextTail = next s.bufTail ∧ s.accepted.length < s.delivered.length + 1 + 255
      | .stored ch nextTail => ch ≠ 0 ∧ nextTail = next s.bufTail ∧ s.accepted.length < s.delivered.length + 1 + 255 ∧
          s.inputCharBuffer s.bufTail.toNat = ch
    cases at' : s.handler with
    | idle | got => trivial
    | storing ch nextTail =>
      rw [at'] at handler
      exact ⟨handler.1, handler.2.1, by have := handler.2.2; omega⟩
    | stored ch nextTail =>
      rw [at'] at handler
      exact ⟨handler.1, handler.2.1, by have := handler.2.2.1; omega, handler.2.2.2⟩
  · trivial

theorem boot : Fifo boot := by
  constructor
  · rfl
  · rfl
  · exact List.prefix_refl []
  · decide
  · intro k _ before
    cases before
  · exact List.not_mem_nil
  · trivial
  · trivial

theorem step {label : Label} {s' : Ring} (fifo : Fifo s) (step : Step s label s') : Fifo s' := by
  cases step with
  | interrupt ch at' => exact { fifo with handler := trivial }
  | nothing at' => exact { fifo with handler := trivial }
  | room at' some' free => exact fifo.room some' free
  | drop at' some' full => exact { fifo with handler := trivial }
  | store at' => exact fifo.store at'
  | advanceTail at' => exact fifo.advanceTail at'
  | call count at' =>
    refine fifo.readerStep ?_ ?_
    · simp only [Ring.delivered, at', Reader.out]
    · trivial
  | empty at' more none' => exact fifo
  | found at' more some' => exact fifo.found at' some'
  | load at' => exact fifo.load at'
  | advanceHead at' => exact fifo.advanceHead at'
  | return_ at' all =>
    refine fifo.readerStep ?_ ?_
    · simp only [Ring.delivered, at', Reader.out, List.append_nil]
    · trivial

/-- The cells between the indices are the characters still to be delivered. -/
theorem waiting_eq (fifo : Fifo s) : s.waiting = s.accepted.length - s.delivered.length := by
  have below := fifo.below
  have fits := fifo.fits
  simp only [Ring.waiting, fifo.head, fifo.tail, inputCharBufferSize]
  omega

theorem cell_eq (fifo : Fifo s) (i : Nat) : s.cell i = (s.delivered.length + i) % inputCharBufferSize := by
  rw [Ring.cell, fifo.head, Nat.mod_add_mod]

theorem unread_length (s : Ring) : s.unread.length = s.waiting := by
  rw [Ring.unread, List.length_map, List.length_range]

theorem unread_eq (fifo : Fifo s) : s.unread = s.accepted.drop s.delivered.length := by
  have below := fifo.below
  apply List.ext_getElem?
  intro i
  rw [List.getElem?_drop, Ring.unread, List.getElem?_map]
  by_cases inside : i < s.waiting
  · have before : s.delivered.length + i < s.accepted.length := by
      rw [fifo.waiting_eq] at inside
      omega
    rw [List.getElem?_range inside, Option.map_some, fifo.cells _ (Nat.le_add_right ..) before, fifo.cell_eq]
  · have outside : s.accepted.length ≤ s.delivered.length + i := by
      rw [fifo.waiting_eq] at inside
      omega
    rw [List.getElem?_eq_none (by rw [List.length_range]; omega), List.getElem?_eq_none outside]
    rfl

theorem delivered_append_unread (fifo : Fifo s) : s.delivered ++ s.unread = s.accepted := by
  obtain ⟨rest, split⟩ := fifo.order
  rw [fifo.unread_eq, ← split, List.drop_left]

/-- No step writes to a cell that holds a character still to be delivered. -/
theorem step_keeps_unread {label : Label} {s' : Ring} (fifo : Fifo s) (step : Step s label s') {i : Nat}
    (inside : i < s.waiting) : s'.inputCharBuffer (s.cell i) = s.inputCharBuffer (s.cell i) := by
  cases step with
  | store at' =>
    apply Function.update_of_ne
    rw [fifo.waiting_eq] at inside
    rw [fifo.cell_eq]
    exact fifo.tail_free (Nat.le_add_right ..) (by omega)
  | _ => rfl

end Fifo

/-- In every interleaving of the handler with the reader, access by access, the indices stay in
the buffer, what the reader has got and what the ring holds are together the characters accepted,
in their order, a character is dropped only when 255 are unread, and no unread character is
overwritten. -/
theorem keyboard_ring_lossless (labels : List Label) (s : Ring) (run : Run Step boot labels s) :
    s.bufHead.toNat < inputCharBufferSize ∧ s.bufTail.toNat < inputCharBufferSize ∧
      s.delivered ++ s.unread = s.accepted ∧ (∀ s', Step s .drop s' → s.unread.length = 255) ∧
      ∀ label s', Step s label s' →
        ∀ i, i < s.unread.length → s'.inputCharBuffer (s.cell i) = s.inputCharBuffer (s.cell i) := by
  have fifo : Fifo s := run.invariant Fifo (fun _ _ _ fifo step => fifo.step step) .boot
  refine ⟨?_, ?_, fifo.delivered_append_unread, ?_, ?_⟩
  · rw [fifo.head]
    exact Nat.mod_lt _ (by decide)
  · rw [fifo.tail]
    exact Nat.mod_lt _ (by decide)
  · intro s' step
    cases step with
    | drop at' some' full =>
      have all := fifo.next_eq_head_iff.mp full
      rw [Fifo.unread_length, fifo.waiting_eq]
      omega
  · intro label s' step i inside
    rw [Fifo.unread_length] at inside
    exact fifo.step_keeps_unread step inside

/-- Two characters arrive, the first while a call for one byte waits for it. -/
def twoCharacters : List Label :=
  [.call 1, .interrupt 0x61, .empty, .room, .store, .advanceTail, .interrupt 0x62, .found, .room, .load, .store, .advanceTail]

theorem keyboard_ring_lossless_two : ∃ s, Run Step boot twoCharacters s ∧ s.delivered ++ s.unread = [0x61, 0x62] := by
  have run : Run Step boot twoCharacters _ :=
    .cons (.call 1 rfl) <| .cons (.interrupt 0x61 rfl) <| .cons (.empty rfl (by decide) rfl) <|
      .cons (.room rfl (by decide) (by decide)) <| .cons (.store rfl) <| .cons (.advanceTail rfl) <|
      .cons (.interrupt 0x62 rfl) <| .cons (.found rfl (by decide) (by decide)) <|
      .cons (.room rfl (by decide) (by decide)) <| .cons (.load rfl) <| .cons (.store rfl) <| .single (.advanceTail rfl)
  exact ⟨_, run, (keyboard_ring_lossless _ _ run).2.2.1⟩

end CreeperKernel.Keyboard

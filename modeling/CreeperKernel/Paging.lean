import Mathlib.Algebra.BigOperators.Group.List.Basic
import Mathlib.Algebra.GroupWithZero.Nat

/- Handing out a list in pages of bounded size. -/
namespace CreeperKernel.Paging

variable {α : Type*} (size : α → Nat)

/-- The items from the front of a list that fit into `room` together. -/
def page : Nat → List α → List α
  | _, [] => []
  | room, x :: rest => if size x ≤ room then x :: page (room - size x) rest else []

/-- Page after page, each from where the one before it has stopped. -/
def pages : List Nat → List α → List (List α)
  | [], _ => []
  | room :: rooms, items => page size room items :: pages rooms (items.drop (page size room items).length)

theorem page_append_drop (room : Nat) (items : List α) :
    page size room items ++ items.drop (page size room items).length = items := by
  induction items generalizing room with
  | nil => rfl
  | cons x rest ih =>
    rw [page]
    split
    · rw [List.cons_append, List.length_cons, List.drop_succ_cons, ih]
    · rfl

theorem sum_page_le (room : Nat) (items : List α) : ((page size room items).map size).sum ≤ room := by
  induction items generalizing room with
  | nil => exact Nat.zero_le room
  | cons x rest ih =>
    rw [page]
    split
    · have fits := ih (room - size x)
      rw [List.map_cons, List.sum_cons]
      omega
    · exact Nat.zero_le room

variable {items : List α}

theorem page_eq_nil_iff {room : Nat} (fits : ∀ x ∈ items, size x ≤ room) : page size room items = [] ↔ items = [] := by
  cases items with
  | nil => rfl
  | cons x rest =>
    rw [page, if_pos (fits x List.mem_cons_self)]
    simp only [reduceCtorEq]

theorem flatten_take_pages (rooms : List Nat) (items : List α) (k : Nat) :
    ∃ rest, ((pages size rooms items).take k).flatten ++ rest = items := by
  induction rooms generalizing items k with
  | nil => exact ⟨items, by rw [pages, List.take_nil, List.flatten_nil, List.nil_append]⟩
  | cons room rooms ih =>
    cases k with
    | zero => exact ⟨items, rfl⟩
    | succ k =>
      obtain ⟨rest, whole⟩ := ih (items.drop (page size room items).length) k
      refine ⟨rest, ?_⟩
      rw [pages, List.take_succ_cons, List.flatten_cons, List.append_assoc, whole, page_append_drop]

variable {rooms : List Nat}

theorem pages_eq_nil_iff (fits : ∀ room ∈ rooms, ∀ x ∈ items, size x ≤ room) {k : Nat} {last : List α}
    (at_ : (pages size rooms items)[k]? = some last) : last = [] ↔ ((pages size rooms items).take k).flatten = items := by
  induction rooms generalizing items k with
  | nil => cases at_
  | cons room rooms ih =>
    have first := page_append_drop size room items
    cases k with
    | zero =>
      rw [pages, List.getElem?_cons_zero, Option.some.injEq] at at_
      rw [List.take_zero, List.flatten_nil, ← at_, page_eq_nil_iff size (fits room List.mem_cons_self)]
      exact eq_comm
    | succ k =>
      rw [pages, List.getElem?_cons_succ] at at_
      have later := ih (fun room' member x left =>
        fits room' (List.mem_cons_of_mem room member) x (List.mem_of_mem_drop left)) at_
      rw [later, pages, List.take_succ_cons, List.flatten_cons]
      constructor
      · intro whole
        rw [whole, first]
      · intro whole
        exact List.append_cancel_left (whole.trans first.symm)

theorem flatten_pages (fits : ∀ room ∈ rooms, ∀ x ∈ items, size x ≤ room) (enough : items.length ≤ rooms.length) :
    (pages size rooms items).flatten = items := by
  induction rooms generalizing items with
  | nil =>
    have none_ : items = [] := List.eq_nil_of_length_eq_zero (by simpa using enough)
    rw [none_]
    rfl
  | cons room rooms ih =>
    have first := page_append_drop size room items
    have some_ := page_eq_nil_iff size (fits room List.mem_cons_self)
    rw [pages, List.flatten_cons, ih]
    · exact first
    · exact fun room' member x left => fits room' (List.mem_cons_of_mem room member) x (List.mem_of_mem_drop left)
    · rw [List.length_drop]
      rw [List.length_cons] at enough
      by_cases done : items = []
      · rw [done, List.length_nil]
        omega
      · have positive : 0 < (page size room items).length :=
          List.length_pos_of_ne_nil fun empty => done (some_.mp empty)
        omega

end CreeperKernel.Paging

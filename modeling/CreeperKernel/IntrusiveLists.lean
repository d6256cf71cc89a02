import Mathlib.Data.List.Nodup

/- Lists whose links are embedded in their elements. A node keeps the next node and
the place that points to it, a list head or the `next` field of another node, so
that it can be taken out without a search. -/
namespace CreeperKernel.IntrusiveLists

variable {η ν : Type}

/-- The link fields of all heads and nodes of one kind. -/
structure Links (η ν : Type) where
  first : η → Option ν
  next : ν → Option ν
  pprev : ν → Option (η ⊕ ν)

/-- The field that a `pprev` points to. -/
def Links.get (l : Links η ν) : η ⊕ ν → Option ν
  | .inl h => l.first h
  | .inr n => l.next n

/-- The nodes met from `start` on, if the end comes within `fuel` nodes. -/
def walk (l : Links η ν) : Nat → Option ν → Option (List ν)
  | _, none => some []
  | 0, some _ => none
  | fuel + 1, some n => (walk l fuel (l.next n)).map (n :: ·)

/-- From `slot` on come the nodes `ns`, each pointing back to where it hangs. -/
def Chain (l : Links η ν) : η ⊕ ν → List ν → Prop
  | slot, [] => l.get slot = none
  | slot, n :: ns => l.get slot = some n ∧ l.pprev n = some slot ∧ Chain l (.inr n) ns

/-- Going back from `n` arrives at the head `h` after passing `k` nodes. -/
inductive Owned (l : Links η ν) (h : η) : ν → Nat → Prop where
  | first {n : ν} (here : l.pprev n = some (.inl h)) : Owned l h n 0
  | later {n m : ν} {k : Nat} (here : l.pprev n = some (.inr m)) (rest : Owned l h m k) :
      Owned l h n (k + 1)

variable {l l' : Links η ν} {g h : η} {n : ν} {ns ms : List ν} {slot : η ⊕ ν}

theorem Owned.unique {i j : Nat} (left : Owned l g n i) (right : Owned l h n j) : g = h ∧ i = j := by
  induction left generalizing j with
  | first here =>
    cases right with
    | first there => exact ⟨Sum.inl.inj (Option.some.inj (here.symm.trans there)), rfl⟩
    | later there _ => cases here.symm.trans there
  | later here _ ih =>
    cases right with
    | first there => cases here.symm.trans there
    | later there rest =>
      cases here.symm.trans there
      obtain ⟨same, count⟩ := ih rest
      exact ⟨same, congrArg (· + 1) count⟩

variable {m : ν}

theorem Chain.owned_later {k : Nat} (chain : Chain l (.inr m) ns) (owned : Owned l h m k) :
    ∀ n ∈ ns, ∃ i, k < i ∧ Owned l h n i := by
  induction ns generalizing m k with
  | nil => exact fun n member => absurd member List.not_mem_nil
  | cons x ns ih =>
    obtain ⟨-, back, rest⟩ := chain
    have here : Owned l h x (k + 1) := .later back owned
    intro n member
    rcases List.mem_cons.mp member with rfl | later
    · exact ⟨k + 1, Nat.lt_succ_self k, here⟩
    · obtain ⟨i, above, owner⟩ := ih rest here n later
      exact ⟨i, by omega, owner⟩

theorem Chain.owned (chain : Chain l (.inl h) ns) : ∀ n ∈ ns, ∃ i, Owned l h n i := by
  cases ns with
  | nil => exact fun n member => absurd member List.not_mem_nil
  | cons x ns =>
    obtain ⟨-, back, rest⟩ := chain
    intro n member
    rcases List.mem_cons.mp member with rfl | later
    · exact ⟨0, .first back⟩
    · obtain ⟨i, -, owner⟩ := rest.owned_later (.first back) n later
      exact ⟨i, owner⟩

theorem Chain.apart (left : Chain l (.inl g) ns) (right : Chain l (.inl h) ms) (other : g ≠ h) : ∀ n ∈ ns, n ∉ ms := by
  intro n here there
  obtain ⟨i, first⟩ := left.owned n here
  obtain ⟨j, second⟩ := right.owned n there
  exact other (first.unique second).1

theorem Chain.nodup (chain : Chain l (.inl h) ns) : ns.Nodup := by
  have spread : ∀ (ns : List ν) (m : ν) (k : Nat), Chain l (.inr m) ns → Owned l h m k → ns.Nodup := by
    intro ns
    induction ns with
    | nil => exact fun _ _ _ _ => List.nodup_nil
    | cons x ns ih =>
      intro m k chain owned
      obtain ⟨-, back, rest⟩ := chain
      have here : Owned l h x (k + 1) := .later back owned
      refine List.nodup_cons.mpr ⟨fun again => ?_, ih x (k + 1) rest here⟩
      obtain ⟨i, above, owner⟩ := rest.owned_later here x again
      have same := (here.unique owner).2
      omega
  cases ns with
  | nil => exact List.nodup_nil
  | cons x ns =>
    obtain ⟨-, back, rest⟩ := chain
    refine List.nodup_cons.mpr ⟨fun again => ?_, spread ns x 0 rest (.first back)⟩
    obtain ⟨i, above, owner⟩ := rest.owned_later (.first back) x again
    have same := ((Owned.first back).unique owner).2
    omega

theorem Chain.next_mem (chain : Chain l slot ns) (member : n ∈ ns) (next : l.next n = some m) : m ∈ ns := by
  induction ns generalizing slot with
  | nil => exact absurd member List.not_mem_nil
  | cons x ns ih =>
    obtain ⟨-, -, rest⟩ := chain
    rcases List.mem_cons.mp member with rfl | later
    · cases ns with
      | nil =>
        have last : l.next n = none := rest
        rw [last] at next
        cases next
      | cons y ns =>
        have link : l.next n = some y := rest.1
        rw [link] at next
        cases next
        exact List.mem_cons_of_mem n List.mem_cons_self
    · exact List.mem_cons_of_mem x (ih rest later)

theorem Chain.pprev_mem (chain : Chain l slot ns) (member : n ∈ ns) :
    ∃ place, l.pprev n = some place ∧ (place = slot ∨ ∃ y ∈ ns, place = .inr y) := by
  induction ns generalizing slot with
  | nil => exact absurd member List.not_mem_nil
  | cons x ns ih =>
    obtain ⟨-, back, rest⟩ := chain
    rcases List.mem_cons.mp member with rfl | later
    · exact ⟨slot, back, .inl rfl⟩
    · obtain ⟨place, hangs, where_⟩ := ih rest later
      refine ⟨place, hangs, .inr ?_⟩
      rcases where_ with same | ⟨y, inside, same⟩
      · exact ⟨x, List.mem_cons_self, same⟩
      · exact ⟨y, List.mem_cons_of_mem x inside, same⟩

theorem Chain.congr (chain : Chain l slot ns) (start : l'.get slot = l.get slot)
    (same : ∀ n ∈ ns, l'.next n = l.next n ∧ l'.pprev n = l.pprev n) : Chain l' slot ns := by
  induction ns generalizing slot with
  | nil => exact start.trans chain
  | cons x ns ih =>
    obtain ⟨here, back, rest⟩ := chain
    obtain ⟨next, pprev⟩ := same x List.mem_cons_self
    exact ⟨start.trans here, pprev.trans back,
      ih rest next fun n member => same n (List.mem_cons_of_mem x member)⟩

theorem Chain.unique (left : Chain l slot ns) (right : Chain l slot ms) : ns = ms := by
  induction ns generalizing slot ms with
  | nil =>
    have empty : l.get slot = none := left
    cases ms with
    | nil => rfl
    | cons y ms => cases empty.symm.trans right.1
  | cons x ns ih =>
    cases ms with
    | nil =>
      have empty : l.get slot = none := right
      cases empty.symm.trans left.1
    | cons y ms =>
      cases Option.some.inj (left.1.symm.trans right.1)
      rw [ih left.2.2 right.2.2]

theorem Chain.walk_eq (chain : Chain l slot ns) {fuel : Nat} {found : List ν}
    (done : walk l fuel (l.get slot) = some found) : found = ns := by
  induction ns generalizing slot fuel found with
  | nil =>
    have empty : l.get slot = none := chain
    rw [empty] at done
    cases fuel <;> cases done <;> rfl
  | cons x ns ih =>
    obtain ⟨here, -, rest⟩ := chain
    rw [here] at done
    cases fuel with
    | zero => cases done
    | succ fuel =>
      obtain ⟨tail, walked, rfl⟩ := Option.map_eq_some_iff.mp done
      rw [ih rest walked]

section Updates

variable [DecidableEq η] [DecidableEq ν]

def Links.set (l : Links η ν) (slot : η ⊕ ν) (target : Option ν) : Links η ν :=
  match slot with
  | .inl h => { l with first := Function.update l.first h target }
  | .inr n => { l with next := Function.update l.next n target }

def Links.setPprev (l : Links η ν) (n : ν) (slot : Option (η ⊕ ν)) : Links η ν :=
  { l with pprev := Function.update l.pprev n slot }

/-- `if (n) n->pprev = slot;` -/
def Links.relink (l : Links η ν) (n : Option ν) (slot : η ⊕ ν) : Links η ν :=
  match n with
  | none => l
  | some n => l.setPprev n (some slot)

/-- `hlist_add_head` -/
def addHead (l : Links η ν) (n : ν) (h : η) : Links η ν :=
  let first := l.first h
  (((l.set (.inr n) first).relink first (.inr n)).set (.inl h) (some n)).setPprev n (some (.inl h))

/-- `hlist_del`; `none` when `pprev` is null. -/
def del (l : Links η ν) (n : ν) : Option (Links η ν) :=
  let next := l.next n
  (l.pprev n).map fun slot =>
    (((l.set slot next).relink next slot).set (.inr n) none).setPprev n none

def clearNode (l : Links η ν) (n : ν) : Links η ν := (l.set (.inr n) none).setPprev n none

def clearHead (l : Links η ν) (h : η) : Links η ν := l.set (.inl h) none

@[simp] theorem get_set (l : Links η ν) (slot place : η ⊕ ν) (target : Option ν) :
    (l.set slot target).get place = if place = slot then target else l.get place := by
  cases slot <;> cases place <;> simp [Links.set, Links.get, Function.update_apply]

@[simp] theorem pprev_set (l : Links η ν) (slot : η ⊕ ν) (target : Option ν) : (l.set slot target).pprev = l.pprev := by
  cases slot <;> rfl

omit [DecidableEq η] in
@[simp] theorem get_setPprev (l : Links η ν) (n : ν) (back : Option (η ⊕ ν)) (slot : η ⊕ ν) :
    (l.setPprev n back).get slot = l.get slot := by
  cases slot <;> rfl

omit [DecidableEq η] in
@[simp] theorem pprev_setPprev (l : Links η ν) (n m : ν) (back : Option (η ⊕ ν)) :
    (l.setPprev n back).pprev m = if m = n then back else l.pprev m := by
  simp [Links.setPprev, Function.update_apply]

omit [DecidableEq η] in
@[simp] theorem get_relink (l : Links η ν) (n : Option ν) (back slot : η ⊕ ν) : (l.relink n back).get slot = l.get slot := by
  cases n <;> simp [Links.relink]

omit [DecidableEq η] in
@[simp] theorem pprev_relink (l : Links η ν) (n : Option ν) (back : η ⊕ ν) (m : ν) :
    (l.relink n back).pprev m = if n = some m then some back else l.pprev m := by
  cases n with
  | none => simp [Links.relink]
  | some n => simp [Links.relink, eq_comm]

theorem addHead_get (l : Links η ν) (n : ν) (h : η) (slot : η ⊕ ν) : (addHead l n h).get slot =
      if slot = .inl h then some n else if slot = .inr n then l.first h else l.get slot := by
  simp [addHead]

theorem addHead_pprev (l : Links η ν) (n : ν) (h : η) (m : ν) : (addHead l n h).pprev m =
      if m = n then some (.inl h) else if l.first h = some m then some (.inr n) else l.pprev m := by
  simp [addHead]

theorem del_eq_some (done : del l n = some l') : ∃ slot, l.pprev n = some slot ∧
      (∀ place, l'.get place = if place = .inr n then none else if place = slot then l.next n else l.get place) ∧
      ∀ m, l'.pprev m = if m = n then none else if l.next n = some m then some slot else l.pprev m := by
  obtain ⟨slot, back, rfl⟩ := Option.map_eq_some_iff.mp done
  exact ⟨slot, back, by simp, by simp⟩

theorem Chain.addHead (chain : Chain l (.inl h) ns) (new : n ∉ ns) : Chain (addHead l n h) (.inl h) (n :: ns) := by
  refine ⟨by simp [addHead_get], by simp [addHead_pprev], ?_⟩
  cases ns with
  | nil =>
    have empty : l.first h = none := chain
    show (IntrusiveLists.addHead l n h).get (.inr n) = none
    simp [addHead_get, empty]
  | cons x ns =>
    have nodup := List.nodup_cons.mp chain.nodup
    obtain ⟨here, -, rest⟩ := chain
    have first : l.first h = some x := here
    rw [List.mem_cons, not_or] at new
    refine ⟨by simp [addHead_get, first], ?_, rest.congr ?_ ?_⟩
    · rw [addHead_pprev, if_neg (Ne.symm new.1), if_pos first]
    · simp [addHead_get, Ne.symm new.1]
    · intro y member
      have other : y ≠ n := fun same => new.2 (same ▸ member)
      have later : l.first h ≠ some y := by
        rw [first]
        intro same
        cases same
        exact nodup.1 member
      refine ⟨?_, by rw [addHead_pprev, if_neg other, if_neg later]⟩
      show (IntrusiveLists.addHead l n h).get (.inr y) = l.get (.inr y)
      simp [addHead_get, other]

theorem Chain.addHead_other (chain : Chain l (.inl g) ms) (other : g ≠ h) (new : n ∉ ms)
    (apart : ∀ x ∈ ms, l.first h ≠ some x) : Chain (IntrusiveLists.addHead l n h) (.inl g) ms := by
  refine chain.congr (by simp [addHead_get, other]) fun x member => ⟨?_, ?_⟩
  · have kept : x ≠ n := fun same => new (same ▸ member)
    show (IntrusiveLists.addHead l n h).get (.inr x) = l.get (.inr x)
    simp [addHead_get, kept]
  · have kept : x ≠ n := fun same => new (same ▸ member)
    rw [addHead_pprev, if_neg kept, if_neg (apart x member)]

omit [DecidableEq η] [DecidableEq ν] in
theorem Chain.first_apart (chain : Chain l (.inl g) ms) (other : Chain l (.inl h) ns) (heads : g ≠ h) :
    ∀ x ∈ ms, l.first h ≠ some x := by
  intro x member same
  cases ns with
  | nil =>
    have empty : l.first h = none := other
    rw [empty] at same
    cases same
  | cons y ns =>
    have here : l.first h = some y := other.1
    rw [here] at same
    cases same
    exact chain.apart other heads x member List.mem_cons_self

theorem Chain.del_here (chain : Chain l slot (n :: ns)) (nodup : (n :: ns).Nodup)
    (outside : ∀ x ∈ n :: ns, slot ≠ .inr x) (done : del l n = some l') : Chain l' slot ns := by
  obtain ⟨place, back, get, pprev⟩ := del_eq_some done
  obtain ⟨here, hangs, rest⟩ := chain
  cases hangs.symm.trans back
  have apart := (List.nodup_cons.mp nodup).1
  have start : l'.get slot = l.next n := by
    rw [get, if_neg (outside n List.mem_cons_self), if_pos rfl]
  cases ns with
  | nil =>
    have last : l.next n = none := rest
    exact start.trans last
  | cons y ns =>
    obtain ⟨next, -, rest⟩ := rest
    have link : l.next n = some y := next
    rw [List.mem_cons, not_or] at apart
    have after := List.nodup_cons.mp (List.nodup_cons.mp nodup).2
    refine ⟨start.trans link, ?_, rest.congr ?_ ?_⟩
    · rw [pprev, if_neg (Ne.symm apart.1), if_pos link]
    · have free : (Sum.inr y : η ⊕ ν) ≠ slot :=
        Ne.symm (outside y (List.mem_cons_of_mem n List.mem_cons_self))
      rw [get, if_neg (by simpa using Ne.symm apart.1), if_neg free]
    · intro z member
      have notN : z ≠ n := fun same => apart.2 (same ▸ member)
      have notY : z ≠ y := fun same => after.1 (same ▸ member)
      have free : (Sum.inr z : η ⊕ ν) ≠ slot :=
        Ne.symm (outside z (List.mem_cons_of_mem n (List.mem_cons_of_mem y member)))
      refine ⟨?_, ?_⟩
      · show l'.get (.inr z) = l.get (.inr z)
        rw [get, if_neg (by simpa using notN), if_neg free]
      · rw [pprev, if_neg notN, if_neg]
        rw [link]
        exact fun same => notY (Option.some.inj same).symm

theorem Chain.del_within (chain : Chain l slot ns) (nodup : ns.Nodup) (outside : ∀ x ∈ ns, slot ≠ .inr x)
    (member : n ∈ ns) (done : del l n = some l') : Chain l' slot (ns.erase n) := by
  induction ns generalizing slot with
  | nil => exact absurd member List.not_mem_nil
  | cons x ns ih =>
    by_cases same : x = n
    · subst same
      rw [List.erase_cons_head]
      exact chain.del_here nodup outside done
    · have later : n ∈ ns := (List.mem_cons.mp member).resolve_left (Ne.symm same)
      obtain ⟨apart, after⟩ := List.nodup_cons.mp nodup
      obtain ⟨place, back, get, pprev⟩ := del_eq_some done
      obtain ⟨here, hangs, rest⟩ := chain
      obtain ⟨_, again, where_⟩ := rest.pprev_mem later
      cases back.symm.trans again
      rw [List.erase_cons_tail (by simpa using same)]
      refine ⟨?_, ?_, ih rest after (fun y inside => ?_) later⟩
      · have free : slot ≠ place := by
          rcases where_ with rfl | ⟨y, inside, rfl⟩
          · exact outside x List.mem_cons_self
          · exact outside y (List.mem_cons_of_mem x inside)
        rw [get, if_neg (outside n member), if_neg free, here]
      · rw [pprev, if_neg same, if_neg, hangs]
        exact fun next => apart (rest.next_mem later next)
      · intro equal
        cases equal
        exact apart inside

theorem Chain.del_mem (chain : Chain l (.inl h) ns) (member : n ∈ ns) :
    ∃ l', del l n = some l' ∧ Chain l' (.inl h) (ns.erase n) := by
  obtain ⟨place, back, -⟩ := chain.pprev_mem member
  have done : del l n = some ((((l.set place (l.next n)).relink (l.next n) place).set (.inr n) none).setPprev
      n none) := by
    rw [del, back]
    rfl
  exact ⟨_, done, chain.del_within chain.nodup (fun _ _ same => nomatch same) member done⟩

theorem Chain.del_other (chain : Chain l (.inl g) ms) (list : Chain l (.inl h) ns) (other : g ≠ h)
    (member : n ∈ ns) (done : del l n = some l') : Chain l' (.inl g) ms := by
  have apart := chain.apart list other
  obtain ⟨place, back, get, pprev⟩ := del_eq_some done
  obtain ⟨_, again, where_⟩ := list.pprev_mem member
  cases back.symm.trans again
  have notHead : (Sum.inl g : η ⊕ ν) ≠ place := by
    rcases where_ with rfl | ⟨y, -, rfl⟩
    · exact fun same => other (Sum.inl.inj same)
    · exact fun same => nomatch same
  refine chain.congr (by rw [get, if_neg (fun same => nomatch same), if_neg notHead]) ?_
  intro x inside
  have notN : x ≠ n := fun same => apart x inside (same ▸ member)
  have notPlace : (Sum.inr x : η ⊕ ν) ≠ place := by
    rcases where_ with rfl | ⟨y, within, rfl⟩
    · exact fun same => nomatch same
    · intro same
      cases same
      exact apart x inside within
  refine ⟨?_, ?_⟩
  · show l'.get (.inr x) = l.get (.inr x)
    rw [get, if_neg (by simpa using notN), if_neg notPlace]
  · rw [pprev, if_neg notN, if_neg]
    exact fun next => apart x inside (list.next_mem member next)

theorem Chain.clearNode (chain : Chain l (.inl h) ns) (outside : n ∉ ns) : Chain (clearNode l n) (.inl h) ns := by
  refine chain.congr (by simp [IntrusiveLists.clearNode]) fun x member => ?_
  have other : x ≠ n := fun same => outside (same ▸ member)
  refine ⟨?_, by simp [IntrusiveLists.clearNode, other]⟩
  show (IntrusiveLists.clearNode l n).get (.inr x) = l.get (.inr x)
  simp [IntrusiveLists.clearNode, other]

theorem Chain.clearHead (chain : Chain l (.inl g) ms) (other : g ≠ h) : Chain (clearHead l h) (.inl g) ms :=
  chain.congr (by simp [IntrusiveLists.clearHead, other]) fun x _ =>
    ⟨by simp [IntrusiveLists.clearHead, Links.set], by simp [IntrusiveLists.clearHead]⟩

theorem chain_clearHead (l : Links η ν) (h : η) : Chain (clearHead l h) (.inl h) [] := by
  show (clearHead l h).get (.inl h) = none
  simp [clearHead]

end Updates

end CreeperKernel.IntrusiveLists

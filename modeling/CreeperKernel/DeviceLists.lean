import CreeperKernel.BlockDevices

namespace CreeperKernel.DeviceLists

section Paths

variable {P : Type} {f g : P → Option P} {p q : Option P} {xs ys : List P} {x : P}

/-- Following `f` from `p` visits `xs` and then arrives at `q`. -/
def Path (f : P → Option P) : Option P → List P → Option P → Prop
  | p, [], q => p = q
  | p, x :: xs, q => p = some x ∧ Path f (f x) xs q

theorem path_append : Path f p (xs ++ ys) q ↔ ∃ m, Path f p xs m ∧ Path f m ys q := by
  induction xs generalizing p with
  | nil => simp [Path]
  | cons x xs ih => simp [Path, ih, and_assoc]

theorem path_concat : Path f p (xs ++ [x]) q ↔ Path f p xs (some x) ∧ f x = q := by
  simp [path_append, Path]

theorem path_congr (same : ∀ x ∈ xs, g x = f x) : Path g p xs q ↔ Path f p xs q := by
  induction xs generalizing p with
  | nil => rfl
  | cons x xs ih =>
    rw [Path, Path, same x List.mem_cons_self, ih fun y member => same y (List.mem_cons_of_mem x member)]

theorem Path.head (path : Path f p xs none) : p = xs.head? := by
  cases xs with
  | nil => exact path
  | cons x xs => exact path.1

variable [DecidableEq P]

theorem path_update (out : x ∉ xs) (v : Option P) : Path (Function.update f x v) p xs q ↔ Path f p xs q := by
  apply path_congr
  intro y member
  exact Function.update_of_ne (ne_of_mem_of_not_mem member out) v f

theorem Path.redirect (path : Path f p (xs ++ [x]) q) (out : x ∉ xs) (v : Option P) :
    Path (Function.update f x v) p (xs ++ [x]) v := by
  rw [path_concat] at path ⊢
  exact ⟨(path_update out v).mpr path.1, Function.update_self x v f⟩

end Paths

inductive Family where
  | block
  | input
  deriving DecidableEq, Repr

structure Lists (P : Type) where
  /-- `block_device_list_start` and `input_device_list_start` -/
  start : Family → Option P
  next : P → Option P
  prev : P → Option P

variable {P : Type}

/-- The devices `nodes` are the list of `family`: `prev` leads back through them, and from the first to the last. -/
structure Shape (s : Lists P) (family : Family) (nodes : List P) : Prop where
  next : Path s.next (s.start family) nodes none
  prev : Path s.prev nodes.getLast? nodes.reverse nodes.getLast?

/-- Nothing is written but the list of `family` and the fields of the devices `written`. -/
structure Frame (s s' : Lists P) (family : Family) (written : List P) : Prop where
  start : ∀ other, other ≠ family → s'.start other = s.start other
  fields : ∀ x, x ∉ written → s'.next x = s.next x ∧ s'.prev x = s.prev x

variable {s s' : Lists P} {family : Family} {nodes written : List P} {node : P}

theorem Shape.frame {other : Family} (shape : Shape s other nodes) (frame : Frame s s' family written)
    (differs : other ≠ family) (apart : ∀ x ∈ nodes, x ∉ written) : Shape s' other nodes := by
  constructor
  · rw [frame.start other differs]
    exact (path_congr fun x member => (frame.fields x (apart x member)).1).mpr shape.next
  · exact (path_congr fun x member => (frame.fields x (apart x (List.mem_reverse.mp member))).2).mpr shape.prev

theorem Shape.prev_of_next {a b : P} (shape : Shape s family nodes) (next_ : [a, b] <:+: nodes) : s.prev b = some a := by
  obtain ⟨front, back, rfl⟩ := next_
  have path := shape.prev
  rw [List.reverse_append, path_append, List.reverse_append] at path
  obtain ⟨_, _, here, before, _⟩ := path
  exact before

theorem Shape.prev_first {first : P} (shape : Shape s family nodes) (is : first ∈ nodes.head?) :
    s.prev first = nodes.getLast? := by
  cases nodes with
  | nil => cases is
  | cons x rest =>
    obtain rfl : x = first := Option.some.inj is
    have path := shape.prev
    rw [List.reverse_cons, path_concat] at path
    exact path.2

structure Registered (s : Lists P) (nodes : Family → List P) : Prop where
  shape : ∀ family, Shape s family (nodes family)
  nodup : ∀ family, (nodes family).Nodup
  apart : ∀ family other, family ≠ other → ∀ x ∈ nodes family, x ∉ nodes other

theorem Registered.update {nodes : Family → List P} (h : Registered s nodes) {list : List P} (shape : Shape s' family list)
    (frame : Frame s s' family written) (nodup : list.Nodup)
    (own : ∀ other, other ≠ family → ∀ x ∈ nodes other, x ∉ written ∧ x ∉ list) :
    Registered s' (Function.update nodes family list) := by
  refine ⟨fun other => ?_, fun other => ?_, fun one other differ x => ?_⟩
  · rcases eq_or_ne other family with rfl | differs
    · rwa [Function.update_self]
    · rw [Function.update_of_ne differs]
      exact (h.shape other).frame frame differs fun x member => (own other differs x member).1
  · rcases eq_or_ne other family with rfl | differs
    · rwa [Function.update_self]
    · rw [Function.update_of_ne differs]
      exact h.nodup other
  · rcases eq_or_ne one family with rfl | first
    · rw [Function.update_self, Function.update_of_ne differ.symm]
      exact fun member listed => (own other differ.symm x listed).2 member
    · rw [Function.update_of_ne first]
      rcases eq_or_ne other family with rfl | second
      · rw [Function.update_self]
        exact fun member => (own one first x member).2
      · rw [Function.update_of_ne second]
        exact h.apart one other differ x

variable [DecidableEq P]

/-- How `register_block_device` and `register_input_device` enter a device, unless they give up for a missing end. -/
def insert (s : Lists P) (family : Family) (node : P) : Option (Lists P) :=
  match s.start family with
  | none => some
      { start := Function.update s.start family (some node)
        next := Function.update s.next node none
        prev := Function.update s.prev node (some node) }
  | some first =>
    match s.prev first with
    | none => none
    | some end_ => some
        { s with
          next := Function.update (Function.update s.next end_ (some node)) node none
          prev := Function.update (Function.update s.prev node (some end_)) first (some node) }

/-- How `unregister_block_device` and `unregister_input_device` take a device out, unless they follow a NULL pointer. -/
def remove (s : Lists P) (family : Family) (node : P) : Option (Lists P) :=
  if s.start family = some node then
    match s.next node with
    | none => some { s with start := Function.update s.start family none }
    | some first => some
        { s with
          start := Function.update s.start family (some first)
          prev := Function.update s.prev first (s.prev node) }
  else
    match s.prev node with
    | none => none
    | some before =>
      let next := Function.update s.next before (s.next node)
      match next node with
      | none => (s.start family).map fun first => { s with next, prev := Function.update s.prev first (some before) }
      | some after => some { s with next, prev := Function.update s.prev after (some before) }

theorem insert_shape (shape : Shape s family nodes) (nodup : nodes.Nodup) (fresh : node ∉ nodes) :
    ∃ s', insert s family node = some s' ∧ Shape s' family (nodes ++ [node]) ∧ Frame s s' family (node :: nodes) := by
  cases nodes with
  | nil =>
    have start : s.start family = none := shape.next
    refine ⟨_, by rw [insert, start], ⟨?_, ?_⟩, ⟨fun other differs => Function.update_of_ne differs _ _, ?_⟩⟩
    · simp [Path]
    · simp [Path]
    · intro x out
      simp at out
      simp [out]
  | cons first rest =>
    obtain ⟨front, last, eq⟩ := (List.eq_nil_or_concat' (first :: rest)).resolve_left (List.cons_ne_nil _ _)
    have start : s.start family = some first := shape.next.1
    have end_ : (first :: rest).getLast? = some last := by simp [eq]
    have back := shape.prev
    rw [end_, List.reverse_cons] at back
    have prev : s.prev first = some last := (path_concat.mp back).2
    have result : insert s family node = some
        { s with
          next := Function.update (Function.update s.next last (some node)) node none
          prev := Function.update (Function.update s.prev node (some last)) first (some node) } := by
      simp [insert, start, prev]
    refine ⟨_, result, ⟨?_, ?_⟩, ⟨fun _ _ => rfl, ?_⟩⟩
    · have path := shape.next
      rw [eq] at path nodup fresh ⊢
      rw [path_concat, path_update fresh]
      exact ⟨path.redirect (by grind) (some node), Function.update_self _ _ _⟩
    · have other : node ≠ first := by grind
      rw [List.getLast?_concat, List.reverse_append, List.reverse_singleton, List.singleton_append, List.reverse_cons, Path]
      refine ⟨rfl, ?_⟩
      simp only [Function.update_of_ne other, Function.update_self]
      exact ((path_update (by grind) _).mpr back).redirect (by grind) (some node)
    · intro x out
      have member : last ∈ first :: rest := by simp [eq]
      have others : x ≠ node ∧ x ≠ first ∧ x ≠ last := by grind
      simp [others]

theorem remove_first (shape : Shape s family (node :: nodes)) (nodup : (node :: nodes).Nodup) :
    ∃ s', remove s family node = some s' ∧ Shape s' family nodes ∧ Frame s s' family (node :: nodes) := by
  have start : s.start family = some node := shape.next.1
  have backwards := shape.prev
  rw [List.reverse_cons, path_concat] at backwards
  cases nodes with
  | nil =>
    have next : s.next node = none := shape.next.2
    have result : remove s family node = some { s with start := Function.update s.start family none } := by
      simp [remove, start, next]
    exact ⟨_, result, ⟨Function.update_self _ _ _, rfl⟩,
      ⟨fun _ differs => Function.update_of_ne differs _ _, fun _ _ => ⟨rfl, rfl⟩⟩⟩
  | cons b back =>
    have next : s.next node = some b := shape.next.2.1
    have result : remove s family node = some
        { s with
          start := Function.update s.start family (some b)
          prev := Function.update s.prev b (s.prev node) } := by
      simp [remove, start, next]
    refine ⟨_, result, ⟨⟨Function.update_self _ _ _, shape.next.2.2⟩, ?_⟩,
      ⟨fun _ differs => Function.update_of_ne differs _ _, fun x out => ⟨rfl, Function.update_of_ne (by grind) _ _⟩⟩⟩
    rw [List.getLast?_cons_cons, List.reverse_cons] at backwards
    rw [List.reverse_cons, backwards.2]
    exact backwards.1.redirect (by grind) _

theorem remove_later {front back : List P} (shape : Shape s family (front ++ node :: back))
    (nodup : (front ++ node :: back).Nodup) (later : front ≠ []) :
    ∃ s', remove s family node = some s' ∧ Shape s' family (front ++ back) ∧ Frame s s' family (front ++ node :: back) := by
  obtain ⟨_, toNode, rfl, rest⟩ := path_append.mp shape.next
  have backwards := shape.prev
  rw [List.reverse_append, List.reverse_cons, List.append_assoc, path_append] at backwards
  obtain ⟨_, toNode', rfl, rest'⟩ := backwards
  obtain ⟨front', before, eq⟩ := (List.eq_nil_or_concat' front).resolve_left later
  obtain ⟨first, tail, cons⟩ := List.exists_cons_of_ne_nil later
  have start : s.start family = some first := by
    rw [shape.next.head, cons]
    rfl
  have other : first ≠ node := by grind
  have prev : s.prev node = some before := by
    rw [eq, List.reverse_append] at rest'
    exact rest'.1
  have apart : node ≠ before := by grind
  have path : Path (Function.update s.next before (s.next node)) (s.start family) (front ++ back) none := by
    rw [path_append]
    refine ⟨s.next node, ?_, (path_update (by grind) _).mpr rest⟩
    rw [eq] at toNode ⊢
    exact toNode.redirect (by grind) _
  rw [prev] at rest'
  cases back with
  | nil =>
    -- the last device: the first one's `prev` closes the ring
    have next : s.next node = none := rest
    have result : remove s family node = some
        { s with
          next := Function.update s.next before (s.next node)
          prev := Function.update s.prev first (some before) } := by
      simp [remove, start, other, prev, apart, next]
    refine ⟨_, result, ⟨path, ?_⟩, ⟨fun _ _ => rfl, fun x out => ⟨?_, ?_⟩⟩⟩
    · have end_ : (front ++ []).getLast? = some before := by simp [eq]
      rw [end_]
      rw [List.append_nil]
      rw [cons, List.reverse_cons] at rest' ⊢
      exact rest'.redirect (by grind) _
    · exact Function.update_of_ne (by grind) _ _
    · exact Function.update_of_ne (by grind) _ _
  | cons b back =>
    have next : s.next node = some b := rest.1
    have result : remove s family node = some
        { s with
          next := Function.update s.next before (s.next node)
          prev := Function.update s.prev b (some before) } := by
      simp [remove, start, other, prev, apart, next]
    refine ⟨_, result, ⟨path, ?_⟩, ⟨fun _ _ => rfl, fun x out => ⟨?_, ?_⟩⟩⟩
    · have end_ : (front ++ node :: b :: back).getLast? = (front ++ b :: back).getLast? := by simp
      rw [end_] at rest' toNode'
      rw [List.reverse_append, path_append]
      rw [List.reverse_cons] at toNode' ⊢
      exact ⟨some before, toNode'.redirect (by grind) _, (path_update (by grind) _).mpr rest'⟩
    · exact Function.update_of_ne (by grind) _ _
    · exact Function.update_of_ne (by grind) _ _

theorem remove_shape (shape : Shape s family nodes) (nodup : nodes.Nodup) (member : node ∈ nodes) :
    ∃ s', remove s family node = some s' ∧ Shape s' family (nodes.erase node) ∧ Frame s s' family nodes := by
  obtain ⟨front, back, rfl⟩ := List.append_of_mem member
  have erased : (front ++ node :: back).erase node = front ++ back := by
    rw [List.erase_append_right _ (by grind), List.erase_cons_head]
  rw [erased]
  cases front with
  | nil => exact remove_first shape nodup
  | cons first front => exact remove_later shape nodup (List.cons_ne_nil first front)

inductive Call (P : Type) where
  | register (family : Family) (node : P)
  | unregister (family : Family) (node : P)
  /-- a write of anyone else to memory that is no registered device -/
  | write (node : P) (next prev : Option P)

def Call.run (s : Lists P) : Call P → Option (Lists P)
  | register family node => insert s family node
  | unregister family node => remove s family node
  | write node next prev => some
      { s with next := Function.update s.next node next, prev := Function.update s.prev node prev }

/-- A new device is not the memory of a registered one, and only a registered one is taken out. -/
def Call.Allowed (nodes : Family → List P) : Call P → Prop
  | register _ node => ∀ family, node ∉ nodes family
  | unregister family node => node ∈ nodes family
  | write node _ _ => ∀ family, node ∉ nodes family

/-- The registered devices after a call, in the order of their registration. -/
def Call.registered (nodes : Family → List P) : Call P → Family → List P
  | register family node => Function.update nodes family (nodes family ++ [node])
  | unregister family node => Function.update nodes family ((nodes family).erase node)
  | write _ _ _ => nodes

def Allowed (nodes : Family → List P) : List (Call P) → Prop
  | [] => True
  | call :: calls => call.Allowed nodes ∧ Allowed (call.registered nodes) calls

variable {nodes : Family → List P}

theorem Call.run_registered (h : Registered s nodes) {call : Call P} (allowed : call.Allowed nodes) :
    ∃ s', call.run s = some s' ∧ Registered s' (call.registered nodes) := by
  cases call with
  | register family node =>
    obtain ⟨s', result, shape, frame⟩ := insert_shape (h.shape family) (h.nodup family) (allowed family)
    refine ⟨s', result, h.update shape frame ?_ fun other differs x member => ?_⟩
    · have := h.nodup family
      have := allowed family
      grind
    · have := h.apart other family differs x member
      have := allowed other
      grind
  | unregister family node =>
    obtain ⟨s', result, shape, frame⟩ := remove_shape (h.shape family) (h.nodup family) allowed
    refine ⟨s', result, h.update shape frame ((h.nodup family).erase node) fun other differs x member => ?_⟩
    have out := h.apart other family differs x member
    exact ⟨out, fun listed => out (List.mem_of_mem_erase listed)⟩
  | write node next prev =>
    refine ⟨_, rfl, fun family => ⟨?_, ?_⟩, h.nodup, h.apart⟩
    · exact (path_update (allowed family) next).mpr (h.shape family).next
    · exact (path_update (by rw [List.mem_reverse]; exact allowed family) prev).mpr (h.shape family).prev

theorem run_registered {calls : List (Call P)} (h : Registered s nodes) (allowed : Allowed nodes calls) :
    ∃ s', calls.foldlM Call.run s = some s' ∧ Registered s' (calls.foldl Call.registered nodes) := by
  induction calls generalizing s nodes with
  | nil => exact ⟨s, rfl, h⟩
  | cons call calls ih =>
    obtain ⟨middle, result, kept⟩ := Call.run_registered h allowed.1
    obtain ⟨s', rest, done⟩ := ih kept allowed.2
    exact ⟨s', by rw [List.foldlM_cons, result]; exact rest, done⟩

/-- Every run from empty lists, whatever else is written in between. -/
theorem device_lists_shape (s : Lists P) (empty : ∀ family, s.start family = none) (calls : List (Call P))
    (allowed : Allowed (fun _ => []) calls) (family : Family) :
    ∃ s', calls.foldlM Call.run s = some s' ∧
      Path s'.next (s'.start family) (calls.foldl Call.registered (fun _ => []) family) none ∧
      (∀ a b, [a, b] <:+: calls.foldl Call.registered (fun _ => []) family → s'.prev b = some a) ∧
      ∀ first ∈ (calls.foldl Call.registered (fun _ => []) family).head?,
        s'.prev first = (calls.foldl Call.registered (fun _ => []) family).getLast? := by
  have start : Registered s fun _ => [] := ⟨fun family => ⟨empty family, rfl⟩, by simp, by simp⟩
  obtain ⟨s', result, done⟩ := run_registered start allowed
  have shape := done.shape family
  exact ⟨s', result, shape.next, fun a b next_ => shape.prev_of_next next_, fun first is => shape.prev_first is⟩

/-- The first of two devices is taken out again. -/
theorem device_lists_shape_second : ∃ s',
    [Call.register .block 1, .register .block 2, .unregister .block 1].foldlM Call.run
      ⟨fun _ => none, fun _ => none, fun _ => none⟩ = some s' ∧ Path s'.next (s'.start .block) [2] none := by
  have allowed : Allowed (fun _ => []) [Call.register .block 1, .register .block 2, .unregister .block 1] := by
    refine ⟨fun family => ?_, fun family => ?_, ?_, trivial⟩
    · cases family <;> decide
    · cases family <;> decide
    · exact (show 1 ∈ [1, 2] by decide)
  obtain ⟨s', result, path, _⟩ :=
    device_lists_shape ⟨fun _ => none, fun _ => none, fun _ => none⟩ (fun _ => rfl) _ allowed .block
  exact ⟨s', result, path⟩

/-- The devices of the registry are entered and taken out in the same way. -/
theorem registry_registered (r : Block.Registry) (addr : Block.Ptr) (tmpbuff : Bool) :
    (Block.registerBlockDevice r (some addr) tmpbuff).2.devices.map (·.addr) =
      (Call.register .block addr).registered (fun _ => r.devices.map (·.addr)) .block := by
  simp [Block.registerBlockDevice, Call.registered]

theorem registry_unregistered (r : Block.Registry) (d : Block.BlockDevice) (nodup : (r.devices.map (·.addr)).Nodup) :
    (Block.unregisterBlockDevice r d).2.devices.map (·.addr) =
      (Call.unregister .block d.addr).registered (fun _ => r.devices.map (·.addr)) .block := by
  have devices : (Block.unregisterBlockDevice r d).2.devices = r.devices.filter (·.addr ≠ d.addr) := by
    rw [Block.unregisterBlockDevice]
    cases Block.bitmapSet r.blkdevIdMap (d.id.signExtend 64).toNat false <;> rfl
  rw [devices, Call.registered, Function.update_self, nodup.erase_eq_filter, List.filter_map]
  congr 1
  apply List.filter_congr
  intro e _
  simp [bne, Function.comp, beq_eq_decide]

end CreeperKernel.DeviceLists

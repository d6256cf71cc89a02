import CreeperKernel.ProcessBirth

namespace CreeperKernel.Sched

open IntrusiveLists

/-- Processes and threads take their ids from one supply. -/
inductive Holder where
  | proc (p : Ptr)
  | thread (t : Ptr)
  deriving DecidableEq

/-- What `id_lookup` returns for a holder. -/
def Holder.found : Holder → IdKind × Ptr
  | .proc p => (.proc, p)
  | .thread t => (.thread, t)

/-- The ids that `held` assigns are distinct, taken, and found in the table. -/
structure Registry (held : Holder → Option Nat) (s : Table) : Prop where
  distinct : ∀ a b id, held a = some id → held b = some id → a = b
  taken : ∀ a id, held a = some id → id < maxTid ∧ tidFree s.tidBitmap id = false
  found : ∀ a id, held a = some id → idLookup s id = some a.found

variable {s s' : Table} {held held' : Holder → Option Nat}

variable {id : Nat}

theorem idLookup_congr (same : s'.idTable id = s.idTable id) : idLookup s' id = idLookup s id := by
  unfold idLookup
  rw [same]

theorem Registry.shrink (registry : Registry held s)
    (less : ∀ a id, held' a = some id → held a = some id)
    (bits : ∀ a id, held' a = some id → tidFree s'.tidBitmap id = tidFree s.tidBitmap id)
    (table : ∀ a id, held' a = some id → s'.idTable id = s.idTable id) : Registry held' s' where
  distinct a b id left right := registry.distinct a b id (less a id left) (less b id right)
  taken a id here := by
    rw [bits a id here]
    exact registry.taken a id (less a id here)
  found a id here := by
    rw [idLookup_congr (table a id here)]
    exact registry.found a id (less a id here)

variable {a : Holder}

theorem Registry.move (registry : Registry held s) (s' : Table) {b : Holder} {old : Nat} (source : held a = some id)
    (target : held b = some old) (apart : a ≠ b) (bits : s'.tidBitmap = s.tidBitmap)
    (entry : idLookup s' id = some b.found) (table : ∀ i, i ≠ id → i ≠ old → s'.idTable i = s.idTable i) :
    Registry (Function.update (Function.update held b (some id)) a none) s' := by
  have split : ∀ x i, Function.update (Function.update held b (some id)) a none x = some i →
      (x = b ∧ i = id) ∨ (held x = some i ∧ i ≠ id ∧ i ≠ old) := by
    intro x i here
    by_cases isSource : x = a
    · rw [isSource, Function.update_self] at here
      cases here
    · rw [Function.update_of_ne isSource] at here
      by_cases isTarget : x = b
      · rw [isTarget, Function.update_self] at here
        exact .inl ⟨isTarget, (Option.some.inj here).symm⟩
      · rw [Function.update_of_ne isTarget] at here
        refine .inr ⟨here, fun same => ?_, fun same => ?_⟩
        · rw [same] at here
          exact isSource (registry.distinct x a id here source)
        · rw [same] at here
          exact isTarget (registry.distinct x b old here target)
  refine ⟨?_, ?_, ?_⟩
  · intro x y i left right
    rcases split x i left with ⟨rfl, rfl⟩ | ⟨left, notId, -⟩ <;>
      rcases split y _ right with ⟨rfl, same⟩ | ⟨right, other, -⟩
    · rfl
    · exact absurd rfl other
    · exact absurd same notId
    · exact registry.distinct x y i left right
  · intro x i here
    rw [bits]
    rcases split x i here with ⟨rfl, rfl⟩ | ⟨before, -⟩
    · exact registry.taken a i source
    · exact registry.taken x i before
  · intro x i here
    rcases split x i here with ⟨rfl, rfl⟩ | ⟨before, notId, notOld⟩
    · exact entry
    · rw [idLookup_congr (table i notId notOld)]
      exact registry.found x i before

theorem kernelPtr_bits (p : KernelPtr) : p.val.getLsbD 63 = true ∧ p.val.getLsbD 62 = true := by
  have bound : (0xFFFF800000000000#64).toNat ≤ p.val.toNat := p.property
  have value : (0xFFFF800000000000#64).toNat = 18446603336221196288 := by decide
  have below := p.val.isLt
  simp only [BitVec.getLsbD, Nat.testBit_eq_decide_div_mod_eq, decide_eq_true_eq]
  omega

theorem getLsbD_idTagMask {i : Nat} (inside : i < 64) : idTagMask.getLsbD i = decide (i = 63) := by
  revert i
  decide

theorem kernelPtr_or (p : KernelPtr) : p.val ||| idTagMask = p.val := by
  apply BitVec.eq_of_getLsbD_eq
  intro i inside
  rw [BitVec.getLsbD_or, getLsbD_idTagMask inside]
  by_cases top : i = 63
  · rw [top, (kernelPtr_bits p).1]
    rfl
  · simp [top]

theorem kernelPtr_tag (p : KernelPtr) : p.val &&& idTagMask ≠ 0 := by
  intro zero
  have bit := congrArg (fun x => BitVec.getLsbD x 63) zero
  rw [BitVec.getLsbD_and, (kernelPtr_bits p).1] at bit
  cases bit

theorem kernelPtr_untagged (p : KernelPtr) : p.val &&& ~~~idTagMask ≠ 0 := by
  intro zero
  have bit := congrArg (fun x => BitVec.getLsbD x 62) zero
  rw [BitVec.getLsbD_and, (kernelPtr_bits p).2] at bit
  cases bit

theorem untagged_tag (p : Ptr) : p &&& ~~~idTagMask &&& idTagMask = 0 := by
  rw [BitVec.and_assoc, BitVec.not_and_self]
  exact BitVec.and_zero

theorem kernelPtr_retag (p : KernelPtr) : p.val &&& ~~~idTagMask ||| idTagMask = p.val := by
  rw [← kernelPtr_or p]
  apply BitVec.eq_of_getLsbD_eq
  intro i inside
  simp only [BitVec.getLsbD_or, BitVec.getLsbD_and, BitVec.getLsbD_not, inside, decide_true,
    Bool.true_and]
  cases p.val.getLsbD i <;> cases idTagMask.getLsbD i <;> rfl

theorem idLookup_proc (small : id < maxTid) {p : KernelPtr} (entry : s.idTable id = p.val &&& ~~~idTagMask) :
    idLookup s id = some (.proc, p.val) := by
  rw [idLookup, if_neg (Nat.not_le.mpr small)]
  dsimp only
  rw [entry, if_neg (kernelPtr_untagged p), untagged_tag, kernelPtr_retag]
  rfl

theorem idLookup_thread (small : id < maxTid) {t : KernelPtr} (entry : s.idTable id = t.val) :
    idLookup s id = some (.thread, t.val) := by
  have present : t.val ≠ 0 := fun zero => kernelPtr_tag t (by rw [zero]; rfl)
  rw [idLookup, if_neg (Nat.not_le.mpr small)]
  dsimp only
  rw [entry, if_neg present, if_pos (kernelPtr_tag t), kernelPtr_or]

theorem Registry.issue (registry : Registry held s) (s' : Table)
    (issued : Issued s.tidBitmap s.tid0Used id s'.tidBitmap) (entry : idLookup s' id = some a.found)
    (table : ∀ i, i ≠ id → s'.idTable i = s.idTable i) : Registry (Function.update held a (some id)) s' := by
  have old : ∀ x i, held x = some i → id ≠ i := by
    intro x i here same
    have free := issued.wasFree
    rw [same, (registry.taken x i here).2] at free
    cases free
  have split : ∀ x i, Function.update held a (some id) x = some i →
      (x = a ∧ i = id) ∨ (held x = some i ∧ id ≠ i) := by
    intro x i here
    rw [Function.update_apply] at here
    split at here
    · rename_i same
      exact .inl ⟨same, (Option.some.inj here).symm⟩
    · exact .inr ⟨here, old x i here⟩
  constructor
  · intro x y i left right
    rcases split x i left with ⟨rfl, rfl⟩ | ⟨left, other⟩
    · rcases split y i right with ⟨rfl, -⟩ | ⟨-, other⟩
      · rfl
      · exact absurd rfl other
    · rcases split y i right with ⟨rfl, same⟩ | ⟨right, -⟩
      · exact absurd same.symm other
      · exact registry.distinct x y i left right
  · intro x i here
    rw [issued.marked]
    rcases split x i here with ⟨rfl, rfl⟩ | ⟨before, -⟩
    · exact ⟨issued.small, by simp⟩
    · obtain ⟨small, used⟩ := registry.taken x i before
      exact ⟨small, by rw [used]; rfl⟩
  · intro x i here
    rcases split x i here with ⟨rfl, rfl⟩ | ⟨before, other⟩
    · exact entry
    · rw [idLookup_congr (table i (Ne.symm other))]
      exact registry.found x i before

theorem Registry.release (registry : Registry held s) (less : ∀ a i, held' a = some i → held a = some i)
    (apart : ∀ a i, held' a = some i → id ≠ i) (bits : s'.tidBitmap = freeTid s.tidBitmap id)
    (table : s'.idTable = Function.update s.idTable id 0) : Registry held' s' := by
  apply registry.shrink less
  · intro a i here
    rw [bits]
    exact tidFree_freeTid_of_ne _ (apart a i here)
  · intro a i here
    rw [table, Function.update_of_ne (Ne.symm (apart a i here))]

theorem Registry.birth (registry : Registry held s) {parent : Option Ptr} {state : ThreadState}
    {proc thread : KernelPtr} {pid tid : Nat} (born : Born s parent state proc thread pid tid s')
    (newProc : held' (.proc proc) = some pid) (newThread : held' (.thread thread) = some tid)
    (others : ∀ a, a ≠ .proc proc → a ≠ .thread thread → ∀ id, held' a = some id → held a = some id) :
    Registry held' s' := by
  obtain ⟨bitmap, first, second⟩ := born.ids
  have named : Registry (Function.update held (.proc proc) (some pid))
      { s with tidBitmap := bitmap, idTable := Function.update s.idTable pid (proc.val &&& ~~~idTagMask) } :=
    registry.issue _ first (idLookup_proc first.small (Function.update_self _ _ _))
      fun i other => Function.update_of_ne other _ _
  have both : Registry (Function.update (Function.update held (.proc proc) (some pid)) (.thread thread) (some tid))
      s' := by
    apply named.issue s' second
    · apply idLookup_thread second.small
      rw [born.idTable, Function.update_self]
    · intro i other
      rw [born.idTable, Function.update_of_ne other]
  refine both.shrink ?_ (fun _ _ _ => rfl) (fun _ _ _ => rfl)
  intro a id here
  by_cases isThread : a = .thread thread
  · subst isThread
    rw [Function.update_self, ← newThread, here]
  · rw [Function.update_of_ne isThread]
    by_cases isProc : a = .proc proc
    · subst isProc
      rw [Function.update_self, ← newProc, here]
    · rw [Function.update_of_ne isProc]
      exact others a isProc isThread id here

end CreeperKernel.Sched

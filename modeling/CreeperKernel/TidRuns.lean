import CreeperKernel.TidBitmap
import CreeperKernel.Transitions

namespace CreeperKernel.Sched

open Transitions

/-- The bitmap and the ids that have been returned and not freed since. -/
structure TidPool where
  bitmap : TidBitmap
  outstanding : List Nat

inductive TidEvent where
  | got (id : Nat)
  | refused
  | freed (id : Nat)

/-- `_get_unused_tid` with `tid0_used` set, and `_free_tid` of an outstanding id. -/
inductive TidStep : TidPool → TidEvent → TidPool → Prop where
  | got {s id bitmap} (done : getUnusedTid s.bitmap true = some (id, bitmap)) :
      TidStep s (.got id) ⟨bitmap, id :: s.outstanding⟩
  | refused {s} (done : getUnusedTid s.bitmap true = none) : TidStep s .refused s
  | freed {s id} (held : id ∈ s.outstanding) : TidStep s (.freed id) ⟨freeTid s.bitmap id, s.outstanding.erase id⟩

def bootPool : TidPool := ⟨initialTidBitmap, []⟩

section Search

/-- No id from `low` up to `high` is free, but for a reserved 0. -/
def Skips (bitmap : TidBitmap) (tid0Used : Bool) (low high : Nat) : Prop :=
  ∀ id, low ≤ id → id < high → tidFree bitmap id = true → tid0Used = true ∧ id = 0

variable {bitmap : TidBitmap} {tid0Used : Bool} {low middle high : Nat}

theorem Skips.append (front : Skips bitmap tid0Used low middle) (back : Skips bitmap tid0Used middle high) :
    Skips bitmap tid0Used low high := by
  intro id above below free
  by_cases early : id < middle
  · exact front id above early free
  · exact back id (by omega) below free

theorem skips_one (skipped : tidFree bitmap low = true → tid0Used = true ∧ low = 0) :
    Skips bitmap tid0Used low (low + 1) := by
  intro id above below free
  have same : id = low := by omega
  subst same
  exact skipped free

theorem scanBits_skips (bitmap : TidBitmap) (tid0Used : Bool) (i : Nat) {n j : Nat} (fits : j + n ≤ 64) :
    Skips bitmap tid0Used (i * 64 + j) ((scanBits bitmap tid0Used i n j).getD (i * 64 + j + n)) := by
  induction n generalizing j with
  | zero =>
    intro id above below
    simp only [scanBits, Option.getD_none] at below
    omega
  | succ n ih =>
    have later := ih (show j + 1 + n ≤ 64 by omega)
    rw [show i * 64 + (j + 1) = i * 64 + j + 1 by omega, show i * 64 + j + 1 + n = i * 64 + j + (n + 1) by omega] at later
    unfold scanBits
    split
    · rename_i reserved
      refine (skips_one fun _ => ⟨reserved.1, ?_⟩).append later
      rw [reserved.2.1, reserved.2.2]
    · split
      · intro id above below
        simp only [Option.getD_some] at below
        omega
      · rename_i taken
        refine (skips_one fun free => absurd ?_ taken).append later
        rw [tidFree, WordBitmap.test, show (i * 64 + j) / 64 = i by omega, show (i * 64 + j) % 64 = j by omega] at free
        exact free

theorem scanTids_skips (bitmap : TidBitmap) (tid0Used : Bool) (n i : Nat) :
    Skips bitmap tid0Used (i * 64) ((scanTids bitmap tid0Used n i).getD ((i + n) * 64)) := by
  induction n generalizing i with
  | zero =>
    intro id above below
    simp only [scanTids, Option.getD_none] at below
    omega
  | succ n ih =>
    have later := ih (i + 1)
    rw [show i + 1 + n = i + (n + 1) by omega] at later
    unfold scanTids
    split
    · rename_i empty
      refine Skips.append (fun id above below free => ?_) later
      rw [tidFree, WordBitmap.test, show id / 64 = i by omega, empty] at free
      exact absurd free (by simp)
    · have word := scanBits_skips bitmap tid0Used i (show 0 + 64 ≤ 64 from Nat.le_refl 64)
      cases found : scanBits bitmap tid0Used i 64 0 with
      | some id =>
        rw [found] at word
        exact word
      | none =>
        rw [found, Option.getD_none, show i * 64 + 0 + 64 = (i + 1) * 64 by omega] at word
        rw [Option.none_or]
        exact word.append later

theorem getUnusedTid_eq_none : getUnusedTid bitmap true = none ↔ ∀ id, 0 < id → id < maxTid → tidFree bitmap id = false := by
  constructor
  · intro none_ id positive small
    have skips := scanTids_skips bitmap true tidBitmapSize 0
    rw [Option.map_eq_none_iff.mp none_, Option.getD_none] at skips
    by_contra free
    have ⟨_, zero⟩ := skips id (by omega) small (Bool.eq_true_of_not_eq_false free)
    omega
  · intro all
    cases found : getUnusedTid bitmap true with
    | none => rfl
    | some result =>
      have issued : Issued bitmap true result.1 result.2 := getUnusedTid_spec found
      have taken := all result.1 (Nat.pos_of_ne_zero (issued.notReserved rfl)) issued.small
      cases taken.symm.trans issued.wasFree

theorem getUnusedTid_le {id : Nat} (positive : 0 < id) (small : id < maxTid) (free : tidFree bitmap id = true) :
    ∃ next bitmap', getUnusedTid bitmap true = some (next, bitmap') ∧ next ≤ id := by
  cases found : scanTids bitmap true tidBitmapSize 0 with
  | none =>
    have failed : getUnusedTid bitmap true = none := by rw [getUnusedTid, found, Option.map_none]
    cases free.symm.trans (getUnusedTid_eq_none.mp failed id positive small)
  | some next =>
    refine ⟨next, WordBitmap.clear bitmap next, by rw [getUnusedTid, found, Option.map_some], ?_⟩
    have skips := scanTids_skips bitmap true tidBitmapSize 0
    rw [found, Option.getD_some] at skips
    by_contra later
    obtain ⟨_, zero⟩ := skips id (by omega) (by omega) free
    omega

theorem tidFree_initial (id : Nat) : tidFree initialTidBitmap id = decide (id % 64 < 32) := by
  have bits : ∀ j < 64, (0xFFFFFFFF : BitVec 64).getLsbD j = decide (j < 32) := by decide
  exact bits (id % 64) (Nat.mod_lt id (by decide))

end Search

/-- The bitmap marks the outstanding ids, and those that were never free. -/
structure TidPool.Exact (s : TidPool) : Prop where
  distinct : s.outstanding.Nodup
  inside : ∀ id ∈ s.outstanding, 0 < id ∧ id < maxTid ∧ id % 64 < 32
  bits : ∀ id, tidFree s.bitmap id = true ↔ id % 64 < 32 ∧ id ∉ s.outstanding

variable {s s' : TidPool}

theorem TidStep.keeps_exact {event : TidEvent} (exact_ : s.Exact) (step : TidStep s event s') : s'.Exact := by
  cases step with
  | @got id bitmap done =>
    have issued := getUnusedTid_spec done
    have ⟨lower, new⟩ := (exact_.bits id).mp issued.wasFree
    refine ⟨List.nodup_cons.mpr ⟨new, exact_.distinct⟩, fun other member => ?_, fun other => ?_⟩
    · rcases List.mem_cons.mp member with same | member
      · subst same
        exact ⟨Nat.pos_of_ne_zero (issued.notReserved rfl), issued.small, lower⟩
      · exact exact_.inside other member
    · show tidFree bitmap other = true ↔ _ ∧ other ∉ id :: s.outstanding
      rw [issued.marked, Bool.and_eq_true, exact_.bits, Bool.not_eq_true', decide_eq_false_iff_not, List.mem_cons, not_or]
      constructor
      · intro ⟨⟨lower, apart⟩, other_⟩
        exact ⟨lower, Ne.symm other_, apart⟩
      · intro ⟨lower, other_, apart⟩
        exact ⟨⟨lower, apart⟩, Ne.symm other_⟩
  | refused => exact exact_
  | @freed id held =>
    have ⟨_, small, lower⟩ := exact_.inside id held
    refine ⟨exact_.distinct.erase id, fun other member => exact_.inside other (List.mem_of_mem_erase member), fun other => ?_⟩
    show tidFree (freeTid s.bitmap id) other = true ↔ _ ∧ other ∉ s.outstanding.erase id
    rw [tidFree_freeTid s.bitmap small, Bool.or_eq_true, exact_.bits, decide_eq_true_iff, exact_.distinct.mem_erase_iff]
    by_cases same : id = other
    · subst same
      exact ⟨fun _ => ⟨lower, fun found => found.1 rfl⟩, fun _ => .inr rfl⟩
    · constructor
      · intro free
        have ⟨lower, apart⟩ := free.resolve_right same
        exact ⟨lower, fun found => apart found.2⟩
      · intro ⟨lower, apart⟩
        exact .inl ⟨lower, fun member => apart ⟨Ne.symm same, member⟩⟩

theorem bootPool_exact : bootPool.Exact where
  distinct := List.nodup_nil
  inside := fun _ member => nomatch member
  bits := fun id => by
    show tidFree initialTidBitmap id = true ↔ _ ∧ id ∉ []
    rw [tidFree_initial, decide_eq_true_iff]
    exact (and_iff_left List.not_mem_nil).symm

section Results

variable {events : List TidEvent} (run : Run TidStep bootPool events s)

include run

theorem exact_of_run : s.Exact :=
  run.invariant TidPool.Exact (fun _ _ _ held step => step.keeps_exact held) bootPool_exact

/-- Outstanding ids are pairwise distinct and never 0; an id is returned only while it is not outstanding, and
once freed it is free for the next search, which returns it or one before it. -/
theorem tids_unique : s.outstanding.Nodup ∧ 0 ∉ s.outstanding ∧
    (∀ id s', TidStep s (.got id) s' → 1 ≤ id ∧ id < maxTid ∧ id ∉ s.outstanding) ∧
    ∀ id s', TidStep s (.freed id) s' → tidFree s'.bitmap id = true ∧ id ∉ s'.outstanding ∧
      ∃ next s'', TidStep s' (.got next) s'' ∧ next ≤ id := by
  have exact_ := exact_of_run run
  refine ⟨exact_.distinct, fun zero => ?_, fun id s' step => ?_, fun id s' step => ?_⟩
  · exact absurd (exact_.inside 0 zero).1 (Nat.lt_irrefl 0)
  · cases step with
    | got done =>
      have issued := getUnusedTid_spec done
      exact ⟨Nat.pos_of_ne_zero (issued.notReserved rfl), issued.small, ((exact_.bits id).mp issued.wasFree).2⟩
  · have after := step.keeps_exact exact_
    cases step with
    | freed held =>
      have ⟨positive, small, lower⟩ := exact_.inside id held
      have gone : id ∉ s.outstanding.erase id := exact_.distinct.not_mem_erase
      have free := (after.bits id).mpr ⟨lower, gone⟩
      have ⟨next, _, done, before⟩ := getUnusedTid_le positive small free
      exact ⟨free, gone, next, _, .got done, before⟩

/-- A refusal means that all ids are outstanding as long as one of those in the lower half of a word is not: the
others are never handed out. -/
theorem exhaustion_real_iff :
    (getUnusedTid s.bitmap true = none → ∀ id, 1 ≤ id → id < maxTid → id ∈ s.outstanding) ↔
      ∃ id, 1 ≤ id ∧ id < maxTid ∧ id % 64 < 32 ∧ id ∉ s.outstanding := by
  have exact_ := exact_of_run run
  constructor
  · intro real
    by_contra all
    have refused : getUnusedTid s.bitmap true = none := by
      apply getUnusedTid_eq_none.mpr
      intro id positive small
      by_contra free
      have ⟨lower, apart⟩ := (exact_.bits id).mp (Bool.eq_true_of_not_eq_false free)
      exact all ⟨id, positive, small, lower, apart⟩
    have upper := exact_.inside 32 (real refused 32 (by decide) (by decide))
    exact absurd upper.2.2 (by decide)
  · intro ⟨id, positive, small, lower, apart⟩ refused
    have taken := getUnusedTid_eq_none.mp refused id positive small
    cases taken.symm.trans ((exact_.bits id).mpr ⟨lower, apart⟩)

end Results

/-- Two ids are handed out, the first is freed and handed out again. -/
theorem tids_unique_reuse : ∃ s, Run TidStep bootPool [.got 1, .got 2, .freed 1, .got 1] s ∧ s.outstanding = [1, 2] ∧
    s.outstanding.Nodup ∧ 0 ∉ s.outstanding := by
  have run : Run TidStep bootPool [.got 1, .got 2, .freed 1, .got 1] _ :=
    .cons (.got getUnusedTid_initial) <| .cons (.got (getUnusedTid_of_scan (by decide +kernel))) <|
      .cons (.freed (by decide)) <| .single (.got (getUnusedTid_of_scan (by decide +kernel)))
  have ⟨distinct, zero, _⟩ := tids_unique run
  exact ⟨_, run, rfl, distinct, zero⟩

theorem exhaustion_real_iff_one : ∃ s, Run TidStep bootPool [.got 1] s ∧
    (getUnusedTid s.bitmap true = none → ∀ id, 1 ≤ id → id < maxTid → id ∈ s.outstanding) := by
  have run : Run TidStep bootPool [.got 1] _ := .single (.got getUnusedTid_initial)
  exact ⟨_, run, (exhaustion_real_iff run).mpr ⟨2, by decide, by decide, by decide, by decide⟩⟩

/-- Calls without frees come to an end. -/
theorem run_until_refused {room : Nat} (exact_ : s.Exact) (bound : maxTid ≤ s.outstanding.length + room) :
    ∃ events s', Run TidStep s events s' ∧ s'.Exact ∧ getUnusedTid s'.bitmap true = none := by
  induction room generalizing s with
  | zero =>
    -- with 0 there would be more than `maxTid` ids
    have distinct : (0 :: s.outstanding).Nodup := by
      refine List.nodup_cons.mpr ⟨fun zero => ?_, exact_.distinct⟩
      exact absurd (exact_.inside 0 zero).1 (Nat.lt_irrefl 0)
    have inside : 0 :: s.outstanding ⊆ List.range maxTid := by
      intro id member
      rcases List.mem_cons.mp member with zero | member
      · rw [zero]
        exact List.mem_range.mpr (by decide)
      · exact List.mem_range.mpr (exact_.inside id member).2.1
    have few := (List.subperm_of_subset distinct inside).length_le
    rw [List.length_cons, List.length_range] at few
    omega
  | succ room ih =>
    cases found : getUnusedTid s.bitmap true with
    | none => exact ⟨[], s, .nil s, exact_, found⟩
    | some result =>
      have step : TidStep s (.got result.1) ⟨result.2, result.1 :: s.outstanding⟩ := .got found
      have ⟨events, s', run, after, refused⟩ := ih (step.keeps_exact exact_) (by
        rw [List.length_cons]
        omega)
      exact ⟨_, s', .cons step run, after, refused⟩

/-- After 8191 calls the search fails, and 32 is not outstanding. -/
theorem upper_half_never_issued : ∃ events s, Run TidStep bootPool events s ∧ getUnusedTid s.bitmap true = none ∧
    1 ≤ 32 ∧ 32 < maxTid ∧ 32 ∉ s.outstanding := by
  have ⟨events, s, run, exact_, refused⟩ := run_until_refused bootPool_exact (Nat.le_add_left maxTid 0)
  refine ⟨events, s, run, refused, by decide, by decide, fun held => ?_⟩
  exact absurd (exact_.inside 32 held).2.2 (by decide)

end CreeperKernel.Sched

import CreeperKernel.WordBitmap

namespace CreeperKernel.Sched

def maxTid : Nat := 16384
def tidBitmapSize : Nat := maxTid / 64

/-- `tid_bitmap`; a set bit marks a free id. -/
abbrev TidBitmap := Nat → BitVec 64

/-- The initialiser sets only the lower 32 bits of each word. -/
def initialTidBitmap : TidBitmap := fun _ => 0xFFFFFFFF

def tidFree (bitmap : TidBitmap) (id : Nat) : Bool := WordBitmap.test bitmap id

/-- The inner loop of `_get_unused_tid` over the next `n` bits of word `i`. -/
def scanBits (bitmap : TidBitmap) (tid0Used : Bool) (i : Nat) : Nat → Nat → Option Nat
  | 0, _ => none
  | n + 1, j =>
    if tid0Used ∧ i = 0 ∧ j = 0 then scanBits bitmap tid0Used i n (j + 1)
    else if (bitmap i).getLsbD j then some (i * 64 + j)
    else scanBits bitmap tid0Used i n (j + 1)

/-- The outer loop over the next `n` words. `tid_bitmap_curr` is never written, so
both loops start at 0. -/
def scanTids (bitmap : TidBitmap) (tid0Used : Bool) : Nat → Nat → Option Nat
  | 0, _ => none
  | n + 1, i =>
    if bitmap i = 0 then scanTids bitmap tid0Used n (i + 1)
    else (scanBits bitmap tid0Used i 64 0).or (scanTids bitmap tid0Used n (i + 1))

/-- `_get_unused_tid`; `none` is the result -1. -/
def getUnusedTid (bitmap : TidBitmap) (tid0Used : Bool) : Option (Nat × TidBitmap) :=
  (scanTids bitmap tid0Used tidBitmapSize 0).map fun id => (id, WordBitmap.clear bitmap id)

def freeTid (bitmap : TidBitmap) (tid : Nat) : TidBitmap :=
  if tidBitmapSize ≤ tid / 64 then bitmap else WordBitmap.set bitmap tid

variable {tid0Used : Bool} {id i n tid : Nat} {bitmap : TidBitmap}

theorem scanBits_spec {j : Nat} (fits : j + n ≤ 64) (found : scanBits bitmap tid0Used i n j = some id) :
    id / 64 = i ∧ tidFree bitmap id = true ∧ (tid0Used = true → id ≠ 0) := by
  induction n generalizing j with
  | zero => cases found
  | succ n ih =>
    unfold scanBits at found
    split at found
    · exact ih (by omega) found
    · rename_i reserved
      split at found
      · rename_i bit
        cases found
        have word : (i * 64 + j) / 64 = i := by omega
        have place : (i * 64 + j) % 64 = j := by omega
        refine ⟨word, ?_, fun used zero => reserved ⟨used, by omega, by omega⟩⟩
        rw [tidFree, WordBitmap.test, word, place]
        exact bit
      · exact ih (by omega) found

theorem scanTids_spec (found : scanTids bitmap tid0Used n i = some id) :
    id / 64 < i + n ∧ tidFree bitmap id = true ∧ (tid0Used = true → id ≠ 0) := by
  induction n generalizing i with
  | zero => cases found
  | succ n ih =>
    have later : scanTids bitmap tid0Used n (i + 1) = some id →
        id / 64 < i + (n + 1) ∧ tidFree bitmap id = true ∧ (tid0Used = true → id ≠ 0) := by
      intro rest
      obtain ⟨below, others⟩ := ih rest
      exact ⟨by omega, others⟩
    unfold scanTids at found
    split at found
    · exact later found
    · rcases Option.or_eq_some_iff.mp found with here | ⟨-, rest⟩
      · obtain ⟨word, others⟩ := scanBits_spec (Nat.le_refl 64) here
        exact ⟨by omega, others⟩
      · exact later rest

/-- An id that was free is marked as taken. -/
structure Issued (bitmap : TidBitmap) (tid0Used : Bool) (id : Nat) (bitmap' : TidBitmap) : Prop where
  small : id < maxTid
  wasFree : tidFree bitmap id = true
  notReserved : tid0Used = true → id ≠ 0
  marked : ∀ other, tidFree bitmap' other = (tidFree bitmap other && !decide (id = other))

theorem getUnusedTid_spec {bitmap' : TidBitmap} (done : getUnusedTid bitmap tid0Used = some (id, bitmap')) :
    Issued bitmap tid0Used id bitmap' := by
  obtain ⟨found, scanned, same⟩ := Option.map_eq_some_iff.mp done
  cases same
  obtain ⟨below, free, reserved⟩ := scanTids_spec scanned
  refine ⟨?_, free, reserved, fun other => WordBitmap.test_clear (by decide) bitmap id other⟩
  simp only [tidBitmapSize, maxTid] at below ⊢
  omega

theorem getUnusedTid_of_scan {bitmap : TidBitmap} {id : Nat} (found : scanTids bitmap true tidBitmapSize 0 = some id) :
    getUnusedTid bitmap true = some (id, WordBitmap.clear bitmap id) := by
  rw [getUnusedTid, found]
  rfl

theorem getUnusedTid_initial : getUnusedTid initialTidBitmap true = some (1, WordBitmap.clear initialTidBitmap 1) :=
  getUnusedTid_of_scan (by decide +kernel)

theorem tidFree_freeTid (bitmap : TidBitmap) (small : tid < maxTid) (other : Nat) :
    tidFree (freeTid bitmap tid) other = (tidFree bitmap other || decide (tid = other)) := by
  have inside : ¬ tidBitmapSize ≤ tid / 64 := by
    simp only [tidBitmapSize, maxTid] at small ⊢
    omega
  rw [freeTid, if_neg inside]
  exact WordBitmap.test_set (by decide) bitmap tid other

theorem tidFree_freeTid_of_ne (bitmap : TidBitmap) {other : Nat} (apart : tid ≠ other) :
    tidFree (freeTid bitmap tid) other = tidFree bitmap other := by
  unfold freeTid
  split
  · rfl
  · rw [tidFree, WordBitmap.test_set (by decide), decide_eq_false apart, Bool.or_false]
    rfl

end CreeperKernel.Sched

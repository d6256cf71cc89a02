import Mathlib.Data.BitVec
import Mathlib.Algebra.Order.Ring.Nat

/- Byte memory behind an address translation. Stores through an injective
translation behave like stores to the translated addresses themselves; words are
little-endian. -/
namespace CreeperKernel.MappedMemory

structure Space where
  translate : Nat → Option Nat
  bytes : Nat → BitVec 8

namespace Space

variable {s s' : Space} {a v : Nat}

def Injective (s : Space) : Prop :=
  ∀ a b place, s.translate a = some place → s.translate b = some place → a = b

def load (s : Space) (a : Nat) : Option (BitVec 8) := (s.translate a).map s.bytes

def store (s : Space) (a : Nat) (b : BitVec 8) : Option Space :=
  (s.translate a).map fun place => { s with bytes := Function.update s.bytes place b }

def byteOf (v n : Nat) : BitVec 8 := BitVec.ofNat 8 (v / 256 ^ n)

/-- The low `n` bytes of `v` go to the addresses from `a` on. -/
def storeBytes (s : Space) (a v : Nat) : Nat → Option Space
  | 0 => some s
  | n + 1 => (storeBytes s a v n).bind fun s => s.store (a + n) (byteOf v n)

def loadBytes (s : Space) (a : Nat) : Nat → Option Nat
  | 0 => some 0
  | n + 1 => (loadBytes s a n).bind fun low => (s.load (a + n)).map fun b => low + 256 ^ n * b.toNat

def storeWord (s : Space) (a v : Nat) : Option Space := s.storeBytes a v 8

def loadWord (s : Space) (a : Nat) : Option Nat := s.loadBytes a 8

/-- The low `n` bytes of `v` stand at `a`. -/
def Holds (s : Space) (a v n : Nat) : Prop := ∀ i < n, s.load (a + i) = some (byteOf v i)

variable {b : BitVec 8}

theorem store_translate (done : s.store a b = some s') : s'.translate = s.translate := by
  unfold store at done
  cases place : s.translate a with
  | none =>
    rw [place] at done
    cases done
  | some p =>
    rw [place] at done
    cases done
    rfl

theorem store_some (mapped : s.translate a ≠ none) : ∃ s', s.store a b = some s' := by
  cases place : s.translate a with
  | none => exact absurd place mapped
  | some p => exact ⟨_, by rw [store, place]; rfl⟩

theorem load_store (injective : s.Injective) (done : s.store a b = some s') (x : Nat) :
    s'.load x = if x = a then some b else s.load x := by
  unfold store at done
  cases place : s.translate a with
  | none =>
    rw [place] at done
    cases done
  | some p =>
    rw [place] at done
    cases done
    unfold load
    by_cases here : x = a
    · subst here
      simp [place]
    · simp only [here, ↓reduceIte]
      cases other : s.translate x with
      | none => rfl
      | some q =>
        have apart : q ≠ p := by
          rintro rfl
          exact here (injective x a q other place)
        simp [Function.update_of_ne apart]

theorem Injective.of_translate (injective : s.Injective) (same : s'.translate = s.translate) : s'.Injective := by
  unfold Injective at *
  rw [same]
  exact injective

variable {n : Nat}

theorem storeBytes_spec (injective : s.Injective) (mapped : ∀ i < n, s.translate (a + i) ≠ none) :
    ∃ s', s.storeBytes a v n = some s' ∧ s'.translate = s.translate ∧ s'.Holds a v n ∧
      ∀ x, (x < a ∨ a + n ≤ x) → s'.load x = s.load x := by
  induction n with
  | zero =>
    refine ⟨s, rfl, rfl, ?_, fun _ _ => rfl⟩
    intro i below
    omega
  | succ n ih =>
    obtain ⟨middle, stored, same, holds, others⟩ := ih fun i below => mapped i (by omega)
    obtain ⟨s', last⟩ := store_some (s := middle) (a := a + n) (b := byteOf v n)
      (by rw [same]; exact mapped n (by omega))
    have loads := load_store (injective.of_translate same) last
    refine ⟨s', ?_, (store_translate last).trans same, ?_, ?_⟩
    · rw [storeBytes, stored, Option.bind_some, last]
    · intro i below
      rw [loads]
      by_cases here : i = n
      · rw [here, if_pos rfl]
      · rw [if_neg (by omega)]
        exact holds i (by omega)
    · intro x outside
      rw [loads, if_neg (by omega)]
      exact others x (by omega)

theorem loadBytes_of_holds (holds : s.Holds a v n) : s.loadBytes a n = some (v % 256 ^ n) := by
  induction n with
  | zero => simp [loadBytes, Nat.mod_one]
  | succ n ih =>
    rw [loadBytes, ih fun i below => holds i (by omega), Option.bind_some,
      holds n (Nat.lt_succ_self n), Option.map_some, Nat.mod_pow_succ]
    rfl

theorem loadWord_of_holds (holds : s.Holds a v 8) (small : v < 2 ^ 64) : s.loadWord a = some v := by
  rw [loadWord, loadBytes_of_holds holds, Nat.mod_eq_of_lt]
  exact small

theorem Holds.congr (holds : s.Holds a v n) (same : ∀ i < n, s'.load (a + i) = s.load (a + i)) : s'.Holds a v n := by
  intro i below
  rw [same i below]
  exact holds i below

end Space

end CreeperKernel.MappedMemory

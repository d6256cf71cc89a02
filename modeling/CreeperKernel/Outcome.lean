import Mathlib.Logic.Basic

namespace CreeperKernel

/-- The `panic` calls of the modelled routines. -/
inductive Panic where
  /-- `pmm: out of memory` -/
  | pmmOutOfMemory
  /-- `vmm: vma_pool exhausted` -/
  | vmaPoolExhausted
  /-- `vmm: kernel VA space exhausted` -/
  | vaSpaceExhausted
  deriving DecidableEq, Repr

/-- How a kernel routine ends: it returns, it panics, it touches memory it may
not touch, or it never returns (a lock held by its own caller, a list that runs
in a circle). -/
inductive Outcome (α : Type) where
  | ok (value : α)
  | panic (reason : Panic)
  | fault
  | hang
  deriving DecidableEq, Repr

namespace Outcome

variable {α β : Type}

def bind (first : Outcome α) (next : α → Outcome β) : Outcome β :=
  match first with
  | ok value => next value
  | panic reason => panic reason
  | fault => fault
  | hang => hang

instance : Monad Outcome where
  pure := ok
  bind := bind

@[simp] theorem pure_eq (value : α) : (pure value : Outcome α) = ok value := rfl

@[simp] theorem ok_bind (value : α) (next : α → Outcome β) : (ok value >>= next) = next value := rfl

variable {first : Outcome α} {next : α → Outcome β}

theorem bind_eq_ok {result : β} : (first >>= next) = ok result ↔ ∃ value, first = ok value ∧ next value = ok result := by
  cases first with
  | ok value => simp
  | panic reason => exact ⟨fun h => (nomatch h), fun ⟨_, h, _⟩ => (nomatch h)⟩
  | fault => exact ⟨fun h => (nomatch h), fun ⟨_, h, _⟩ => (nomatch h)⟩
  | hang => exact ⟨fun h => (nomatch h), fun ⟨_, h, _⟩ => (nomatch h)⟩

theorem bind_assoc {γ : Type} (first : Outcome α) (next : α → Outcome β) (last : β → Outcome γ) :
    ((first >>= next) >>= last) = first >>= fun value => next value >>= last := by
  cases first with
  | ok value => rfl
  | panic reason => rfl
  | fault => rfl
  | hang => rfl

theorem bind_ne_hang (left : first ≠ hang) (right : ∀ value, next value ≠ hang) : (first >>= next) ≠ hang := by
  cases first with
  | ok value => exact right value
  | panic reason => exact fun stuck => (nomatch stuck)
  | fault => exact fun stuck => (nomatch stuck)
  | hang => exact absurd rfl left

end Outcome

end CreeperKernel

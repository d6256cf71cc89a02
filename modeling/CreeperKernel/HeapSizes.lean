import CreeperKernel.HeapInvariant

namespace CreeperKernel.Heap

theorem and_mask_mod (n : Nat) : n &&& 0xFFFFFFF8 = 8 * (n % 2 ^ 32 / 8) := by
  have low : (n % 2 ^ 32) &&& 0xFFFFFFF8 = n &&& 0xFFFFFFF8 := by
    have cut := Nat.and_mod_two_pow (a := n) (b := 0xFFFFFFF8) (n := 32)
    have small : n &&& 0xFFFFFFF8 < 2 ^ 32 := Nat.lt_of_le_of_lt Nat.and_le_right (by decide)
    rw [Nat.mod_eq_of_lt small, Nat.mod_eq_of_lt (show 0xFFFFFFF8 < 2 ^ 32 by decide)] at cut
    exact cut.symm
  rw [← low, and_mask_eq (Nat.mod_lt n (by decide))]

theorem alignUp8_mod (n : Nat) : alignUp8 n = 8 * ((n + 7) % 2 ^ 64 % 2 ^ 32 / 8) := by
  rw [alignUp8, and_mask_mod]

variable {size : Nat}

theorem fullSize_admitted (admitted : size ≤ 2 ^ 64 - 1 - headerSize) : fullSize size = 8 * ((size + 15) % 2 ^ 32 / 8) := by
  have whole : (size + headerSize) % 2 ^ 64 = size + 8 := Nat.mod_eq_of_lt (by rw [headerSize] at *; omega)
  rw [fullSize, whole, alignUp8_mod]
  omega

/-- The three computations of a block's size agree with one another and with the request. -/
structure SizesFit (size : Nat) : Prop where
  multiple : 8 ∣ fullSize size
  holds : size + headerSize ≤ fullSize size
  -- `requested_size` in `first_region_of_size_or_more(full_size)`
  requested : fullSize size ≤ fullSize (fullSize size)
  -- the block that `kfree_impl` returns for a header with this size
  freed : ∀ (h : State) (ptr : Nat), ptr ≠ 0 → h.space.loadWord (sub64 ptr headerSize) = some size →
    kfreeImpl h ptr =
      returnBlock h.map ⟨sub64 ptr headerSize, fullSize size⟩ >>= fun map => pure { h with map }

theorem eight_dvd_fullSize (size : Nat) : 8 ∣ fullSize size := by
  rw [fullSize, alignUp8_mod]
  exact Nat.dvd_mul_right 8 _

theorem kfreeImpl_of_header (admitted : size ≤ 2 ^ 64 - 1 - headerSize) (h : State) {ptr : Nat} (pointer : ptr ≠ 0)
    (header : h.space.loadWord (sub64 ptr headerSize) = some size) :
    kfreeImpl h ptr =
      returnBlock h.map ⟨sub64 ptr headerSize, fullSize size⟩ >>= fun map => pure { h with map } := by
  have positive : (size + headerSize) % 2 ^ 64 ≠ 0 := by
    rw [headerSize] at *
    omega
  unfold kfreeImpl
  rw [if_neg pointer, header]
  simp only [orFault, Outcome.ok_bind, if_neg positive]
  rfl

/-- The sizes agree exactly as long as the size that is searched for fits in 32 bits. -/
theorem heap_sizes_fit_iff (size : Nat) (admitted : size ≤ 2 ^ 64 - 1 - headerSize) :
    SizesFit size ↔ size + 23 < 2 ^ 32 := by
  have full := fullSize_admitted admitted
  have again : fullSize (fullSize size) = 8 * ((fullSize size + 15) % 2 ^ 32 / 8) := by
    apply fullSize_admitted
    rw [full, headerSize]
    omega
  constructor
  · intro fit
    have holds := fit.holds
    have requested := fit.requested
    rw [headerSize] at holds
    rw [again] at requested
    omega
  · intro small
    refine ⟨eight_dvd_fullSize size, ?_, ?_, fun h _ => kfreeImpl_of_header admitted h⟩
    · rw [full, headerSize]
      omega
    · rw [again]
      omega

theorem heap_sizes_fit_iff_page : SizesFit 4096 := (heap_sizes_fit_iff 4096 (by decide)).mpr (by decide)

/-- A read of 4 GiB less 15 bytes asks for a block that is rounded to nothing. -/
theorem four_gib_rounds_to_nothing : fullSize (2 ^ 32 - 15) = 0 ∧ ¬ SizesFit (2 ^ 32 - 15) := by
  have full : fullSize (2 ^ 32 - 15) = 0 := by decide
  refine ⟨full, fun fit => ?_⟩
  have holds := fit.holds
  rw [full] at holds
  exact absurd holds (by decide)

end CreeperKernel.Heap

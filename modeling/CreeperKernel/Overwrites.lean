import Mathlib.Data.List.Basic

/- Writing a block into a buffer. -/
namespace CreeperKernel.Overwrites

variable {α : Type*}

/-- The buffer after `payload` has been written to it from index `dst` on. -/
def overwrite (buf : List α) (dst : Nat) (payload : List α) : List α :=
  buf.take dst ++ payload ++ buf.drop (dst + payload.length)

variable {buf payload front : List α} {dst : Nat}

theorem length_overwrite (bound : dst + payload.length ≤ buf.length) : (overwrite buf dst payload).length = buf.length := by
  simp only [overwrite, List.length_append, List.length_take, List.length_drop]
  omega

theorem overwrite_before {back : List α} (bound : dst + front.length + back.length ≤ buf.length) :
    overwrite (overwrite buf (dst + front.length) back) dst front = overwrite buf dst (front ++ back) := by
  have first : (buf.take (dst + front.length)).length = dst + front.length := by
    rw [List.length_take]
    omega
  have head : (overwrite buf (dst + front.length) back).take dst = buf.take dst := by
    rw [overwrite, List.append_assoc, List.take_append_of_le_length (by omega), List.take_take]
    congr 1
    omega
  have tail : (overwrite buf (dst + front.length) back).drop (dst + front.length) =
      back ++ buf.drop (dst + front.length + back.length) := by
    rw [overwrite, List.append_assoc, List.drop_append_of_le_length (by omega), List.drop_of_length_le (by omega)]
    rfl
  rw [overwrite, head, tail, overwrite, List.length_append, ← Nat.add_assoc]
  simp only [List.append_assoc]

theorem take_overwrite {n : Nat} (start : dst ≤ buf.length) (bound : dst + payload.length ≤ n) :
    (overwrite buf dst payload).take n =
      buf.take dst ++ (payload ++ (buf.drop (dst + payload.length)).take (n - (dst + payload.length))) := by
  have front : (buf.take dst).length = dst := by
    rw [List.length_take]
    omega
  have written : (buf.take dst ++ payload).length = dst + payload.length := by
    rw [List.length_append, front]
  rw [overwrite, List.take_append, written, List.take_of_length_le (by omega), List.append_assoc]

theorem overwrite_full (full : payload.length = buf.length) : overwrite buf 0 payload = payload := by
  rw [overwrite, List.take_zero, List.nil_append, Nat.zero_add, full, List.drop_length, List.append_nil]

theorem overwrite_terminated {last : α} (room : buf.length = front.length + 1) :
    overwrite (overwrite buf front.length [last]) 0 front = front ++ [last] := by
  have joined : overwrite (overwrite buf (0 + front.length) [last]) 0 front = overwrite buf 0 (front ++ [last]) :=
    overwrite_before (by rw [List.length_singleton]; omega)
  rw [Nat.zero_add] at joined
  rw [joined, overwrite_full]
  rw [List.length_append, List.length_singleton, room]

end CreeperKernel.Overwrites

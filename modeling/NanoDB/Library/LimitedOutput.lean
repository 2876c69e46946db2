import Mathlib.Data.List.Basic
import Mathlib.Data.List.TakeDrop
import Mathlib.Data.Nat.Notation

/-!
An output that takes no more than a limit of items. Emitting in pieces or at once is the
same, so nested loops that stop at the limit give the first items of the list that they
would give without one.
-/
namespace LimitedOutput

variable {α β : Type} {limit : ℕ} {out xs ys : List α}

/-- The items go to the output until it holds `limit` of them. -/
def emit (limit : ℕ) (out xs : List α) : List α := out ++ xs.take (limit - out.length)

theorem emit_nil (limit : ℕ) (out : List α) : emit limit out [] = out := by
  simp [emit]

theorem emit_start (limit : ℕ) (xs : List α) : emit limit [] xs = xs.take limit := by
  simp [emit]

theorem emit_full (h : limit ≤ out.length) (xs : List α) : emit limit out xs = out := by
  have hzero : limit - out.length = 0 := by omega
  rw [emit, hzero, List.take_zero, List.append_nil]

theorem emit_singleton (h : out.length < limit) (x : α) : emit limit out [x] = out ++ [x] := by
  have hroom : [x].length ≤ limit - out.length := by
    rw [List.length_singleton]
    omega
  rw [emit, List.take_of_length_le hroom]

theorem length_emit (limit : ℕ) (out xs : List α) :
    (emit limit out xs).length = out.length + min (limit - out.length) xs.length := by
  rw [emit, List.length_append, List.length_take]

theorem emit_emit (limit : ℕ) (out xs ys : List α) :
    emit limit (emit limit out xs) ys = emit limit out (xs ++ ys) := by
  have hlen := length_emit limit out xs
  have hrest : limit - (emit limit out xs).length = limit - out.length - xs.length := by omega
  rw [emit, hrest, emit, emit, List.append_assoc, List.take_append]

/-- What comes behind enough items to reach the limit does not matter. -/
theorem emit_append_of_le (h : limit ≤ out.length + xs.length) (ys : List α) :
    emit limit out (xs ++ ys) = emit limit out xs := by
  rw [← emit_emit]
  apply emit_full
  rw [length_emit]
  omega

theorem le_length_emit (h : limit ≤ out.length + xs.length) :
    limit ≤ (emit limit out xs).length := by
  rw [length_emit]
  omega

/-- An output that is not full yet has taken everything. -/
theorem emit_eq_append (h : (emit limit out xs).length < limit) :
    emit limit out xs = out ++ xs := by
  have hlen := length_emit limit out xs
  rw [emit, List.take_of_length_le (by omega)]

end LimitedOutput

import Mathlib.Data.Nat.ModEq
import Mathlib.Tactic.Ring

/-!
# Little-endian numbers

A number as `w` bytes, the low one first: the byte at `i` is what is left of the number after a shift by
`8 * i`, cut to eight bits. The number is the bytes' sum at their places.
-/

namespace LittleEndian

/-- The low `w` bytes of `n`. -/
def put (w n : ℕ) : List UInt8 := (List.range w).map fun i ↦ UInt8.ofNat (n / 256 ^ i)

/-- The number that the bytes stand for. -/
def value (l : List UInt8) : ℕ := l.foldr (fun b acc ↦ b.toNat + 256 * acc) 0

@[simp] theorem length_put (w n : ℕ) : (put w n).length = w := by simp [put]

/-- The low byte, and the number without it. -/
theorem put_succ (w n : ℕ) : put (w + 1) n = UInt8.ofNat n :: put w (n / 256) := by
  have hdiv (i : ℕ) : n / 256 ^ (i + 1) = n / 256 / 256 ^ i := by
    rw [pow_succ', Nat.div_div_eq_div_mul]
  simp [put, List.range_succ_eq_map, Function.comp_def, hdiv]

/-- **What was put is what is read**, as far as the bytes go. -/
theorem value_put (w n : ℕ) : value (put w n) = n % 256 ^ w := by
  induction w generalizing n with
  | zero => simp [put, value, Nat.mod_one]
  | succ w ih =>
    have hcons (b : UInt8) (l : List UInt8) : value (b :: l) = b.toNat + 256 * value l := rfl
    rw [put_succ, hcons, ih, pow_succ', Nat.mod_mul]
    simp

theorem value_put_of_lt {w n : ℕ} (h : n < 256 ^ w) : value (put w n) = n := by
  rw [value_put, Nat.mod_eq_of_lt h]

end LittleEndian

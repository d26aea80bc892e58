import Mathlib.Data.Bool.Basic
import Mathlib.Data.Nat.Notation
import Mathlib.Logic.Function.Basic

/-!
# Steps of a bit mixer

The two steps that bit mixers are made of lose nothing. A word xored with itself shifted to the right
keeps its top bits, and each bit further down comes with one that is already known. A product with an
odd constant is taken back by the constant's inverse.
-/

namespace BitMix

variable {w : ℕ}

/-- **A word is known from its xor with itself shifted to the right.** -/
theorem xorShift_injective {k : ℕ} (hk : 0 < k) :
    Function.Injective fun x : BitVec w ↦ x ^^^ (x >>> k) := by
  intro x y h
  -- from the top down: `d` counts the places up to the width
  have hbit (d i : ℕ) (hd : w ≤ i + d) : x.getLsbD i = y.getLsbD i := by
    induction d generalizing i with
    | zero => rw [BitVec.getLsbD_of_ge x i hd, BitVec.getLsbD_of_ge y i hd]
    | succ d ih =>
      have hi : (x ^^^ (x >>> k)).getLsbD i = (y ^^^ (y >>> k)).getLsbD i := by
        rw [show x ^^^ (x >>> k) = y ^^^ (y >>> k) from h]
      rw [BitVec.getLsbD_xor, BitVec.getLsbD_xor, BitVec.getLsbD_ushiftRight,
        BitVec.getLsbD_ushiftRight, ih (k + i) (by omega)] at hi
      exact Bool.xor_left_inj.1 hi
  exact BitVec.eq_of_getLsbD_eq fun i _ ↦ hbit w i (by omega)

/-- A product with a constant that has an inverse. -/
theorem mul_injective {m m' : BitVec w} (h : m * m' = 1#w) :
    Function.Injective fun x : BitVec w ↦ x * m := by
  intro x y hxy
  have hxy : x * m = y * m := hxy
  calc x = x * m * m' := by rw [BitVec.mul_assoc, h, BitVec.mul_one]
    _ = y * m * m' := by rw [hxy]
    _ = y := by rw [BitVec.mul_assoc, h, BitVec.mul_one]

end BitMix

import Mathlib.Data.Nat.ModEq
import Mathlib.Tactic.Ring

/-!
# Varints

Seven bits of a number in each byte, the low ones first; all bytes but the last have their high bit set.
A reader for numbers of 64 bits takes ten bytes at most, and of the tenth only the lowest bit. Signed
numbers are folded into unsigned ones, so that small ones stay short: `0, -1, 1, -2, …`.
-/

namespace Varint

/-- The bytes of a number. -/
def put (n : ℕ) : List UInt8 :=
  if n < 128 then [UInt8.ofNat n] else UInt8.ofNat (n % 128 + 128) :: put (n / 128)
termination_by n

/-- Read from the byte at `i` on, with `x` read before. The result has the number of bytes read. -/
def getFrom (i x : ℕ) : List UInt8 → Option (ℕ × ℕ)
  | [] => none
  | b :: l =>
    if i = 10 then none
    else if b.toNat < 128 then
      if i = 9 ∧ 1 < b.toNat then none else some (x + b.toNat * 2 ^ (7 * i), i + 1)
    else getFrom (i + 1) (x + (b.toNat - 128) * 2 ^ (7 * i)) l

def get (l : List UInt8) : Option (ℕ × ℕ) := getFrom 0 0 l

theorem getFrom_put {i n : ℕ} (hi : i ≤ 9) (h : n * 2 ^ (7 * i) < 2 ^ 64) (x : ℕ)
    (rest : List UInt8) :
    getFrom i x (put n ++ rest) = some (x + n * 2 ^ (7 * i), i + (put n).length) := by
  induction n using Nat.strongRecOn generalizing i x with
  | ind n ih =>
    rw [put]
    split_ifs with hn
    · have hb : (UInt8.ofNat n).toNat = n := by
        rw [UInt8.toNat_ofNat']
        omega
      have hlast : ¬(i = 9 ∧ 1 < n) := by
        rintro ⟨rfl, hlt⟩
        omega
      rw [List.singleton_append, getFrom, if_neg (by omega), hb, if_pos hn, if_neg hlast]
      rfl
    · have hb : (UInt8.ofNat (n % 128 + 128)).toNat = n % 128 + 128 := by
        rw [UInt8.toNat_ofNat']
        omega
      have hpow : 2 ^ (7 * (i + 1)) = 128 * 2 ^ (7 * i) := by
        rw [Nat.mul_succ, pow_add]
        ring
      have hstep : n / 128 * 2 ^ (7 * (i + 1)) ≤ n * 2 ^ (7 * i) := by
        rw [hpow, ← Nat.mul_assoc]
        exact Nat.mul_le_mul_right _ (Nat.div_mul_le_self n 128)
      have hi' : i + 1 ≤ 9 := by
        have hlt : 2 ^ (7 * (i + 1)) < 2 ^ 64 := by
          rw [hpow]
          exact lt_of_le_of_lt (Nat.mul_le_mul_right _ (by omega)) h
        have := (Nat.pow_lt_pow_iff_right (by decide : 1 < 2)).1 hlt
        omega
      rw [List.cons_append, getFrom, if_neg (by omega), hb, if_neg (by omega),
        ih (n / 128) (by omega) hi' (lt_of_le_of_lt hstep h), List.length_cons]
      refine congrArg some (Prod.ext ?_ (by omega))
      have hsplit : n * 2 ^ (7 * i) = n % 128 * 2 ^ (7 * i) + n / 128 * 2 ^ (7 * (i + 1)) := by
        rw [hpow, ← Nat.mul_assoc, ← Nat.add_mul, Nat.mod_add_div']
      rw [Nat.add_sub_cancel, Nat.add_assoc, ← hsplit]

/-- **A number of 64 bits is read from its bytes**, whatever follows them. -/
theorem get_put {n : ℕ} (h : n < 2 ^ 64) (rest : List UInt8) :
    get (put n ++ rest) = some (n, (put n).length) := by
  have hget := getFrom_put (i := 0) (n := n) (by decide) (by simpa using h) 0 rest
  simpa [get] using hget

/-- The number that a signed one is written as. -/
def zigzag (x : ℤ) : ℕ := if x < 0 then (-2 * x - 1).toNat else (2 * x).toNat

def unzigzag (u : ℕ) : ℤ := if u % 2 = 1 then -(u / 2 : ℕ) - 1 else (u / 2 : ℕ)

theorem unzigzag_zigzag (x : ℤ) : unzigzag (zigzag x) = x := by
  unfold zigzag unzigzag
  split_ifs <;> omega

theorem zigzag_lt {x : ℤ} (h₁ : -2 ^ 63 ≤ x) (h₂ : x < 2 ^ 63) : zigzag x < 2 ^ 64 := by
  unfold zigzag
  split_ifs <;> omega

end Varint

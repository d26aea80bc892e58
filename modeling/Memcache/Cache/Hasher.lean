import Memcache.Lib.BitMix
import Memcache.Lib.LittleEndian
import Memcache.Policy.TinyLfu
import Mathlib.Data.Finite.Defs
import Mathlib.Data.Fintype.EquivFin

/-!
# The default hasher

A cache that is given no hasher draws two random words and hashes a key by its dynamic type: text and
bytes with SipHash under both words, numbers and truth values by xoring the first word in and mixing,
anything else with the hash of the runtime, which is a parameter here.

The mixer is a **bijection of the 64-bit words**, and an integer is widened to a word without loss, with
its sign where its type has one. So two integers of one type never share a hash, whatever the seed. A
defined type is none of the types the switch lists, whatever it is defined by, and goes to the runtime.
-/

namespace Memcache

/-! ### SipHash -/

/-- The four words of SipHash. -/
structure SipState where
  v0 : UInt64
  v1 : UInt64
  v2 : UInt64
  v3 : UInt64
deriving DecidableEq, Repr

def sipRound (s : SipState) : SipState :=
  let v0 := s.v0 + s.v1
  let v1 := ((s.v1 <<< 13) ||| (s.v1 >>> 51)) ^^^ v0
  let v0 := (v0 <<< 32) ||| (v0 >>> 32)
  let v2 := s.v2 + s.v3
  let v3 := ((s.v3 <<< 16) ||| (s.v3 >>> 48)) ^^^ v2
  let v0 := v0 + v3
  let v3 := ((v3 <<< 21) ||| (v3 >>> 43)) ^^^ v0
  let v2 := v2 + v1
  let v1 := ((v1 <<< 17) ||| (v1 >>> 47)) ^^^ v2
  let v2 := (v2 <<< 32) ||| (v2 >>> 32)
  ⟨v0, v1, v2, v3⟩

/-- Take in one word, with two rounds. -/
def sipCompress (s : SipState) (m : UInt64) : SipState :=
  let s := sipRound (sipRound { s with v3 := s.v3 ^^^ m })
  { s with v0 := s.v0 ^^^ m }

/-- SipHash-2-4: the whole words of the data, then what is left of it below the length. -/
def sipHash24 (k0 k1 : UInt64) (data : List UInt8) : UInt64 :=
  let s : SipState := ⟨k0 ^^^ 0x736f6d6570736575, k1 ^^^ 0x646f72616e646f6d,
    k0 ^^^ 0x6c7967656e657261, k1 ^^^ 0x7465646279746573⟩
  let s := (List.range (data.length / 8)).foldl
    (fun s i ↦ sipCompress s (.ofNat (LittleEndian.value ((data.drop (8 * i)).take 8)))) s
  let rest := data.drop (data.length - data.length % 8)
  let s := sipCompress s
    ((UInt64.ofNat data.length <<< 56) ||| UInt64.ofNat (LittleEndian.value rest))
  let s := sipRound (sipRound (sipRound (sipRound { s with v2 := s.v2 ^^^ 0xff })))
  s.v0 ^^^ s.v1 ^^^ s.v2 ^^^ s.v3

def hashString (k0 k1 : UInt64) (s : List UInt8) : UInt64 := sipHash24 k0 k1 s

/-! ### Keys by their dynamic type -/

/-- The integer types of the switch. -/
inductive IntType where
  | int | int8 | int16 | int32 | int64
  | uint | uint8 | uint16 | uint32 | uint64 | uintptr
deriving DecidableEq, Repr

namespace IntType

/-- The width of a type, on a machine with words of 64 bits or of 32. -/
def bits (wide : Bool) : IntType → ℕ
  | .int | .uint | .uintptr => if wide then 64 else 32
  | .int8 | .uint8 => 8
  | .int16 | .uint16 => 16
  | .int32 | .uint32 => 32
  | .int64 | .uint64 => 64

def signed : IntType → Bool
  | .int | .int8 | .int16 | .int32 | .int64 => true
  | _ => false

/-- The conversion `uint64(v)`. -/
def toUint64 {wide : Bool} (t : IntType) (v : BitVec (t.bits wide)) : UInt64 :=
  ⟨if t.signed then v.signExtend 64 else v.setWidth 64⟩

theorem bits_le (wide : Bool) (t : IntType) : t.bits wide ≤ 64 := by
  cases t <;> cases wide <;> decide

/-- **Widening loses nothing**: the low bits are the integer. -/
theorem toUint64_injective {wide : Bool} (t : IntType) :
    Function.Injective (t.toUint64 : BitVec (t.bits wide) → UInt64) := by
  have hlow (v : BitVec (t.bits wide)) : (t.toUint64 v).toBitVec.setWidth (t.bits wide) = v := by
    refine BitVec.eq_of_getLsbD_eq fun i hi ↦ ?_
    have hi' : i < 64 := hi.trans_le (t.bits_le wide)
    rw [BitVec.getLsbD_setWidth, toUint64]
    split
    · simp [BitVec.getElem_signExtend, hi, hi']
    · simp [hi, hi']
  intro v v' h
  rw [← hlow v, h, hlow]

end IntType

/-- A key by the case of the switch it takes. Floats are given by their bits. -/
inductive AnyKey (wide : Bool) (α : Type*) where
  | string (v : List UInt8)
  | bytes (v : List UInt8)
  | int (t : IntType) (v : BitVec (t.bits wide))
  | bool (v : Bool)
  | float64 (v : UInt64)
  | float32 (v : UInt32)
  | other (v : α)

/-- The hash of a key under the two words drawn; `comparable` is the runtime's hash. -/
def defaultHasher {wide : Bool} {α : Type*} (k0 k1 : UInt64) (comparable : α → UInt64) :
    AnyKey wide α → UInt64
  | .string v => hashString k0 k1 v
  | .bytes v => sipHash24 k0 k1 v
  | .int t v => mixUint64 (t.toUint64 v ^^^ k0)
  | .bool v => if v then mixUint64 (1 ^^^ k0) else mixUint64 k0
  -- the two zeros are equal keys, and differ in the top bit
  | .float64 v => mixUint64 ((if v <<< 1 = 0 then 0 else v) ^^^ k0)
  | .float32 v => mixUint64 ((if v <<< 1 = 0 then 0 else v).toUInt64 ^^^ k0)
  | .other v => comparable v

/-! ### No collisions -/

/-- **The mixer is a bijection**: each of its steps can be taken back. -/
theorem mixUint64_bijective : Function.Bijective mixUint64 := by
  have hfinite : Finite UInt64 := .of_injective UInt64.toFin fun _ _ ↦ UInt64.toFin_inj.1
  refine Finite.injective_iff_bijective.1 fun x y h ↦ UInt64.toBitVec_inj.1 ?_
  -- three shifts with the two products between them
  set shift : ℕ → BitVec 64 → BitVec 64 := fun k z ↦ z ^^^ (z >>> k) with hshift
  have hsteps (x : UInt64) : (mixUint64 x).toBitVec = shift 31
      (shift 27 (shift 30 x.toBitVec * 0xbf58476d1ce4e5b9#64) * 0x94d049bb133111eb#64) := by
    simp [mixUint64, hshift]
  have h : (mixUint64 x).toBitVec = (mixUint64 y).toBitVec := congrArg UInt64.toBitVec h
  rw [hsteps, hsteps] at h
  have h₂ : 0x94d049bb133111eb#64 * 0x319642b2d24d8ec3#64 = 1#64 := by decide
  have h₁ : 0xbf58476d1ce4e5b9#64 * 0x96de1b173f119089#64 = 1#64 := by decide
  exact BitMix.xorShift_injective (by decide) (BitMix.mul_injective h₁
    (BitMix.xorShift_injective (by decide) (BitMix.mul_injective h₂
      (BitMix.xorShift_injective (by decide) h))))

/-- **Two integers of one type never have the same hash**, under any seed: the mixer is a bijection of
the 64-bit words, and the default hasher is injective on each integer type. -/
theorem defaultHasher_injective :
    Function.Bijective mixUint64 ∧ ∀ {wide : Bool} {α : Type*} (k0 k1 : UInt64)
      (comparable : α → UInt64) (t : IntType), Function.Injective fun v : BitVec (t.bits wide) ↦
        defaultHasher k0 k1 comparable (.int t v) := by
  refine ⟨mixUint64_bijective, fun k0 k1 comparable t v v' h ↦ ?_⟩
  have hxor : t.toUint64 v ^^^ k0 = t.toUint64 v' ^^^ k0 := mixUint64_bijective.1 h
  exact t.toUint64_injective ((UInt64.xor_left_inj k0).1 hxor)

end Memcache

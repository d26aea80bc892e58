import Mathlib.Tactic
import Memcache.Lib.LittleEndian
import Memcache.Lib.Reading

/-!
# Fields of a snapshot

A snapshot is read field by field by `snapReader`, which never takes more than a budget of bytes, and by
the codecs, which never inflate more than another. A length that runs past what is left of the first
fails **before anything is allocated for it**.

Strings are bytes. Buffers made for fields, and bytes inflated, are logged for what is said of them; no
field is read differently for it.
-/

namespace Memcache

open LittleEndian (length_put value put)

abbrev Bytes := List UInt8

/-- The bytes of a literal. -/
def ascii (s : String) : Bytes := s.toList.map fun c ↦ UInt8.ofNat c.toNat

/-- `math.MaxInt64`. -/
def maxInt64 : ℕ := 2 ^ 63 - 1

/-! ### Errors -/

inductive CodecOp where
  | marshal
  | unmarshal
deriving DecidableEq

/-- What a codec finds wrong. -/
inductive CodecCause where
  | rawCodecNotBytes
  | rawCodecKey
  | rawCodecKeyInvalid
  | encryptTooLarge
  | encryptShortCiphertext
  | authentication
  | random
  | gzip
  | inflateTooLarge
  /-- An error of a base codec. -/
  | base (text : String)
deriving DecidableEq

structure CodecError where
  op : CodecOp
  codec : Bytes
  err : CodecCause
deriving DecidableEq

/-- What an error of `Save` or `Load` is about. -/
inductive SnapshotCause where
  | incompatible
  | encryptedLegacy
  | corrupt
  | tooLarge
  /-- Joined with `corrupt`. -/
  | fieldPastEnd
  | fieldTooBig
  | tooManyTags
  | eof
  | unexpectedEOF
  /-- Joined with `tooLarge` when it is about inflating too much. -/
  | codec (e : CodecError)
  /-- An error of a value that marshals itself. -/
  | custom (text : String)
deriving DecidableEq

inductive SnapshotOp where
  | save
  | load
deriving DecidableEq

structure SnapshotError where
  op : SnapshotOp
  offset : ℕ
  message : String
  err : SnapshotCause
deriving DecidableEq

/-- A size limit was hit. -/
def SnapshotCause.isLimit : SnapshotCause → Bool
  | .tooLarge | .fieldPastEnd => true
  | .codec e => e.err = .inflateTooLarge
  | _ => false

/-! ### The reader -/

/-- `snapReader`: what is left of the input, the bytes hashed and those captured, the bytes it may still
take, and the offset for errors, which stays when it is pinned. -/
structure SnapReader where
  r : Bytes
  h : Option Bytes
  capture : Option Bytes
  left : ℕ
  off : ℕ
  pinned : Bool

namespace SnapReader

/-- The reader after it has taken bytes. -/
def feed (sr : SnapReader) (b : Bytes) : SnapReader where
  r := sr.r.drop b.length
  h := sr.h.map (· ++ b)
  capture := sr.capture.map (· ++ b)
  left := sr.left - b.length
  off := if sr.pinned then sr.off else sr.off + b.length
  pinned := sr.pinned

@[simp] theorem feed_nil (sr : SnapReader) : sr.feed [] = sr := by
  obtain ⟨r, h, capture, left, off, pinned⟩ := sr
  cases h <;> cases capture <;> simp [feed]

theorem feed_feed (sr : SnapReader) (a b : Bytes) : (sr.feed a).feed b = sr.feed (a ++ b) := by
  obtain ⟨r, h, capture, left, off, pinned⟩ := sr
  cases h <;> cases capture <;> cases pinned <;>
    simp [feed, Nat.add_assoc, Nat.sub_sub]

def fail (sr : SnapReader) (message : String) (err : SnapshotCause) : SnapshotError :=
  ⟨.load, sr.off, message, err⟩

end SnapReader

/-- The state of a load: the reader, and what `loadState` may still inflate. `allocs` has each buffer
made for a field with the bytes that were left, `inflated` the bytes that came out of `gzip`. -/
structure Loading where
  sr : SnapReader
  inflateLeft : ℕ
  allocs : List (ℕ × ℕ)
  inflated : ℕ

/-- Reading a field. -/
abbrev Field (α : Type) := Reading Loading SnapshotCause α

/-- Reading a part of a snapshot. -/
abbrev Load (α : Type) := Reading Loading SnapshotError α

namespace Field

/-- Fill a buffer of `n` bytes. At the end of the input the reader has taken what there was. -/
def read (n : ℕ) : Field Bytes := fun s ↦
  if s.sr.left < n then (.error .fieldPastEnd, s)
  else if s.sr.r.length < n then
    (.error (if s.sr.r = [] then .eof else .unexpectedEOF), { s with sr := s.sr.feed s.sr.r })
  else (.ok (s.sr.r.take n), { s with sr := s.sr.feed (s.sr.r.take n) })

/-- Read `n` bytes into a new buffer. -/
def take (n : ℕ) : Field Bytes := fun s ↦
  if s.sr.left < n then (.error .fieldPastEnd, s)
  else read n { s with allocs := s.allocs ++ [(n, s.sr.left)] }

/-- Make a map for `n` pairs that the input claims, which are 8 bytes each or more. -/
def makeMap (n : ℕ) : Field Unit := fun s ↦
  (.ok (), { s with allocs := s.allocs ++ [(min n (s.sr.left / 8), s.sr.left)] })

def u8 : Field UInt8 := do
  let b ← read 1
  pure (UInt8.ofNat (value b))

def u16 : Field UInt16 := do
  let b ← read 2
  pure (UInt16.ofNat (value b))

def u32 : Field UInt32 := do
  let b ← read 4
  pure (UInt32.ofNat (value b))

def u64 : Field UInt64 := do
  let b ← read 8
  pure (UInt64.ofNat (value b))

def i64 : Field Int64 := do
  let v ← u64
  pure v.toInt64

/-- A field with its length before it. -/
def bytes : Field Bytes := do
  let n ← u32
  if n = 0 then pure [] else take n.toNat

def str : Field Bytes := bytes

/-- Report an error of the field. -/
def orFail {α : Type} (message : String) (p : Field α) : Load α :=
  p.mapError fun s e ↦ s.sr.fail message e

end Field

/-! ### The fields as they are written -/

namespace Wire

def u8 (x : UInt8) : Bytes := put 1 x.toNat

def u16 (x : UInt16) : Bytes := put 2 x.toNat

def u32 (x : UInt32) : Bytes := put 4 x.toNat

def u64 (x : UInt64) : Bytes := put 8 x.toNat

def i64 (x : Int64) : Bytes := u64 x.toUInt64

theorem length_u32 (x : UInt32) : (u32 x).length = 4 := length_put ..

/-- `writeBytes` and `writeString`: a length, and the payload. -/
def field (b : Bytes) : Except SnapshotCause Bytes :=
  if 2 ^ 31 - 1 < b.length then .error .fieldTooBig
  else .ok (u32 (UInt32.ofNat b.length) ++ b)

end Wire

/-! ### Portions -/

/-- What a load uses up: bytes of the input, and bytes inflated. -/
@[ext] structure Portion where
  bytes : Bytes
  cost : ℕ

namespace Portion

instance : Monoid Portion where
  one := ⟨[], 0⟩
  mul a b := ⟨a.bytes ++ b.bytes, a.cost + b.cost⟩
  one_mul a := Portion.ext rfl (Nat.zero_add _)
  mul_one a := Portion.ext (List.append_nil _) rfl
  mul_assoc a b c := Portion.ext (List.append_assoc ..) (Nat.add_assoc ..)

@[simp] theorem one_bytes : (1 : Portion).bytes = [] := rfl

@[simp] theorem mul_bytes (a b : Portion) : (a * b).bytes = a.bytes ++ b.bytes := rfl

@[simp] theorem mul_cost (a b : Portion) : (a * b).cost = a.cost + b.cost := rfl

/-- Bytes of the input alone. -/
def plain (b : Bytes) : Portion := ⟨b, 0⟩

theorem plain_mul (a b : Bytes) : plain a * plain b = plain (a ++ b) := rfl

end Portion

namespace Loading

open Reading

/-- A load starts with what its input begins with. A codec that inflates asks for one byte more than its
budget, so the budget must have a successor. -/
structure Starts (s : Loading) (m : Portion) : Prop where
  input : m.bytes <+: s.sr.r
  bounded : 0 < m.cost → s.inflateLeft < maxInt64

/-- It gives it within both budgets. -/
structure Gives (s : Loading) (m : Portion) : Prop extends Starts s m where
  bytes : m.bytes.length ≤ s.sr.left
  cost : m.cost ≤ s.inflateLeft

structure After (s : Loading) (m : Portion) (s' : Loading) : Prop where
  sr : s'.sr = s.sr.feed m.bytes
  inflateLeft : s'.inflateLeft = s.inflateLeft - m.cost

theorem Starts.left {s : Loading} {m m' : Portion} (h : s.Starts (m * m')) : s.Starts m :=
  ⟨(List.prefix_append ..).trans h.input, fun hpos ↦ h.bounded (Nat.add_pos_left hpos _)⟩

theorem Starts.right {s s' : Loading} {m m' : Portion} (h : s.Starts (m * m')) (hafter : s.After m s') :
    s'.Starts m' := by
  obtain ⟨rest, hrest⟩ := h.input
  refine ⟨⟨rest, ?_⟩, fun hpos ↦ ?_⟩
  · rw [hafter.sr]
    show _ = s.sr.r.drop m.bytes.length
    rw [← hrest, Portion.mul_bytes, List.append_assoc, List.drop_left]
  · have := h.bounded (Nat.add_pos_right _ hpos)
    rw [hafter.inflateLeft]
    omega

theorem After.left_eq {s s' : Loading} {m : Portion} (h : s.After m s') :
    s'.sr.left = s.sr.left - m.bytes.length :=
  congrArg SnapReader.left h.sr

def source : Source Loading Portion where
  starts := Starts
  gives := Gives
  after := After
  after_one s := ⟨(SnapReader.feed_nil _).symm, rfl⟩
  after_mul h h' := by
    refine ⟨?_, ?_⟩
    · rw [h'.sr, h.sr, SnapReader.feed_feed, Portion.mul_bytes]
    · rw [h'.inflateLeft, h.inflateLeft, Nat.sub_sub, Portion.mul_cost]
  starts_of_gives h := h.toStarts
  starts_left h := h.left
  starts_right h hafter := h.right hafter
  gives_one s := ⟨⟨List.nil_prefix, fun h ↦ absurd h (lt_irrefl 0)⟩, Nat.zero_le _, Nat.zero_le _⟩
  gives_left {s m m'} h := by
    have hbytes := h.bytes
    have hcost := h.cost
    simp only [Portion.mul_bytes, Portion.mul_cost, List.length_append] at hbytes hcost
    exact ⟨h.toStarts.left, by omega, by omega⟩
  gives_right {s s' m m'} h hafter := by
    have hbytes := h.bytes
    have hcost := h.cost
    simp only [Portion.mul_bytes, Portion.mul_cost, List.length_append] at hbytes hcost
    refine ⟨h.toStarts.right hafter, ?_, ?_⟩
    · rw [hafter.left_eq]
      omega
    · rw [hafter.inflateLeft]
      omega
  gives_mul {s s' m m'} hstart h hafter h' := by
    have hbytes := h.bytes
    have hcost := h.cost
    have hbytes' := h'.bytes
    have hcost' := h'.cost
    rw [hafter.left_eq] at hbytes'
    rw [hafter.inflateLeft] at hcost'
    refine ⟨hstart, ?_, ?_⟩
    · rw [Portion.mul_bytes, List.length_append]
      omega
    · rw [Portion.mul_cost]
      omega

/-- Bytes alone are given within the first budget. -/
theorem gives_plain {s : Loading} {b rest : Bytes} (hr : s.sr.r = b ++ rest) (hleft : b.length ≤ s.sr.left) :
    s.Gives (.plain b) :=
  ⟨⟨⟨rest, hr.symm⟩, fun h ↦ absurd h (lt_irrefl 0)⟩, hleft, Nat.zero_le _⟩

end Loading

/-! ### A field that was written is read -/

namespace Field

open Reading Loading

/-- A portion of bytes alone that a load starts with and does not give is too long. -/
theorem left_lt_of_not_gives {s : Loading} {b : Bytes} (hstart : s.Starts (.plain b))
    (hs : ¬ s.Gives (.plain b)) : s.sr.left < b.length := by
  by_contra hle
  exact hs ⟨hstart, Nat.not_lt.1 hle, Nat.zero_le _⟩

theorem reads_read (b : Bytes) : Reads source (read b.length) (.plain b) b where
  ok s hs := by
    obtain ⟨rest, hrest⟩ : b <+: s.sr.r := hs.input
    have hleft : b.length ≤ s.sr.left := hs.bytes
    have htake : s.sr.r.take b.length = b := by rw [← hrest, List.take_left]
    have hlen : b.length ≤ s.sr.r.length := by
      rw [← hrest, List.length_append]
      omega
    refine ⟨{ s with sr := s.sr.feed b }, ?_, rfl, rfl⟩
    rw [read, if_neg (by omega), if_neg (by omega), htake]
  fails s hstart hs := ⟨.fieldPastEnd, s, if_pos (left_lt_of_not_gives hstart hs)⟩

theorem reads_take (b : Bytes) : Reads source (take b.length) (.plain b) b where
  ok s hs := by
    have hleft : b.length ≤ s.sr.left := hs.bytes
    obtain ⟨s', hread, hafter⟩ := (reads_read b).ok
      { s with allocs := s.allocs ++ [(b.length, s.sr.left)] } ⟨⟨hs.input, hs.bounded⟩, hs.bytes, hs.cost⟩
    refine ⟨s', ?_, hafter.sr, hafter.inflateLeft⟩
    rw [take, if_neg (by omega), hread]
  fails s hstart hs := ⟨.fieldPastEnd, s, if_pos (left_lt_of_not_gives hstart hs)⟩

theorem reads_makeMap (n : ℕ) : Reads source (makeMap n) 1 () where
  ok _ _ := ⟨_, rfl, (SnapReader.feed_nil _).symm, rfl⟩
  fails s _ hs := absurd (source.gives_one s) hs

/-- A number of `w` bytes. -/
theorem reads_number {α : Type} {w n : ℕ} {f : ℕ → α} {x : α} (hn : n < 256 ^ w) (hf : f n = x) :
    Reads source (do let b ← read w; pure (f (value b))) (.plain (put w n)) x := by
  have hread := reads_read (put w n)
  rw [length_put] at hread
  refine hread.map ?_
  rw [LittleEndian.value_put_of_lt hn, hf]

theorem reads_u8 (x : UInt8) : Reads source u8 (.plain (Wire.u8 x)) x :=
  reads_number x.toNat_lt UInt8.ofNat_toNat

theorem reads_u16 (x : UInt16) : Reads source u16 (.plain (Wire.u16 x)) x :=
  reads_number x.toNat_lt UInt16.ofNat_toNat

theorem reads_u32 (x : UInt32) : Reads source u32 (.plain (Wire.u32 x)) x :=
  reads_number x.toNat_lt UInt32.ofNat_toNat

theorem reads_u64 (x : UInt64) : Reads source u64 (.plain (Wire.u64 x)) x :=
  reads_number x.toNat_lt UInt64.ofNat_toNat

theorem reads_i64 (x : Int64) : Reads source i64 (.plain (Wire.i64 x)) x :=
  (reads_u64 x.toUInt64).map (by rw [Int64.toInt64_toUInt64])

theorem reads_bytes {b w : Bytes} (hw : Wire.field b = .ok w) : Reads source bytes (.plain w) b := by
  unfold Wire.field at hw
  split_ifs at hw with hlen
  cases hw
  have hnat : (UInt32.ofNat b.length).toNat = b.length := by
    rw [UInt32.toNat_ofNat']
    omega
  rw [← Portion.plain_mul]
  refine (reads_u32 _).bind ?_
  split_ifs with hzero
  · have hb : b = [] := by
      have := congrArg UInt32.toNat hzero
      rw [hnat] at this
      exact List.length_eq_zero_iff.1 this
    subst hb
    exact .pure []
  · rw [hnat]
    exact reads_take b

theorem reads_str {b w : Bytes} (hw : Wire.field b = .ok w) : Reads source str (.plain w) b :=
  reads_bytes hw

end Field

end Memcache

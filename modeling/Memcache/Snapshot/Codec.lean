import Memcache.Lib.Varint
import Memcache.Snapshot.Format

/-!
# Codecs

A codec is a base codec under any number of layers that compress or encrypt. `Save` does not call it: it
takes the outermost layer that encrypts out of the stack, for the records as a whole, and walks the rest
itself, so that it can count what the layers compress; `Load` walks it back and counts what they inflate.

`gzip`, the cipher, the random source and the base codecs are parameters. What a base codec does to a
value depends on the value's Go type.
-/

namespace Memcache

open Reading

/-! ### What codecs are made of -/

/-- An authenticated cipher, by nonce, text and associated data. -/
structure AEAD where
  nonceSize : ℕ
  overhead : ℕ
  sealText : Bytes → Bytes → Bytes → Bytes
  openText : Bytes → Bytes → Bytes → Option Bytes

/-- The raw codec, and the others. -/
inductive BaseCodec (C : Type) where
  | raw
  | other (c : C)

inductive Codec (C : Type) where
  | base (b : BaseCodec C)
  /-- By value or by pointer. -/
  | compressed (pointer : Bool) (level : ℤ) (base : Codec C)
  | encrypted (gcm : AEAD) (base : Codec C)

/-- What the codecs are given: the names of the other base codecs, `gzip` at a level, its inverse, and a
random source. `gunzip` fails on a bad header; otherwise it gives bytes, and then ends well or fails. -/
structure CodecEnv (C : Type) where
  name : C → Bytes
  gzip : ℤ → Bytes → Bytes
  gunzip : Bytes → Option (Bytes × Bool)
  random : ℕ → (n : ℕ) → Option (Vector UInt8 n)

/-- What base codecs do to values of a Go type, and whether it is `[]byte`. -/
structure GoType (C T : Type) where
  marshal : C → T → Except String Bytes
  unmarshal : C → Bytes → Except String T
  bytes : Option (T ≃ Bytes)

variable {C T : Type} (env : CodecEnv C)

namespace BaseCodec

def name : BaseCodec C → Bytes
  | .raw => ascii "raw"
  | .other c => env.name c

def marshal (g : GoType C T) : BaseCodec C → T → Except CodecError Bytes
  | .raw, v =>
    match g.bytes with
    | some e => .ok (e v)
    | none => .error ⟨.marshal, ascii "raw", .rawCodecNotBytes⟩
  | .other c, v => (g.marshal c v).mapError fun text ↦ ⟨.marshal, env.name c, .base text⟩

def unmarshal (g : GoType C T) : BaseCodec C → Bytes → Except CodecError T
  | .raw, data =>
    match g.bytes with
    | some e => .ok (e.symm data)
    | none => .error ⟨.unmarshal, ascii "raw", .rawCodecNotBytes⟩
  | .other c, data => (g.unmarshal c data).mapError fun text ↦ ⟨.unmarshal, env.name c, .base text⟩

end BaseCodec

namespace Codec

def name (env : CodecEnv C) : Codec C → Bytes
  | .base b => b.name env
  | .compressed _ _ c => c.name env ++ ascii "+gzip"
  | .encrypted _ c => c.name env ++ ascii "+aes-256-gcm"

/-- An invalid level falls back to the default. -/
def compress (level : ℤ) (raw : Bytes) : Bytes :=
  env.gzip (if level < -2 ∨ 9 < level then -1 else level) raw

/-! ### The cipher -/

/-- AES-GCM's limit on a message. -/
def maxGCMPlaintext : ℕ := (2 ^ 32 - 2) * 16

/-- `seal` of the layer `encrypted gcm c`: the nonce, and the text. -/
def sealWith (gcm : AEAD) (c : Codec C) (plain ad : Bytes) : Saver Bytes := fun s ↦
  let failed (err : CodecCause) : Except SnapshotCause Bytes × Saving :=
    (.error (.codec ⟨.marshal, (Codec.encrypted gcm c).name env, err⟩), s)
  if maxGCMPlaintext < plain.length ∨ maxInt64 - gcm.nonceSize - gcm.overhead < plain.length then
    failed .encryptTooLarge
  else
    match env.random s.drawn gcm.nonceSize with
    | none => failed .random
    | some nonce =>
      (.ok (nonce.toList ++ gcm.sealText nonce.toList plain ad), { s with drawn := s.drawn + 1 })

/-- `open`. -/
def openWith (gcm : AEAD) (data ad : Bytes) : Except CodecCause Bytes :=
  if data.length < gcm.nonceSize then .error .encryptShortCiphertext
  else
    match gcm.openText (data.take gcm.nonceSize) (data.drop gcm.nonceSize) ad with
    | some plain => .ok plain
    | none => .error .authentication

def openField (gcm : AEAD) (c : Codec C) (data : Bytes) : Except CodecError Bytes :=
  (openWith gcm data []).mapError fun err ↦ ⟨.unmarshal, (Codec.encrypted gcm c).name env, err⟩

/-! ### The layers' own methods -/

/-- `Marshal`. -/
def marshal (env : CodecEnv C) (g : GoType C T) : Codec C → T → Saver Bytes
  | .base b, v => ofExcept ((b.marshal env g v).mapError .codec)
  | .compressed _ level c, v => do
    let raw ← c.marshal env g v
    pure (compress env level raw)
  | .encrypted gcm c, v => do
    let plain ← c.marshal env g v
    sealWith env gcm c plain []

/-- `Unmarshal`. -/
def unmarshal (env : CodecEnv C) (g : GoType C T) : Codec C → Bytes → Except CodecError T
  | .base b, data => b.unmarshal env g data
  | .compressed p level c, data =>
    match env.gunzip data with
    | some (raw, true) => c.unmarshal env g raw
    | _ => .error ⟨.unmarshal, (Codec.compressed p level c).name env, .gzip⟩
  | .encrypted gcm c, data => do
    let plain ← openField env gcm c data
    c.unmarshal env g plain

/-! ### The walks of `Save` and `Load` -/

/-- Count bytes against what may be compressed, so that `Save` fails where `Load` would. -/
def spend (n : ℕ) : Saver Unit := fun s ↦
  if s.inflateLeft < n then (.error .tooLarge, s)
  else (.ok (), { s with inflateLeft := s.inflateLeft - n })

/-- `saveState.encode`. -/
def encode (env : CodecEnv C) (g : GoType C T) : Codec C → T → Saver Bytes
  | .base b, v => ofExcept ((b.marshal env g v).mapError .codec)
  | .compressed _ level c, v => do
    let raw ← c.encode env g v
    spend raw.length
    pure (compress env level raw)
  | .encrypted gcm c, v => do
    let plain ← c.encode env g v
    sealWith env gcm c plain []

/-- How many bytes `inflate` asks for: one more than it may have, an `int64`. At the greatest `int64`
that wraps to a negative number, and nothing is read. -/
def inflateAsks (limit : ℕ) : ℕ := if limit < maxInt64 then limit + 1 else 0

/-- `inflate`, for `decodeCompressed` of the layer named. -/
def inflate (codec data : Bytes) : Field Bytes := fun s ↦
  let failed (err : CodecCause) (s : Loading) : Except SnapshotCause Bytes × Loading :=
    (.error (.codec ⟨.unmarshal, codec, err⟩), s)
  match env.gunzip data with
  | none => failed .gzip s
  | some (out, ends) =>
    let raw := out.take (inflateAsks s.inflateLeft)
    let s' := { s with inflated := s.inflated + raw.length }
    if ends = false ∧ out.length < inflateAsks s.inflateLeft then failed .gzip s'
    else if s.inflateLeft < raw.length then failed .inflateTooLarge s'
    else (.ok raw, { s' with inflateLeft := s.inflateLeft - raw.length })

/-- `loadState.decode`. -/
def decode (env : CodecEnv C) (g : GoType C T) : Codec C → Bytes → Field T
  | .base b, data => ofExcept ((b.unmarshal env g data).mapError .codec)
  | .compressed p level c, data => do
    let raw ← inflate env ((Codec.compressed p level c).name env) data
    c.decode env g raw
  | .encrypted gcm c, data => do
    let plain ← ofExcept ((openField env gcm c data).mapError .codec)
    c.decode env g plain

/-- The codec without a layer that encrypts, and that layer. Layers above it are copied as values. -/
def splitEncryption : Codec C → Codec C × Option (AEAD × Codec C)
  | .encrypted gcm c => (c, some (gcm, c))
  | .compressed p level c =>
    match c.splitEncryption with
    | (c', some enc) => (.compressed false level c', some enc)
    | (_, none) => (.compressed p level c, none)
  | .base b => (.base b, none)

def isRawCodec : Codec C → Bool
  | .base .raw => true
  | .base (.other _) => false
  | .compressed _ _ c => c.isRawCodec
  | .encrypted _ c => c.isRawCodec

end Codec

/-! ### Keys under a raw codec -/

/-- The widths of Go's integers. -/
inductive IntWidth where
  | w8
  | w16
  | w32
  | w64

def IntWidth.bits : IntWidth → ℕ
  | .w8 => 8
  | .w16 => 16
  | .w32 => 32
  | .w64 => 64

/-- The kind of a key's type, as far as a raw codec can tell. -/
inductive KeyKind (K : Type) where
  | string (e : K ≃ Bytes)
  | int (w : IntWidth) (e : K ≃ { n : ℤ // -2 ^ (w.bits - 1) ≤ n ∧ n < 2 ^ (w.bits - 1) })
  | uint (w : IntWidth) (e : K ≃ { n : ℕ // n < 2 ^ w.bits })
  | other

namespace KeyKind

variable {K : Type}

def rawKeyBytes : KeyKind K → K → Except CodecError Bytes
  | .string e, k => .ok (e k)
  | .int _ e, k => .ok (Varint.put (Varint.zigzag (e k).1))
  | .uint _ e, k => .ok (Varint.put (e k).1)
  | .other, _ => .error ⟨.marshal, ascii "raw", .rawCodecKey⟩

def setRawKey (kind : KeyKind K) (b : Bytes) : Except CodecError K :=
  let bad : Except CodecError K := .error ⟨.unmarshal, ascii "raw", .rawCodecKeyInvalid⟩
  match kind with
  | .string e => .ok (e.symm b)
  | .int w e =>
    match Varint.get b with
    | none => bad
    | some (u, size) =>
      if size ≠ b.length then bad
      else if h : -2 ^ (w.bits - 1) ≤ Varint.unzigzag u ∧ Varint.unzigzag u < 2 ^ (w.bits - 1) then
        .ok (e.symm ⟨Varint.unzigzag u, h⟩)
      else bad
  | .uint w e =>
    match Varint.get b with
    | none => bad
    | some (u, size) =>
      if size ≠ b.length then bad
      else if h : u < 2 ^ w.bits then .ok (e.symm ⟨u, h⟩)
      else bad
  | .other => .error ⟨.unmarshal, ascii "raw", .rawCodecKey⟩

end KeyKind

/-! ### The codec of the records -/

/-- What is known of the types of keys and values: what base codecs do to them and to byte slices; the
kind of the keys; the filter on a value's fields, and its own methods when it has them. -/
structure RecordTypes (C K V : Type) where
  key : GoType C K
  value : GoType C V
  slice : GoType C Bytes
  kind : KeyKind K
  filter : V → V
  custom : Option ((V → Except String Bytes) × (Bytes → Except String V))

variable {K V : Type} (env : CodecEnv C) (types : RecordTypes C K V) (codec : Codec C)

def marshalKey (key : K) : Saver Bytes :=
  if codec.isRawCodec = false then codec.encode env types.key key
  else do
    let b ← ofExcept ((types.kind.rawKeyBytes key).mapError .codec)
    codec.encode env types.slice b

def unmarshalKey (data : Bytes) : Field K :=
  if codec.isRawCodec = false then codec.decode env types.key data
  else do
    let b ← codec.decode env types.slice data
    ofExcept ((types.kind.setRawKey b).mapError .codec)

def marshalValue (value : V) : Saver Bytes :=
  match types.custom with
  | some (m, _) => ofExcept ((m (types.filter value)).mapError .custom)
  | none => codec.encode env types.value (types.filter value)

def unmarshalValue (data : Bytes) : Field V :=
  match types.custom with
  | some (_, u) => ofExcept ((u data).mapError .custom)
  | none => codec.decode env types.value data

def recordCodec : RecordCodec K V :=
  ⟨marshalKey env types codec, marshalValue env types codec, unmarshalKey env types codec,
    unmarshalValue env types codec⟩

end Memcache

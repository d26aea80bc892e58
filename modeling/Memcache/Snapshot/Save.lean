import Memcache.Snapshot.Codec

/-!
# `Save` and `Load` of a codec stack

`saveTo` takes the layer that encrypts out of the stack. Without one the records follow the header as
they are; with one they are written to a buffer, which is sealed as a whole with **the header as the
associated data**. `readSnapshot` goes the other way and touches nothing but its input.
-/

namespace Memcache

open Reading Loading

variable {C K V : Type}

def snapshotSchemaVersionKey : Bytes := ascii "__memcache_schema_version"

/-- 256 MiB. -/
def defaultMaxSnapshotBytes : ℕ := 256 * 2 ^ 20

/-- What `Save` and `Load` take from the configuration of a cache, its types, and the primitives. -/
structure SnapshotConfig (C K V : Type) where
  env : CodecEnv C
  types : RecordTypes C K V
  codec : Codec C
  name : Bytes
  metadata : Metadata
  unique : metadata.Unique
  /-- The fingerprint of the value's type, empty when it has none. -/
  schema : Bytes
  maxSnapshotBytes : ℤ
  crc : Bytes → UInt32

namespace SnapshotConfig

variable (cfg : SnapshotConfig C K V)

/-- The user's metadata, and the fingerprint in place of what they have under its key. -/
def effectiveSnapshotMetadata : Metadata :=
  if cfg.schema = [] then cfg.metadata else cfg.metadata.insert snapshotSchemaVersionKey cfg.schema

/-- The header of a save at the time `now`. -/
def header (now : Int64) (count : ℕ) : Header :=
  ⟨cfg.codec.name cfg.env, cfg.name, cfg.effectiveSnapshotMetadata, now, Int64.ofNat count⟩

/-- The codec of the records, and the layer that encrypts them. -/
def recCodec : RecordCodec K V := recordCodec cfg.env cfg.types cfg.codec.splitEncryption.1

/-- What `Load` reads at most. -/
def snapshotLimit : ℕ :=
  if 0 < cfg.maxSnapshotBytes then cfg.maxSnapshotBytes.toNat else defaultMaxSnapshotBytes

end SnapshotConfig

/-! ### `Save` -/

/-- A limit for a save, an `int64`; there is none when it is not positive. -/
def saveLimit (limit : ℤ) : ℕ := if limit ≤ 0 then maxInt64 else limit.toNat

variable (cfg : SnapshotConfig C K V)

/-- The records written to a buffer and sealed. The buffer has the limit of the save, and what is
compressed and drawn for it counts for the save. -/
def sealRecords (gcm : AEAD) (base : Codec C) (limit : ℕ) (header : Bytes)
    (staged : List (EntrySnapshot K V)) : Save Bytes := fun s ↦
  match writeRecords cfg.recCodec false staged ⟨[], limit, [], s.inflateLeft, s.drawn⟩ with
  | (.error e, body) => (.error e, { s with inflateLeft := body.inflateLeft, drawn := body.drawn })
  | (.ok (), body) =>
    wrapSaveErr "records" (Codec.sealWith cfg.env gcm base body.out header)
      { s with inflateLeft := body.inflateLeft, drawn := body.drawn }

def writeSealed (sealed : Bytes) : Save Unit := do
  wrapSaveErr "records length" (Saver.write true (Wire.u64 (UInt64.ofNat sealed.length)))
  wrapSaveErr "records" (Saver.write true sealed)

/-- `saveTo` after the header was made. -/
def saveBody (limit : ℕ) (header : Bytes) (staged : List (EntrySnapshot K V)) : Save Unit :=
  match cfg.codec.splitEncryption.2 with
  | none => writePlain cfg.crc cfg.recCodec header staged
  | some (gcm, base) => do
    wrapSaveErr "header" (Saver.write true header)
    let sealed ← sealRecords cfg gcm base limit header staged
    writeSealed sealed
    writeTrailer cfg.crc

/-- `saveTo`, for the entries that `snapshotEntries` found, with the nonces `drawn` before. -/
def saveTo (limit : ℤ) (now : Int64) (staged : List (EntrySnapshot K V)) (drawn : ℕ) :
    Except SnapshotError Unit × Saving :=
  let s : Saving := { Saving.start (saveLimit limit) with drawn := drawn }
  match writeHeader (cfg.header now staged.length) with
  | .error e => (.error e, s)
  | .ok header => saveBody cfg (saveLimit limit) header staged s

/-! ### `Load` -/

/-- The bytes of the header; what follows is not captured. -/
def endHeader : Load Bytes := fun s ↦
  (.ok (s.sr.capture.getD []), { s with sr := { s.sr with capture := none } })

/-- The part of `readSealedRecords` after the block was read: a reader of its own for the text. Errors
have the offset after the block. -/
def openRecords (rc : RecordCodec K V) (gcm : AEAD) (header sealed : Bytes) (version : UInt8)
    (count : Int64) : Load (List (EntrySnapshot K V)) := fun s ↦
  match Codec.openWith gcm sealed header with
  | .error _ => (.error (s.sr.fail "decrypting records" .corrupt), s)
  | .ok plain =>
    let inner : SnapReader := ⟨plain, none, none, plain.length, s.sr.off, true⟩
    match readRecords rc version count { s with sr := inner } with
    | (.error e, s') => (.error e, { s' with sr := s.sr })
    | (.ok staged, s') =>
      if s'.sr.left ≠ 0 then
        (.error (s'.sr.fail "trailing bytes after records" .corrupt), { s' with sr := s.sr })
      else (.ok staged, { s' with sr := s.sr })

def readSealedRecords (rc : RecordCodec K V) (gcm : AEAD) (header : Bytes) (version : UInt8)
    (count : Int64) : Load (List (EntrySnapshot K V)) := do
  let n ← Field.u64.orFail "reading records length"
  let sealed ← (Field.take n.toNat).orFail "reading records"
  openRecords rc gcm header sealed version count

/-- The records of a snapshot with the given header, read as it says. -/
def readBody (header : Bytes) (info : SnapshotInfo) : Load (List (EntrySnapshot K V)) :=
  match cfg.codec.splitEncryption.2 with
  | none =>
    if info.version < snapshotVersion then
      readRecords (recordCodec cfg.env cfg.types cfg.codec) info.version info.count
    else readRecords cfg.recCodec info.version info.count
  | some (gcm, _) =>
    -- older snapshots seal each field on its own, so fields can be swapped undetected
    if info.version < snapshotVersion then
      fail ⟨.load, 0, "encrypted snapshots of this version are not supported", .encryptedLegacy⟩
    else readSealedRecords cfg.recCodec gcm header info.version info.count

/-- `readSnapshot`. -/
def readSnapshot : Load (List (EntrySnapshot K V)) := do
  let info ← readSnapshotHeader
  let header ← endHeader
  let got := (info.metadata.get snapshotSchemaVersionKey).getD []
  if info.codec ≠ cfg.codec.name cfg.env then fail ⟨.load, 0, "codec mismatch", .incompatible⟩
  else if cfg.schema ≠ [] ∧ got ≠ [] ∧ got ≠ cfg.schema then
    fail ⟨.load, 0, "schema version mismatch", .incompatible⟩
  else
    let staged ← readBody cfg header info
    readTrailer cfg.crc
    pure staged

/-- `readSnapshot` of an input, within the limit of the cache. -/
def loadSnapshot (input : Bytes) : Except SnapshotError (List (EntrySnapshot K V)) × Loading :=
  readSnapshot cfg (.start input cfg.snapshotLimit)

end Memcache

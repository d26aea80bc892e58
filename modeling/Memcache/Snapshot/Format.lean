import Memcache.Lib.KeyMap
import Memcache.Snapshot.Writer

/-!
# The format

A header, then the records. What the fields of a record hold of its key and value is the codec's
business: the format is written over any pair of a marshaller and an unmarshaller.

`Save` writes version 3. `Load` also reads version 2, whose records have no sliding TTL.
-/

namespace Memcache

open Reading Loading

/-! ### Metadata -/

/-- One pass of the insertion sort: `x` sinks below the greater strings of the sorted part, which is
held last first. -/
def sink : List Bytes → Bytes → List Bytes
  | [], x => [x]
  | y :: l, x => if x < y then y :: sink l x else x :: y :: l

/-- An insertion sort, in place in the source. -/
def sortStrings (a : List Bytes) : List Bytes := (a.foldl sink []).reverse

theorem sink_perm (l : List Bytes) (x : Bytes) : (sink l x).Perm (x :: l) := by
  induction l with
  | nil => exact .refl _
  | cons y l ih =>
    unfold sink
    split_ifs
    · exact (ih.cons y).trans (.swap ..)
    · exact .refl _

theorem sortStrings_perm (a : List Bytes) : (sortStrings a).Perm a := by
  have hfold (l : List Bytes) : (a.foldl sink l).Perm (a ++ l) := by
    induction a generalizing l with
    | nil => exact .refl _
    | cons x a ih =>
      refine (ih (sink l x)).trans ?_
      exact ((sink_perm l x).append_left a).trans List.perm_middle
  have h := hfold []
  rw [List.append_nil] at h
  exact (List.reverse_perm _).trans h

abbrev Metadata := KeyMap Bytes Bytes

theorem Metadata.unique_empty : (KeyMap.empty : Metadata).Unique := .nil

namespace Wire

/-- The pairs of the metadata, by their keys. -/
def pairs (m : Metadata) (keys : List Bytes) : Except SnapshotCause Bytes :=
  fields (keys.flatMap fun k ↦ [k, (m.get k).getD []])

/-- `writeMetadata`, into a buffer. -/
def metadata (m : Metadata) : Except SnapshotCause Bytes :=
  if 65535 < m.pairs.length then .error .fieldTooBig
  else cat (.ok (u16 (UInt16.ofNat m.pairs.length))) (pairs m (sortStrings (m.pairs.map Prod.fst)))

end Wire

namespace Field

/-- A key and its value. -/
def pair : Field (Bytes × Bytes) := do
  let k ← str
  let v ← str
  pure (k, v)

def metadata : Field Metadata := do
  let n ← u16
  makeMap n.toNat
  let pairs ← pair.times n.toNat
  pure (pairs.foldl (fun m p ↦ m.insert p.1 p.2) .empty)

end Field

/-! ### Header -/

def snapshotMagic : Bytes := ascii "RTNI"

def snapshotVersion : UInt8 := 3

def snapshotVersionV2 : UInt8 := 2

/-- What `writeHeader` takes from the cache, its clock and its codec. -/
structure Header where
  codec : Bytes
  name : Bytes
  metadata : Metadata
  saveTime : Int64
  count : Int64

structure SnapshotInfo where
  version : UInt8
  codec : Bytes
  name : Bytes
  count : Int64
  metadata : Metadata
  saveTime : Option Int64

/-- `writeHeader`: it writes into a buffer, which takes everything. -/
def writeHeader (h : Header) : Except SnapshotError Bytes := do
  let codec ← (Wire.field h.codec).mapError (saveErr "codec")
  let name ← (Wire.field h.name).mapError (saveErr "name")
  let metadata ← (Wire.metadata h.metadata).mapError (saveErr "metadata")
  pure (snapshotMagic ++ (Wire.u8 snapshotVersion ++ (codec ++ (name ++ (metadata ++
    (Wire.i64 h.saveTime ++ Wire.i64 h.count))))))

namespace Load

/-- Fail at the current offset. -/
def failAt {α : Type} (message : String) (err : SnapshotCause) : Load α :=
  fun s ↦ (.error (s.sr.fail message err), s)

end Load

/-- The header after the magic. -/
def readHeaderFields : Load SnapshotInfo := do
  let version ← Field.u8.orFail "reading version"
  if version ≠ snapshotVersion ∧ version ≠ snapshotVersionV2 then
    fail ⟨.load, 0, "unsupported version", .incompatible⟩
  else
    let codec ← Field.str.orFail "reading codec"
    let name ← Field.str.orFail "reading name"
    let metadata ← Field.metadata.orFail "reading metadata"
    let saveTime ← Field.i64.orFail "reading saveTime"
    let count ← Field.i64.orFail "reading count"
    if count < 0 then Load.failAt "negative count" .corrupt
    else pure ⟨version, codec, name, count, metadata, if saveTime = 0 then none else some saveTime⟩

def readSnapshotHeader : Load SnapshotInfo := do
  let magic ← (Field.take snapshotMagic.length).orFail "reading magic"
  if magic ≠ snapshotMagic then fail ⟨.load, 0, "bad magic", .incompatible⟩ else readHeaderFields

/-! ### Records -/

structure EntrySnapshot (K V : Type) where
  key : K
  value : V
  expireAt : Int64
  weight : Int64
  inserted : Int64
  hits : UInt32
  flags : UInt16
  slidingTTL : Int64
  tags : List Bytes
deriving DecidableEq

/-- The flag of an entry with a sliding TTL. -/
def flagSliding : UInt16 := 1

/-- What a codec does to keys and values. -/
structure RecordCodec (K V : Type) where
  marshalKey : K → Saver Bytes
  marshalValue : V → Saver Bytes
  unmarshalKey : Bytes → Field K
  unmarshalValue : Bytes → Field V

variable {K V : Type}

/-- The numbers of a record, in order. -/
def EntrySnapshot.numbers (snap : EntrySnapshot K V) : List (String × Bytes) :=
  [("expireAt", Wire.i64 snap.expireAt), ("weight", Wire.i64 snap.weight),
    ("inserted", Wire.i64 snap.inserted), ("hits", Wire.u32 snap.hits),
    ("flags", Wire.u16 snap.flags), ("slidingTTL", Wire.i64 snap.slidingTTL)]

def writeNumbers (hash : Bool) : List (String × Bytes) → Save Unit
  | [] => pure ()
  | (name, b) :: l => do
    wrapSaveErr name (Saver.write hash b)
    writeNumbers hash l

def writeTags (hash : Bool) : List Bytes → Save Unit
  | [] => pure ()
  | tag :: tags => do
    wrapSaveErr "tag" (Saver.writeBytes hash tag)
    writeTags hash tags

/-- `writeRecord` from its first write on. -/
def writeFields (hash : Bool) (keyBytes valBytes : Bytes) (snap : EntrySnapshot K V) : Save Unit := do
  wrapSaveErr "key" (Saver.writeBytes hash keyBytes)
  wrapSaveErr "value" (Saver.writeBytes hash valBytes)
  writeNumbers hash snap.numbers
  if 255 < snap.tags.length then wrapSaveErr "tags" (fail .tooManyTags)
  else
    wrapSaveErr "tagCount" (Saver.write hash (Wire.u8 (UInt8.ofNat snap.tags.length)))
    writeTags hash snap.tags

def writeRecord (rc : RecordCodec K V) (hash : Bool) (snap : EntrySnapshot K V) : Save Unit := do
  let keyBytes ← wrapSaveErr "key marshal" (rc.marshalKey snap.key)
  let valBytes ← wrapSaveErr "value marshal" (rc.marshalValue snap.value)
  writeFields hash keyBytes valBytes snap

namespace Wire

def numbers (l : List (String × Bytes)) : Bytes := l.flatMap Prod.snd

def tags (l : List Bytes) : Except SnapshotCause Bytes :=
  if 255 < l.length then .error .tooManyTags else cat (.ok (u8 (UInt8.ofNat l.length))) (fields l)

/-- The bytes of a record. -/
def record (keyBytes valBytes : Bytes) (snap : EntrySnapshot K V) : Except SnapshotCause Bytes :=
  cat (field keyBytes) <| cat (field valBytes) <| cat (.ok (numbers snap.numbers)) (tags snap.tags)

/-- The bytes of a record of version 2: its last number, the sliding TTL, is missing. -/
def recordV2 (keyBytes valBytes : Bytes) (snap : EntrySnapshot K V) : Except SnapshotCause Bytes :=
  cat (field keyBytes) <| cat (field valBytes) <|
    cat (.ok (numbers snap.numbers.dropLast)) (tags snap.tags)

end Wire

/-- The sliding TTL is not in an older snapshot. -/
def readSlidingTTL (version : UInt8) : Load Int64 :=
  if snapshotVersion ≤ version then Field.i64.orFail "reading slidingTTL" else pure 0

/-- The fields of a record after its key and its value. -/
def readRest (version : UInt8) (key : K) (value : V) : Load (EntrySnapshot K V) := do
  let expireAt ← Field.i64.orFail "reading expireAt"
  let weight ← Field.i64.orFail "reading weight"
  let inserted ← Field.i64.orFail "reading inserted"
  let hits ← Field.u32.orFail "reading hits"
  let flags ← Field.u16.orFail "reading flags"
  let slidingTTL ← readSlidingTTL version
  let tagCount ← Field.u8.orFail "reading tagCount"
  let tags ← (Field.str.orFail "reading tag").times tagCount.toNat
  pure ⟨key, value, expireAt, weight, inserted, hits, flags, slidingTTL, tags⟩

/-- `readRecord` up to its checks. -/
def readFields (rc : RecordCodec K V) (version : UInt8) : Load (EntrySnapshot K V) := do
  let keyBytes ← Field.bytes.orFail "reading key bytes"
  let valBytes ← Field.bytes.orFail "reading value bytes"
  let key ← (rc.unmarshalKey keyBytes).orFail "key unmarshal"
  let value ← (rc.unmarshalValue valBytes).orFail "value unmarshal"
  readRest version key value

/-- The checks of `readRecord`: `Save` writes a weight of at least 1 and no flag but sliding. -/
def checkRecord (version : UInt8) (snap : EntrySnapshot K V) : Load (EntrySnapshot K V) :=
  if snap.weight < 1 then Load.failAt "invalid weight" .corrupt
  else if snap.flags.toUInt8 &&& ~~~flagSliding.toUInt8 ≠ 0 ∨ 255 < snap.flags then
    Load.failAt "invalid flags" .corrupt
  else if snap.flags.toUInt8 &&& flagSliding.toUInt8 = flagSliding.toUInt8 then
    -- an older snapshot has no sliding TTL; the entry keeps its absolute expiry
    if version < snapshotVersion then pure { snap with flags := 0 }
    else if snap.slidingTTL ≤ 0 then Load.failAt "sliding entry without a sliding TTL" .corrupt
    else pure snap
  else pure snap

def readRecord (rc : RecordCodec K V) (version : UInt8) : Load (EntrySnapshot K V) := do
  let snap ← readFields rc version
  checkRecord version snap

/-- The records of a save, one after another. -/
def writeRecords (rc : RecordCodec K V) (hash : Bool) : List (EntrySnapshot K V) → Save Unit
  | [] => pure ()
  | snap :: staged => do
    writeRecord rc hash snap
    writeRecords rc hash staged

/-- `count` is not negative. -/
def readRecords (rc : RecordCodec K V) (version : UInt8) (count : Int64) :
    Load (List (EntrySnapshot K V)) :=
  (readRecord rc version).times count.toInt.toNat

/-! ### Checksum -/

/-- The checksum of all that went to the hash; itself it does not. -/
def writeTrailer (crc : Bytes → UInt32) : Save Unit := fun s ↦
  wrapSaveErr "crc" (Saver.write false (Wire.u32 (crc s.hashed))) s

def readTrailer (crc : Bytes → UInt32) : Load Unit := fun s ↦
  let check : Load Unit := do
    let stored ← Field.u32.orFail "reading trailing CRC"
    if stored ≠ crc (s.sr.h.getD []) then Load.failAt "CRC mismatch" .corrupt else pure ()
  check { s with sr := { s.sr with h := none } }

/-! ### Snapshots without encryption -/

/-- The part of `saveTo` for a codec that does not encrypt. -/
def writePlain (crc : Bytes → UInt32) (rc : RecordCodec K V) (header : Bytes)
    (staged : List (EntrySnapshot K V)) : Save Unit := do
  wrapSaveErr "header" (Saver.write true header)
  writeRecords rc true staged
  writeTrailer crc

/-- `readSnapshot` without what it checks of the header. -/
def readPlain (crc : Bytes → UInt32) (rc : RecordCodec K V) :
    Load (SnapshotInfo × List (EntrySnapshot K V)) := do
  let info ← readSnapshotHeader
  let staged ← readRecords rc info.version info.count
  readTrailer crc
  pure (info, staged)

/-- Keys and values that are bytes. -/
def RecordCodec.bytes : RecordCodec Bytes Bytes := ⟨pure, pure, pure, pure⟩

/-- How far codecs may inflate, for a limit on the size of the snapshot: to 16 times as much in all. -/
def inflateLimit (limit : ℕ) : ℕ := if maxInt64 / 16 < limit then maxInt64 else limit * 16

/-- A save that has not begun. -/
def Saving.start (limit : ℕ) : Saving := ⟨[], limit, [], inflateLimit limit, 0⟩

/-- A load that has not begun: all that is taken is hashed, and captured as the header. -/
def Loading.start (input : Bytes) (limit : ℕ) : Loading :=
  ⟨⟨input, some [], some [], limit, 0, false⟩, inflateLimit limit, [], 0⟩

end Memcache

import Memcache.Snapshot.Roundtrip
import Memcache.Snapshot.Save
import Memcache.Snapshot.Stack

/-!
# Records under a codec stack

What a save writes for a record, and compresses for it, is a portion of a load. `Uses` says that a save
has written a portion; the portions of the records multiply to that of the list.
-/

namespace Memcache

open Reading Loading

variable {C K V : Type}

/-! ### Portions that a save writes -/

namespace Saving

/-- A portion was written: its bytes fitted, and so did what was compressed for it. -/
structure Uses (s : Saving) (hash : Bool) (m : Portion) (s' : Saving) : Prop where
  bytes : m.bytes.length ≤ s.left
  cost : m.cost ≤ s.inflateLeft
  eq : s' = { s.put hash m.bytes with inflateLeft := s.inflateLeft - m.cost, drawn := s'.drawn }

variable {s s' s'' : Saving} {hash : Bool} {m m' : Portion}

theorem Uses.left_eq (h : s.Uses hash m s') : s'.left = s.left - m.bytes.length :=
  congrArg Saving.left h.eq

theorem Uses.inflateLeft_eq (h : s.Uses hash m s') : s'.inflateLeft = s.inflateLeft - m.cost :=
  congrArg Saving.inflateLeft h.eq

theorem Uses.out_eq (h : s.Uses hash m s') : s'.out = s.out ++ m.bytes := congrArg Saving.out h.eq

theorem Uses.refl (s : Saving) (hash : Bool) : s.Uses hash 1 s := by
  refine ⟨Nat.zero_le _, Nat.zero_le _, ?_⟩
  rw [Portion.one_bytes, put_nil]
  rfl

theorem Uses.trans (h : s.Uses hash m s') (h' : s'.Uses hash m' s'') : s.Uses hash (m * m') s'' := by
  have hleft := h.left_eq
  have hinflate := h.inflateLeft_eq
  have hbytes := h.bytes
  have hbytes' := h'.bytes
  have hcost := h.cost
  have hcost' := h'.cost
  refine ⟨?_, ?_, ?_⟩
  · rw [Portion.mul_bytes, List.length_append]
    omega
  · rw [Portion.mul_cost]
    omega
  · rw [h'.eq, h.eq]
    cases hash <;> ext1 <;> simp [put, Nat.sub_sub]

/-- Compressing alone. -/
theorem Spends.uses {cost : ℕ} (h : s.Spends cost s') : s.Uses hash ⟨[], cost⟩ s' := by
  refine ⟨Nat.zero_le _, h.enough, ?_⟩
  rw [put_nil]
  exact h.eq

/-- Writing alone. -/
theorem Wrote.uses {b : Bytes} (h : s.Wrote hash b s') : s.Uses hash (.plain b) s' := by
  refine ⟨h.fits, Nat.zero_le _, ?_⟩
  rw [h.eq]
  rfl

end Saving

/-! ### What a save writes -/

variable {rc : RecordCodec K V} {hash : Bool} {snap : EntrySnapshot K V} {s s' : Saving}

theorem writeRecord_eq_ok (h : writeRecord rc hash snap s = (.ok (), s')) :
    ∃ kb vb w s₁ s₂, rc.marshalKey snap.key s = (.ok kb, s₁) ∧
      rc.marshalValue snap.value s₁ = (.ok vb, s₂) ∧ Wire.record kb vb snap = .ok w ∧
      s₂.Wrote hash w s' := by
  obtain ⟨kb, s₁, h₁, h⟩ := bind_eq_ok.1 h
  obtain ⟨vb, s₂, h₂, h⟩ := bind_eq_ok.1 h
  obtain ⟨w, hw, hwrote⟩ := (puts_writeFields hash kb vb snap s₂ s').1 h
  exact ⟨kb, vb, w, s₁, s₂, mapError_eq_ok.1 h₁, mapError_eq_ok.1 h₂, hw, hwrote⟩

/-- A record is the portion of its key, of its value and of its bytes. -/
theorem uses_record {w : Bytes} {ck cv : ℕ} {s₁ s₂ : Saving} (hk : s.Spends ck s₁)
    (hv : s₁.Spends cv s₂) (hw : s₂.Wrote hash w s') : s.Uses hash ⟨w, ck + cv⟩ s' := by
  have h := hk.uses.trans (hv.uses.trans hw.uses)
  have hm : (⟨[], ck⟩ * (⟨[], cv⟩ * .plain w) : Portion) = ⟨w, ck + cv⟩ := by
    ext1 <;> simp [Portion.plain]
  rwa [hm] at h

/-- The portions of the records, one after another. -/
theorem writeRecords_uses {Q : EntrySnapshot K V → Portion → Prop}
    (hQ : ∀ snap s s', writeRecord rc hash snap s = (.ok (), s') → ∃ m, s.Uses hash m s' ∧ Q snap m)
    {staged : List (EntrySnapshot K V)} (h : writeRecords rc hash staged s = (.ok (), s')) :
    ∃ ms : List Portion, s.Uses hash ms.prod s' ∧ List.Forall₂ Q staged ms := by
  induction staged generalizing s with
  | nil =>
    cases h
    exact ⟨[], .refl _ hash, .nil⟩
  | cons snap staged ih =>
    obtain ⟨⟨⟩, s₁, h₁, h₂⟩ := bind_eq_ok.1 h
    obtain ⟨m, hm, hQm⟩ := hQ snap s s₁ h₁
    obtain ⟨ms, hms, hall⟩ := ih h₂
    exact ⟨m :: ms, hm.trans hms, .cons hQm hall⟩

/-! ### Values -/

variable {env : CodecEnv C} {types : RecordTypes C K V} {c : Codec C} {data : Bytes}

/-- The methods of a value's own undo each other. -/
def RecordTypes.CustomRoundTrips (types : RecordTypes C K V) : Prop :=
  ∀ m u, types.custom = some (m, u) → ∀ v data, m v = .ok data → u data = .ok v

/-- What is written of a value is read back as the filter left it. -/
theorem marshalValue_spec (henv : env.Lawful) (hc : c.Opens)
    (hvalue : types.custom = none → types.value.RoundTrips env c.bottom)
    (hcustom : types.CustomRoundTrips) {v : V} (h : marshalValue env types c v s = (.ok data, s')) :
    ∃ cost, s.Spends cost s' ∧ (c.compresses = false → cost = 0) ∧
      Reads source (unmarshalValue env types c data) ⟨[], cost⟩ (types.filter v) := by
  unfold marshalValue at h
  unfold unmarshalValue
  rcases hcus : types.custom with _ | ⟨m, u⟩
  · rw [hcus] at h
    obtain ⟨cost, hspend, hzero, hread, -⟩ := Codec.encode_spec henv hc (hvalue hcus) h
    exact ⟨cost, hspend, hzero, hread⟩
  · rw [hcus] at h
    dsimp only at h
    rcases hm : m (types.filter v) with e | d
    · rw [hm] at h
      cases h
    · rw [hm] at h
      cases h
      have hu : u data = .ok (types.filter v) := hcustom m u hcus _ _ hm
      refine ⟨0, .refl s, fun _ ↦ rfl, ?_⟩
      show Reads source (ofExcept ((u data).mapError SnapshotCause.custom)) _ _
      rw [hu]
      exact .pure _

/-! ### What a load reads -/

/-- The record as it was written: its value is what the filter leaves of it. -/
def RecordTypes.written (types : RecordTypes C K V) (snap : EntrySnapshot K V) : EntrySnapshot K V :=
  { snap with value := types.filter snap.value }

/-- The fields of a record are read back from what was written of it. -/
theorem writeRecord_reads (henv : env.Lawful) (hc : c.Opens)
    (hkey : c.isRawCodec = false → types.key.RoundTrips env c.bottom)
    (hvalue : types.custom = none → types.value.RoundTrips env c.bottom)
    (hcustom : types.CustomRoundTrips)
    (h : writeRecord (recordCodec env types c) hash snap s = (.ok (), s')) :
    ∃ m, s.Uses hash m s' ∧ (c.compresses = false → m.cost = 0) ∧
      Reads source (readFields (recordCodec env types c) snapshotVersion) m (types.written snap) := by
  obtain ⟨kb, vb, w, s₁, s₂, hk, hv, hw, hwrote⟩ := writeRecord_eq_ok h
  obtain ⟨ck, hspk, hzk, hrk⟩ := marshalKey_spec henv hc hkey hk
  obtain ⟨cv, hspv, hzv, hrv⟩ := marshalValue_spec henv hc hvalue hcustom hv
  refine ⟨⟨w, ck + cv⟩, uses_record hspk hspv hwrote, fun hno ↦ ?_, ?_⟩
  · rw [hzk hno, hzv hno]
  have hw' : Wire.record kb vb (types.written snap) = .ok w := hw
  exact reads_fields_record hrk hrv hw'

/-! ### The parts of a save -/

section Parts

variable {cfg : SnapshotConfig C K V} {staged : List (EntrySnapshot K V)} {limit : ℕ} {hb : Bytes}

theorem saveTo_eq_ok {limit : ℤ} {now : Int64} {drawn : ℕ}
    (h : saveTo cfg limit now staged drawn = (.ok (), s')) :
    ∃ hb, writeHeader (cfg.header now staged.length) = .ok hb ∧
      saveBody cfg (saveLimit limit) hb staged { Saving.start (saveLimit limit) with drawn := drawn } =
        (.ok (), s') := by
  unfold saveTo at h
  rcases hh : writeHeader (cfg.header now staged.length) with e | hb
  · rw [hh] at h
    cases h
  · rw [hh] at h
    exact ⟨hb, rfl, h⟩

theorem write_eq_ok {field : String} {b : Bytes} (h : wrapSaveErr field (Saver.write hash b) s = (.ok (), s')) :
    s.Wrote hash b s' := by
  obtain ⟨_, ⟨⟩, hwrote⟩ := ((Saver.puts_write hash b).wrap field s s').1 h
  exact hwrote

/-- The header, the records and the checksum of a save that does not encrypt. -/
theorem saveBody_plain (henc : cfg.codec.splitEncryption.2 = none)
    (h : saveBody cfg limit hb staged s = (.ok (), s')) :
    ∃ s₁ s₂, s.Wrote true hb s₁ ∧ writeRecords cfg.recCodec true staged s₁ = (.ok (), s₂) ∧
      s₂.Wrote false (Wire.u32 (cfg.crc s₂.hashed)) s' := by
  unfold saveBody at h
  rw [henc] at h
  obtain ⟨⟨⟩, s₁, h₁, h⟩ := bind_eq_ok.1 h
  obtain ⟨⟨⟩, s₂, h₂, h₃⟩ := bind_eq_ok.1 h
  exact ⟨s₁, s₂, write_eq_ok h₁, h₂, write_eq_ok h₃⟩

/-- What a sealed block is made of. -/
theorem sealRecords_eq_ok {gcm : AEAD} {base : Codec C} {sealed : Bytes}
    (h : sealRecords cfg gcm base limit hb staged s = (.ok sealed, s')) :
    ∃ body, writeRecords cfg.recCodec false staged ⟨[], limit, [], s.inflateLeft, s.drawn⟩ = (.ok (), body) ∧
      Codec.sealWith cfg.env gcm base body.out hb
        { s with inflateLeft := body.inflateLeft, drawn := body.drawn } = (.ok sealed, s') := by
  unfold sealRecords at h
  rcases hw : writeRecords cfg.recCodec false staged ⟨[], limit, [], s.inflateLeft, s.drawn⟩ with
    ⟨e | ⟨⟩, body⟩
  · rw [hw] at h
    cases h
  · rw [hw] at h
    exact ⟨body, rfl, mapError_eq_ok.1 h⟩

/-- The header, the block with its length, and the checksum of a save that encrypts. -/
theorem saveBody_sealed {gcm : AEAD} {base : Codec C}
    (henc : cfg.codec.splitEncryption.2 = some (gcm, base))
    (h : saveBody cfg limit hb staged s = (.ok (), s')) :
    ∃ s₁ sealed s₂ s₃, s.Wrote true hb s₁ ∧
      sealRecords cfg gcm base limit hb staged s₁ = (.ok sealed, s₂) ∧
      s₂.Wrote true (Wire.u64 (UInt64.ofNat sealed.length) ++ sealed) s₃ ∧
      s₃.Wrote false (Wire.u32 (cfg.crc s₃.hashed)) s' := by
  unfold saveBody at h
  rw [henc] at h
  obtain ⟨⟨⟩, s₁, h₁, h⟩ := bind_eq_ok.1 h
  obtain ⟨sealed, s₂, h₂, h⟩ := bind_eq_ok.1 h
  obtain ⟨⟨⟩, s₃, h₃, h₄⟩ := bind_eq_ok.1 h
  obtain ⟨⟨⟩, s₄, h₃, h₅⟩ := bind_eq_ok.1 h₃
  exact ⟨s₁, sealed, s₂, s₃, write_eq_ok h₁, h₂,
    Saving.wrote_append.2 ⟨s₄, write_eq_ok h₃, write_eq_ok h₅⟩, write_eq_ok h₄⟩

end Parts

/-! ### The head of a load -/

/-- A load after the header `hb`, with `rest` before it. -/
structure Loading.Headed (ls : Loading) (limit : ℕ) (hb rest : Bytes) : Prop where
  sr : ls.sr = ⟨rest, some hb, none, limit - hb.length, hb.length, false⟩
  inflateLeft : ls.inflateLeft = inflateLimit limit

/-- The header that a save wrote is read, and captured as it was written. -/
theorem readHeader_of_write {h : Header} (hu : h.metadata.Unique) (hcount : 0 ≤ h.count) {hb : Bytes}
    (hw : writeHeader h = .ok hb) {rest : Bytes} {limit : ℕ} (hlimit : hb.length ≤ limit) :
    ∃ (m' : Metadata) (ls : Loading), m'.pairs.Perm h.metadata.pairs ∧ ls.Headed limit hb rest ∧
      ∀ {α : Type} (f : SnapshotInfo → Bytes → Load α),
        (do let info ← readSnapshotHeader; let header ← endHeader; f info header) (.start (hb ++ rest) limit) =
          f (h.info m') hb ls := by
  obtain ⟨m', hperm, hread⟩ := reads_header hu hcount hw
  have hgives : source.gives (.start (hb ++ rest) limit) (.plain hb) :=
    gives_plain (s := .start (hb ++ rest) limit) rfl hlimit
  obtain ⟨ls, hls, hafter⟩ := hread.ok _ hgives
  have hsr : ls.sr = ⟨rest, some hb, some hb, limit - hb.length, hb.length, false⟩ := by
    rw [hafter.sr]
    show (⟨(hb ++ rest).drop hb.length, some ([] ++ hb), some ([] ++ hb), limit - hb.length,
      0 + hb.length, false⟩ : SnapReader) = _
    rw [List.drop_left, List.nil_append, Nat.zero_add]
  refine ⟨m', { ls with sr := { ls.sr with capture := none } }, hperm, ⟨?_, ?_⟩, fun f ↦ ?_⟩
  · rw [hsr]
  · exact hafter.inflateLeft
  · refine (bind_of_ok hls).trans ?_
    have hend : endHeader ls = (.ok hb, { ls with sr := { ls.sr with capture := none } }) := by
      unfold endHeader
      rw [hsr]
      rfl
    exact bind_of_ok hend

/-- `readSnapshot` after the head. -/
def readTail (cfg : SnapshotConfig C K V) (header : Bytes) (info : SnapshotInfo) :
    Load (List (EntrySnapshot K V)) := do
  let staged ← readBody cfg header info
  readTrailer cfg.crc
  pure staged

theorem SnapshotConfig.unique_effective (cfg : SnapshotConfig C K V) :
    cfg.effectiveSnapshotMetadata.Unique := by
  unfold effectiveSnapshotMetadata
  split_ifs
  · exact cfg.unique
  · exact cfg.unique.insert _ _

/-- The fingerprint that a save writes is the one that a load of the same cache wants. -/
theorem SnapshotConfig.schema_eq (cfg : SnapshotConfig C K V) {m' : Metadata}
    (hperm : m'.pairs.Perm cfg.effectiveSnapshotMetadata.pairs) (hschema : cfg.schema ≠ []) :
    (m'.get snapshotSchemaVersionKey).getD [] = cfg.schema := by
  rw [cfg.unique_effective.get_perm hperm, effectiveSnapshotMetadata, if_neg hschema, KeyMap.get_insert,
    if_pos (beq_self_eq_true _)]
  rfl

theorem toInt_ofNat {n : ℕ} (hn : n ≤ maxInt64) : (Int64.ofNat n).toInt = n :=
  Int64.toInt_ofNat_of_lt (by unfold maxInt64 at hn; omega)

variable {cfg : SnapshotConfig C K V}

/-- A load of what the cache itself saved gets past the head. -/
theorem readSnapshot_eq_tail {now : Int64} {n : ℕ} (hn : n ≤ maxInt64) {hb : Bytes}
    (hw : writeHeader (cfg.header now n) = .ok hb) {limit : ℕ} (hlimit : hb.length ≤ limit)
    (rest : Bytes) :
    ∃ (m' : Metadata) (ls : Loading), ls.Headed limit hb rest ∧
      readSnapshot cfg (.start (hb ++ rest) limit) =
        readTail cfg hb ((cfg.header now n).info m') ls := by
  have hcount : 0 ≤ (cfg.header now n).count := by
    rw [Int64.le_iff_toInt_le]
    show 0 ≤ (Int64.ofNat n).toInt
    rw [toInt_ofNat hn]
    exact Int.natCast_nonneg n
  obtain ⟨m', ls, hperm, hheaded, heq⟩ := readHeader_of_write cfg.unique_effective hcount hw hlimit
  refine ⟨m', ls, hheaded, (heq _).trans ?_⟩
  rw [if_neg (by simp [Header.info, SnapshotConfig.header]), if_neg ?_]
  · rfl
  · rintro ⟨hschema, -, hne⟩
    exact hne (cfg.schema_eq hperm hschema)

/-- A save writes the count of its records. -/
theorem readRecords_ofNat (rc : RecordCodec K V) (version : UInt8) {n : ℕ} (hn : n ≤ maxInt64) :
    readRecords rc version (Int64.ofNat n) = (readRecord rc version).times n := by
  unfold readRecords
  rw [toInt_ofNat hn, Int.toNat_natCast]

theorem readBody_plain (henc : cfg.codec.splitEncryption.2 = none) (hb : Bytes) {h : Header}
    (m' : Metadata) :
    readBody cfg hb (h.info m') = readRecords cfg.recCodec snapshotVersion h.count := by
  unfold readBody
  rw [henc]
  exact if_neg (by show ¬ snapshotVersion < snapshotVersion; decide)

theorem readBody_sealed {gcm : AEAD} {base : Codec C}
    (henc : cfg.codec.splitEncryption.2 = some (gcm, base)) (hb : Bytes) {h : Header}
    (m' : Metadata) :
    readBody cfg hb (h.info m') =
      readSealedRecords cfg.recCodec gcm hb snapshotVersion h.count := by
  unfold readBody
  rw [henc]
  exact if_neg (by show ¬ snapshotVersion < snapshotVersion; decide)

end Memcache

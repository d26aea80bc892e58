import Memcache.Snapshot.Records

/-!
# A save within a limit loads within it

`Save` counts the bytes that it writes and the bytes that it compresses as `Load` counts those that it
reads and inflates. So a load of what was saved under a limit may still find a record corrupt, but
**never runs into the limit**.
-/

namespace Memcache

open Reading Loading

variable {C K V : Type}

/-- The error is not about a size limit. -/
def SnapshotCause.Allowed (e : SnapshotCause) : Prop := e.isLimit = false

def SnapshotError.Allowed (e : SnapshotError) : Prop := e.err.Allowed

open SnapshotError (Allowed)

/-! ### Records -/

variable {m : Portion} {rc : RecordCodec K V}

section Records

variable {env : CodecEnv C} {types : RecordTypes C K V} {c : Codec C} {s s' : Saving} {data : Bytes}

theorem takes_orFail {α : Type} {p : Field α} {message : String}
    (h : Takes source SnapshotCause.Allowed p m) :
    Takes source Allowed (p.orFail message) m :=
  h.mapError fun _ _ he ↦ he

/-- A value's own methods may fail, which is no matter of a limit. -/
theorem marshalValue_takes (henv : env.Lawful) (hc : c.Opens)
    (hvalue : types.value.RoundTrips env c.bottom) {v : V}
    (h : marshalValue env types c v s = (.ok data, s')) :
    ∃ cost, s.Spends cost s' ∧
      Takes source SnapshotCause.Allowed (unmarshalValue env types c data) ⟨[], cost⟩ := by
  unfold marshalValue at h
  unfold unmarshalValue
  rcases hcus : types.custom with _ | ⟨m, u⟩
  · rw [hcus] at h
    obtain ⟨cost, hspend, -, hread, -⟩ := Codec.encode_spec henv hc hvalue h
    exact ⟨cost, hspend, hread.takes⟩
  · rw [hcus] at h
    dsimp only at h ⊢
    rcases hm : m (types.filter v) with e | d
    · rw [hm] at h
      cases h
    · rw [hm] at h
      cases h
      refine ⟨0, .refl s, ?_⟩
      rcases u data with e | v'
      · exact fun ls _ ↦ .inr ⟨_, ls, rfl, rfl⟩
      · exact (Reads.pure v').takes

/-- A record that is refused is called corrupt. -/
theorem takes_checkRecord (version : UInt8) (snap : EntrySnapshot K V) :
    Takes source Allowed (checkRecord version snap) 1 := by
  rcases checkRecord_cases version snap with ⟨snap', hcheck⟩ | ⟨message, hcheck⟩
  · rw [hcheck]
    exact (Reads.pure snap').takes
  · rw [hcheck]
    exact fun ls _ ↦ .inr ⟨_, ls, rfl, rfl⟩

theorem takes_readRecord {snap : EntrySnapshot K V} {kb vb w : Bytes} {ck cv : ℕ}
    (hk : Takes source SnapshotCause.Allowed (rc.unmarshalKey kb) ⟨[], ck⟩)
    (hv : Takes source SnapshotCause.Allowed (rc.unmarshalValue vb) ⟨[], cv⟩)
    (hw : Wire.record kb vb snap = .ok w) :
    Takes source Allowed (readRecord rc snapshotVersion) ⟨w, ck + cv⟩ := by
  obtain ⟨wk, w₁, hwk, hw₁, rfl⟩ := Wire.cat_eq_ok.1 hw
  obtain ⟨wv, w₂, hwv, hw₂, rfl⟩ := Wire.cat_eq_ok.1 hw₁
  obtain ⟨wn, wt, ⟨⟩, hwt, rfl⟩ := Wire.cat_eq_ok.1 hw₂
  have hfields : Takes source Allowed (readFields rc snapshotVersion)
      (.plain wk * (.plain wv * (⟨[], ck⟩ * (⟨[], cv⟩ *
        .plain (Wire.numbers snap.numbers.dropLast ++ (Wire.i64 snap.slidingTTL ++ wt)))))) := by
    unfold readFields
    refine .bind_of_reads (Field.reads_bytes hwk).mapError ?_
    refine .bind_of_reads (Field.reads_bytes hwv).mapError ?_
    refine (takes_orFail hk).bind fun key ↦ ?_
    refine (takes_orFail hv).bind fun value ↦ ?_
    exact (reads_readRest (reads_slidingTTL snap.slidingTTL) hwt key value).takes
  refine (hfields.bind (takes_checkRecord snapshotVersion)).congr ?_
  rw [mul_one]
  ext1 <;> simp [Portion.plain, Wire.numbers, EntrySnapshot.numbers]

theorem writeRecord_takes (henv : env.Lawful) (hc : c.Opens)
    (hkey : c.isRawCodec = false → types.key.RoundTrips env c.bottom)
    (hvalue : types.value.RoundTrips env c.bottom) {hash : Bool} (snap : EntrySnapshot K V)
    (s s' : Saving) (h : writeRecord (recordCodec env types c) hash snap s = (.ok (), s')) :
    ∃ m, s.Uses hash m s' ∧
      Takes source Allowed (readRecord (recordCodec env types c) snapshotVersion) m := by
  obtain ⟨kb, vb, w, s₁, s₂, hk, hv, hw, hwrote⟩ := writeRecord_eq_ok h
  obtain ⟨ck, hspk, -, hrk⟩ := marshalKey_spec henv hc hkey hk
  obtain ⟨cv, hspv, htv⟩ := marshalValue_takes henv hc hvalue hv
  exact ⟨⟨w, ck + cv⟩, uses_record hspk hspv hwrote, takes_readRecord hrk.takes htv hw⟩

/-- The records that were written, read one after another. -/
theorem writeRecords_takes (henv : env.Lawful) (hc : c.Opens)
    (hkey : c.isRawCodec = false → types.key.RoundTrips env c.bottom)
    (hvalue : types.value.RoundTrips env c.bottom) {hash : Bool} {staged : List (EntrySnapshot K V)}
    (h : writeRecords (recordCodec env types c) hash staged s = (.ok (), s')) :
    ∃ m, s.Uses hash m s' ∧ Takes source Allowed
      ((readRecord (recordCodec env types c) snapshotVersion).times staged.length) m := by
  obtain ⟨ms, huses, hall⟩ := writeRecords_uses (writeRecord_takes henv hc hkey hvalue) h
  refine ⟨ms.prod, huses, ?_⟩
  rw [hall.length_eq]
  refine .times fun m hm ↦ ?_
  obtain ⟨i, hi, rfl⟩ := List.getElem_of_mem hm
  exact (List.forall₂_iff_get.1 hall).2 i (by rw [hall.length_eq]; exact hi) hi

end Records

/-! ### The whole of it -/

section Whole

variable {cfg : SnapshotConfig C K V} {ls : Loading} {e : SnapshotError}

/-- With four bytes left, a checksum is read; it may be wrong. -/
theorem allowed_of_readTrailer {α : Type} (crc : Bytes → UInt32) (x : α) (v : UInt32) (rest : Bytes)
    (hr : ls.sr.r = Wire.u32 v ++ rest) (hleft : 4 ≤ ls.sr.left) {ls' : Loading}
    (h : (do readTrailer crc; pure x : Load α) ls = (.error e, ls')) : e.Allowed := by
  have hgives : source.gives { ls with sr := { ls.sr with h := none } } (.plain (Wire.u32 v)) :=
    gives_plain hr hleft
  obtain ⟨ls₁, h₁, -⟩ := (Field.reads_u32 v).ok _ hgives
  have hread : readTrailer crc ls = (if v ≠ crc (ls.sr.h.getD []) then
      Load.failAt "CRC mismatch" .corrupt else pure ()) ls₁ :=
    bind_of_ok (mapError_of_ok h₁)
  split_ifs at hread with hcrc
  · rw [bind_of_error hread] at h
    cases h
    rfl
  · rw [bind_of_ok hread] at h
    cases h

/-- Records that are taken, and then the checksum. -/
theorem allowed_of_readTail {header rest : Bytes} {info : SnapshotInfo} {v : UInt32}
    (hbody : Takes source Allowed (readBody cfg header info) m) (hgives : ls.Gives m)
    (hr : ls.sr.r = m.bytes ++ (Wire.u32 v ++ rest)) (hleft : m.bytes.length + 4 ≤ ls.sr.left)
    {ls' : Loading} (h : readTail cfg header info ls = (.error e, ls')) : e.Allowed := by
  unfold readTail at h
  rcases hbody ls hgives with ⟨staged, ls₁, h₁, hafter⟩ | ⟨e', ls₁, h₁, he'⟩
  · rw [bind_of_ok h₁] at h
    refine allowed_of_readTrailer cfg.crc staged v rest ?_ ?_ h
    · rw [hafter.sr]
      show ls.sr.r.drop _ = _
      rw [hr, List.drop_left]
    · rw [hafter.left_eq]
      omega
  · rw [bind_of_error h₁] at h
    cases h
    exact he'

/-- A block that opens to the text of the portion `m`, and the records in it. -/
theorem takes_openRecords {gcm : AEAD} {header sealed : Bytes} {count : Int64}
    (hopen : Codec.openWith gcm sealed header = .ok m.bytes)
    (hrec : Takes source Allowed (readRecords rc snapshotVersion count) m) :
    Takes source Allowed (openRecords rc gcm header sealed snapshotVersion count)
      ⟨[], m.cost⟩ := by
  intro s hs
  have hgives : source.gives
      { s with sr := ⟨m.bytes, none, none, m.bytes.length, s.sr.off, true⟩ } m :=
    ⟨⟨List.prefix_rfl, hs.bounded⟩, le_rfl, hs.cost⟩
  unfold openRecords
  rw [hopen]
  dsimp only
  rcases hrec _ hgives with ⟨staged, s', hs', hafter⟩ | ⟨e, s', hs', he⟩
  · have hleft : s'.sr.left = 0 := by
      rw [hafter.left_eq]
      exact Nat.sub_self _
    rw [hs']
    dsimp only
    rw [if_neg (not_not.2 hleft)]
    exact .inl ⟨staged, _, rfl, (SnapReader.feed_nil _).symm, hafter.inflateLeft⟩
  · rw [hs']
    exact .inr ⟨e, _, rfl, he⟩

theorem takes_readSealedRecords {gcm : AEAD} {header sealed : Bytes} {count : Int64}
    (hlen : sealed.length ≤ maxInt64) (hopen : Codec.openWith gcm sealed header = .ok m.bytes)
    (hrec : Takes source Allowed (readRecords rc snapshotVersion count) m) :
    Takes source Allowed (readSealedRecords rc gcm header snapshotVersion count)
      ⟨Wire.u64 (UInt64.ofNat sealed.length) ++ sealed, m.cost⟩ := by
  have hnat : (UInt64.ofNat sealed.length).toNat = sealed.length := by
    unfold maxInt64 at hlen
    rw [UInt64.toNat_ofNat']
    omega
  have htake := Field.reads_take sealed
  rw [← hnat] at htake
  have h : Takes source Allowed (readSealedRecords rc gcm header snapshotVersion count)
      (.plain (Wire.u64 (UInt64.ofNat sealed.length)) * (.plain sealed * ⟨[], m.cost⟩)) := by
    unfold readSealedRecords
    refine .bind_of_reads (Field.reads_u64 _).mapError ?_
    exact .bind_of_reads htake.mapError (takes_openRecords hopen hrec)
  refine h.congr ?_
  ext1 <;> simp [Portion.plain]

/-- A header, a body that is taken and a checksum, within the limit. -/
theorem allowed_of_parts {now : Int64} {n limit : ℕ} (hn : n ≤ maxInt64) {hb : Bytes}
    (hw : writeHeader (cfg.header now n) = .ok hb) {v : UInt32}
    (hfit : hb.length + (m.bytes.length + 4) ≤ limit) (hcost : m.cost ≤ inflateLimit limit)
    (hbound : inflateLimit limit < maxInt64)
    (hbody : ∀ m', Takes source Allowed (readBody cfg hb ((cfg.header now n).info m')) m)
    (h : readSnapshot cfg (.start (hb ++ (m.bytes ++ Wire.u32 v)) limit) = (.error e, ls)) :
    e.Allowed := by
  have hhead : hb.length ≤ limit := by omega
  obtain ⟨m', ls₁, hheaded, heq⟩ := readSnapshot_eq_tail hn hw hhead (m.bytes ++ Wire.u32 v)
  have hr : ls₁.sr.r = m.bytes ++ (Wire.u32 v ++ []) := by
    rw [hheaded.sr, List.append_nil]
  have hleft : ls₁.sr.left = limit - hb.length := by rw [hheaded.sr]
  have hgives : ls₁.Gives m := by
    refine ⟨⟨⟨_, hr.symm⟩, fun _ ↦ ?_⟩, by omega, ?_⟩
    · rwa [hheaded.inflateLeft]
    · rwa [hheaded.inflateLeft]
  exact allowed_of_readTail (hbody m') hgives hr (by omega) (heq.symm.trans h)

end Whole

/-- A cache whose stack compresses and encrypts, with a limit of 200 bytes. -/
def toyConfig : SnapshotConfig Unit Bytes Bytes where
  env := toyEnv
  types := toyTypes
  codec := toyStack
  name := ascii "small"
  metadata := .empty
  unique := Metadata.unique_empty
  schema := []
  maxSnapshotBytes := 200
  crc b := UInt32.ofNat b.length

/-- A record without a weight. -/
def weightless : EntrySnapshot Bytes Bytes := ⟨[1], [2, 3], 90, 0, 5, 4, 0, 0, []⟩

end Memcache

import Memcache.Snapshot.Format

/-!
# What was written is read

Each part of the format is read back from any input that begins with it, within the budgets, and nothing
more is taken. So the parts can be put one after another: the header, the records by their list, the tags
of a record by theirs.
-/

namespace Memcache

open Wire (cat_eq_ok recordV2 numbers fields field i64 u32)

open Reading Loading

/-! ### Metadata and header -/

variable {w : Bytes}

theorem reads_pairs {m : Metadata} {keys : List Bytes} (hw : Wire.pairs m keys = .ok w) :
    Reads source (Field.pair.times keys.length) (.plain w)
      (keys.map fun k ↦ (k, (m.get k).getD [])) := by
  induction keys generalizing w with
  | nil =>
    cases hw
    exact .pure []
  | cons k keys ih =>
    obtain ⟨wk, w₁, hk, hw₁, rfl⟩ := cat_eq_ok.1 hw
    obtain ⟨wv, w₂, hv, hw₂, rfl⟩ := cat_eq_ok.1 hw₁
    have hpair : Reads source Field.pair (.plain wk * .plain wv) (k, (m.get k).getD []) := by
      refine (Field.reads_str hk).bind ?_
      exact (Field.reads_str hv).map rfl
    exact (hpair.times_succ (ih hw₂)).congr (by simp [Portion.plain_mul])

/-- The metadata read has the pairs of the one written, which was sorted by its keys. -/
theorem reads_metadata {m : Metadata} (hu : m.Unique) (hw : Wire.metadata m = .ok w) :
    ∃ m' : Metadata, m'.pairs.Perm m.pairs ∧ Reads source Field.metadata (.plain w) m' := by
  unfold Wire.metadata at hw
  split_ifs at hw with hlen
  obtain ⟨wn, wp, ⟨⟩, hp, rfl⟩ := cat_eq_ok.1 hw
  set keys := sortStrings (m.pairs.map Prod.fst) with hkeys
  have hperm : keys.Perm (m.pairs.map Prod.fst) := sortStrings_perm _
  have hget (p : Bytes × Bytes) (hmem : p ∈ m.pairs) : (p.1, (m.get p.1).getD []) = p := by
    rw [hu.get_eq hmem (beq_self_eq_true _)]
    rfl
  have hpairs : (keys.map fun k ↦ (k, (m.get k).getD [])).Perm m.pairs := by
    have hmap : (m.pairs.map Prod.fst).map (fun k ↦ (k, (m.get k).getD [])) = m.pairs := by
      rw [List.map_map]
      exact (List.map_congr_left hget).trans (List.map_id _)
    exact (hperm.map _).trans (.of_eq hmap)
  have hnum : (UInt16.ofNat m.pairs.length).toNat = keys.length := by
    rw [hperm.length_eq, List.length_map, UInt16.toNat_ofNat']
    omega
  have hdistinct : (keys.map fun k ↦ (k, (m.get k).getD [])).Pairwise fun p q ↦ (p.1 == q.1) = false :=
    (hpairs.pairwise_iff fun h ↦ by rwa [BEq.comm]).2 hu
  refine ⟨⟨(keys.map fun k ↦ (k, (m.get k).getD [])).reverse⟩, (List.reverse_perm _).trans hpairs, ?_⟩
  rw [← Portion.plain_mul]
  refine (Field.reads_u16 _).bind ?_
  rw [hnum, ← one_mul (Portion.plain wp)]
  refine (Field.reads_makeMap _).bind ?_
  refine (reads_pairs hp).map ?_
  rw [KeyMap.foldl_insert (by simpa [KeyMap.empty] using hdistinct)]
  simp [KeyMap.empty]

variable {h : Header}

theorem writeHeader_eq_ok (hw : writeHeader h = .ok w) :
    ∃ codec name metadata, field h.codec = .ok codec ∧ field h.name = .ok name ∧
      Wire.metadata h.metadata = .ok metadata ∧
      w = snapshotMagic ++ (Wire.u8 snapshotVersion ++ (codec ++ (name ++ (metadata ++
        (i64 h.saveTime ++ i64 h.count))))) := by
  unfold writeHeader at hw
  rcases hc : field h.codec with e | codec
  · rw [hc] at hw
    cases hw
  rcases hn : field h.name with e | name
  · rw [hc, hn] at hw
    cases hw
  rcases hm : Wire.metadata h.metadata with e | metadata
  · rw [hc, hn, hm] at hw
    cases hw
  rw [hc, hn, hm] at hw
  cases hw
  exact ⟨codec, name, metadata, rfl, rfl, rfl, rfl⟩

/-- What `readSnapshotHeader` makes of a header, up to the order of the metadata. -/
def Header.info (h : Header) (metadata : Metadata) : SnapshotInfo :=
  ⟨snapshotVersion, h.codec, h.name, h.count, metadata, if h.saveTime = 0 then none else some h.saveTime⟩

theorem reads_header (hu : h.metadata.Unique) (hcount : 0 ≤ h.count) (hw : writeHeader h = .ok w) :
    ∃ m' : Metadata, m'.pairs.Perm h.metadata.pairs ∧
      Reads source readSnapshotHeader (.plain w) (h.info m') := by
  obtain ⟨codec, name, metadata, hc, hn, hm, rfl⟩ := writeHeader_eq_ok hw
  obtain ⟨m', hperm, hmeta⟩ := reads_metadata hu hm
  refine ⟨m', hperm, ?_⟩
  have hlast : Reads source (Field.i64.orFail "reading count" >>= fun count ↦
      if count < 0 then Load.failAt "negative count" .corrupt
      else pure (⟨snapshotVersion, h.codec, h.name, count, m',
        if h.saveTime = 0 then none else some h.saveTime⟩ : SnapshotInfo))
      (.plain (i64 h.count)) (h.info m') := by
    refine (Field.reads_i64 h.count).mapError.map ?_
    rw [if_neg (by simpa using hcount)]
    rfl
  have htake := Field.reads_take snapshotMagic
  simp only [← Portion.plain_mul]
  refine htake.mapError.bind ?_
  rw [if_neg (by simp)]
  refine (Field.reads_u8 snapshotVersion).mapError.bind ?_
  rw [if_neg (by simp)]
  exact (Field.reads_str hc).mapError.bind <| (Field.reads_str hn).mapError.bind <|
    hmeta.mapError.bind <| (Field.reads_i64 h.saveTime).mapError.bind hlast

/-! ### Records -/

variable {K V : Type} {rc : RecordCodec K V} {snap : EntrySnapshot K V} {kb vb w : Bytes} {ck cv : ℕ}

theorem reads_tags {tags : List Bytes} (hw : fields tags = .ok w) :
    Reads source ((Field.str.orFail "reading tag").times tags.length) (.plain w) tags := by
  induction tags generalizing w with
  | nil =>
    cases hw
    exact .pure []
  | cons tag tags ih =>
    obtain ⟨a, b, ha, hb, rfl⟩ := cat_eq_ok.1 hw
    exact ((Field.reads_str ha).mapError.times_succ (ih hb)).congr (Portion.plain_mul ..)

/-- The count of the tags, and the tags. -/
theorem reads_tagCount {tags : List Bytes} (hw : Wire.tags tags = .ok w) {α : Type}
    {f : List Bytes → Load α} {m : Portion} {x : α} (hf : Reads source (f tags) m x) :
    Reads source (Field.u8.orFail "reading tagCount" >>= fun tagCount ↦
        (Field.str.orFail "reading tag").times tagCount.toNat >>= f) (.plain w * m) x := by
  unfold Wire.tags at hw
  split_ifs at hw with hlen
  obtain ⟨wn, wt, ⟨⟩, hwt, rfl⟩ := cat_eq_ok.1 hw
  have hnum : (UInt8.ofNat tags.length).toNat = tags.length := by
    rw [UInt8.toNat_ofNat']
    omega
  have htags := reads_tags hwt
  rw [← hnum] at htags
  rw [← Portion.plain_mul, mul_assoc]
  exact (Field.reads_u8 _).mapError.bind (htags.bind hf)

/-- The rest of a record of either version: `ttl` is what is read of the sliding TTL. -/
theorem reads_readRest {version : UInt8} {ws wt : Bytes} {ttl : Int64}
    (hws : Reads source (readSlidingTTL version) (.plain ws) ttl)
    (hwt : Wire.tags snap.tags = .ok wt) (key : K) (value : V) :
    Reads source (readRest version key value)
      (.plain (numbers snap.numbers.dropLast ++ (ws ++ wt)))
      { snap with key := key, value := value, slidingTTL := ttl } := by
  have hm : (.plain (i64 snap.expireAt) * (.plain (i64 snap.weight) *
      (.plain (i64 snap.inserted) * (.plain (u32 snap.hits) * (.plain (Wire.u16 snap.flags) *
      (.plain ws * (.plain wt * 1)))))) : Portion) =
      .plain (numbers snap.numbers.dropLast ++ (ws ++ wt)) := by
    ext1 <;> simp [Portion.plain, numbers, EntrySnapshot.numbers]
  refine Reads.congr ?_ hm
  unfold readRest
  refine (Field.reads_i64 snap.expireAt).mapError.bind ?_
  refine (Field.reads_i64 snap.weight).mapError.bind ?_
  refine (Field.reads_i64 snap.inserted).mapError.bind ?_
  refine (Field.reads_u32 snap.hits).mapError.bind ?_
  refine (Field.reads_u16 snap.flags).mapError.bind ?_
  refine hws.bind ?_
  exact reads_tagCount hwt (.pure _)

theorem reads_readFields {version : UInt8} {wk wv ws wt : Bytes} {ttl : Int64}
    (hk : Reads source (rc.unmarshalKey kb) ⟨[], ck⟩ snap.key)
    (hv : Reads source (rc.unmarshalValue vb) ⟨[], cv⟩ snap.value)
    (hwk : field kb = .ok wk) (hwv : field vb = .ok wv)
    (hws : Reads source (readSlidingTTL version) (.plain ws) ttl)
    (hwt : Wire.tags snap.tags = .ok wt) :
    Reads source (readFields rc version)
      ⟨wk ++ (wv ++ (numbers snap.numbers.dropLast ++ (ws ++ wt))), ck + cv⟩
      { snap with slidingTTL := ttl } := by
  have hm : (.plain wk * (.plain wv * (⟨[], ck⟩ * (⟨[], cv⟩ *
      .plain (numbers snap.numbers.dropLast ++ (ws ++ wt))))) : Portion) =
      ⟨wk ++ (wv ++ (numbers snap.numbers.dropLast ++ (ws ++ wt))), ck + cv⟩ := by
    ext1 <;> simp [Portion.plain]
  refine Reads.congr ?_ hm
  unfold readFields
  refine (Field.reads_bytes hwk).mapError.bind ?_
  refine (Field.reads_bytes hwv).mapError.bind ?_
  refine hk.mapError.bind ?_
  refine hv.mapError.bind ?_
  exact reads_readRest hws hwt snap.key snap.value

/-- The last number of a record as `Save` writes it. -/
theorem reads_slidingTTL (ttl : Int64) :
    Reads source (readSlidingTTL snapshotVersion) (.plain (i64 ttl)) ttl := by
  rw [readSlidingTTL, if_pos (by decide)]
  exact (Field.reads_i64 ttl).mapError

theorem reads_fields_record (hk : Reads source (rc.unmarshalKey kb) ⟨[], ck⟩ snap.key)
    (hv : Reads source (rc.unmarshalValue vb) ⟨[], cv⟩ snap.value)
    (hw : Wire.record kb vb snap = .ok w) :
    Reads source (readFields rc snapshotVersion) ⟨w, ck + cv⟩ snap := by
  obtain ⟨wk, w₁, hwk, hw₁, rfl⟩ := cat_eq_ok.1 hw
  obtain ⟨wv, w₂, hwv, hw₂, rfl⟩ := cat_eq_ok.1 hw₁
  obtain ⟨wn, wt, ⟨⟩, hwt, rfl⟩ := cat_eq_ok.1 hw₂
  refine (reads_readFields hk hv hwk hwv (reads_slidingTTL snap.slidingTTL) hwt).congr ?_
  ext1 <;> simp [numbers, EntrySnapshot.numbers]

theorem reads_fields_recordV2 (hk : Reads source (rc.unmarshalKey kb) ⟨[], ck⟩ snap.key)
    (hv : Reads source (rc.unmarshalValue vb) ⟨[], cv⟩ snap.value)
    (hw : recordV2 kb vb snap = .ok w) :
    Reads source (readFields rc snapshotVersionV2) ⟨w, ck + cv⟩ { snap with slidingTTL := 0 } := by
  obtain ⟨wk, w₁, hwk, hw₁, rfl⟩ := cat_eq_ok.1 hw
  obtain ⟨wv, w₂, hwv, hw₂, rfl⟩ := cat_eq_ok.1 hw₁
  obtain ⟨wn, wt, ⟨⟩, hwt, rfl⟩ := cat_eq_ok.1 hw₂
  have hws : Reads source (readSlidingTTL snapshotVersionV2) (.plain []) 0 := by
    rw [readSlidingTTL, if_neg (by decide)]
    exact .pure 0
  exact (reads_readFields hk hv hwk hwv hws hwt).congr (by rw [List.nil_append])

/-! ### Checks -/

/-- What `Save` may write and `Load` takes: a weight, and a sliding TTL when the entry slides. -/
structure EntrySnapshot.Valid (snap : EntrySnapshot K V) : Prop where
  weight : 1 ≤ snap.weight
  flags : snap.flags = 0 ∨ snap.flags = flagSliding
  sliding : snap.flags = flagSliding → 0 < snap.slidingTTL

theorem checkRecord_of_valid (h : snap.Valid) : checkRecord snapshotVersion snap = pure snap := by
  unfold checkRecord
  rw [if_neg (by have := h.weight; simpa using this)]
  rcases h.flags with hf | hf
  · rw [hf, if_neg (by decide), if_neg (by decide)]
  · rw [hf, if_neg (by decide), if_pos (by decide), if_neg (by decide), if_neg ?_]
    have := h.sliding hf
    simpa using this

/-- The sliding flag of an older snapshot is dropped. -/
theorem checkRecord_v2 (hw : 1 ≤ snap.weight) (hf : snap.flags = 0 ∨ snap.flags = flagSliding) :
    checkRecord snapshotVersionV2 snap = pure { snap with flags := 0 } := by
  unfold checkRecord
  rw [if_neg (by simpa using hw)]
  rcases hf with hf | hf
  · rw [hf, if_neg (by decide), if_neg (by decide), ← hf]
  · rw [hf, if_neg (by decide), if_pos (by decide), if_pos (by decide)]

/-- A record that is refused is called corrupt. -/
theorem checkRecord_cases (version : UInt8) (snap : EntrySnapshot K V) :
    (∃ snap', checkRecord version snap = pure snap') ∨
      ∃ message, checkRecord version snap = Load.failAt message .corrupt := by
  unfold checkRecord
  split_ifs
  · exact .inr ⟨_, rfl⟩
  · exact .inr ⟨_, rfl⟩
  · exact .inl ⟨_, rfl⟩
  · exact .inr ⟨_, rfl⟩
  · exact .inl ⟨_, rfl⟩
  · exact .inl ⟨_, rfl⟩

theorem reads_record (hk : Reads source (rc.unmarshalKey kb) ⟨[], ck⟩ snap.key)
    (hv : Reads source (rc.unmarshalValue vb) ⟨[], cv⟩ snap.value)
    (hw : Wire.record kb vb snap = .ok w) (h : snap.Valid) :
    Reads source (readRecord rc snapshotVersion) ⟨w, ck + cv⟩ snap :=
  (reads_fields_record hk hv hw).map (checkRecord_of_valid h)

theorem reads_recordV2 (hk : Reads source (rc.unmarshalKey kb) ⟨[], ck⟩ snap.key)
    (hv : Reads source (rc.unmarshalValue vb) ⟨[], cv⟩ snap.value)
    (hw : recordV2 kb vb snap = .ok w) (h : snap.Valid) :
    Reads source (readRecord rc snapshotVersionV2) ⟨w, ck + cv⟩
      { snap with flags := 0, slidingTTL := 0 } :=
  (reads_fields_recordV2 hk hv hw).map (checkRecord_v2 h.weight h.flags)

/-! ### What a save writes -/

theorem puts_writeNumbers (hash : Bool) (l : List (String × Bytes)) :
    Puts hash (writeNumbers hash l) (.ok (numbers l)) := by
  induction l with
  | nil => exact .nothing
  | cons x l ih => exact ((Saver.puts_write hash x.2).wrap x.1).seq ih

theorem puts_writeTags (hash : Bool) (tags : List Bytes) :
    Puts hash (writeTags hash tags) (fields tags) := by
  induction tags with
  | nil => exact .nothing
  | cons tag tags ih => exact ((Saver.puts_writeBytes hash tag).wrap "tag").seq ih

theorem puts_writeFields (hash : Bool) (kb vb : Bytes) (snap : EntrySnapshot K V) :
    Puts hash (writeFields hash kb vb snap) (Wire.record kb vb snap) := by
  refine ((Saver.puts_writeBytes hash kb).wrap "key").seq ?_
  refine ((Saver.puts_writeBytes hash vb).wrap "value").seq ?_
  refine (puts_writeNumbers hash snap.numbers).seq ?_
  unfold Wire.tags
  split_ifs
  · exact (Puts.refused _ _).wrap "tags"
  · exact ((Saver.puts_write hash _).wrap "tagCount").seq (puts_writeTags hash snap.tags)

/-! ### Snapshots of bytes -/

namespace Wire

/-- The bytes of records whose keys and values are bytes. -/
def records : List (EntrySnapshot Bytes Bytes) → Except SnapshotCause Bytes
  | [] => .ok []
  | snap :: staged => cat (record snap.key snap.value snap) (records staged)

end Wire

theorem RecordCodec.reads_bytes (b : Bytes) :
    Reads source (bytes.unmarshalKey b) ⟨[], 0⟩ b ∧ Reads source (bytes.unmarshalValue b) ⟨[], 0⟩ b :=
  ⟨.pure b, .pure b⟩

theorem puts_writeRecords (hash : Bool) (staged : List (EntrySnapshot Bytes Bytes)) :
    Puts hash (writeRecords .bytes hash staged) (Wire.records staged) := by
  induction staged with
  | nil => exact .nothing
  | cons snap staged ih =>
    have hrecord : Puts hash (writeRecord .bytes hash snap) (Wire.record snap.key snap.value snap) :=
      puts_writeFields hash snap.key snap.value snap
    exact hrecord.seq ih

variable {staged : List (EntrySnapshot Bytes Bytes)}

theorem reads_records (h : ∀ snap ∈ staged, snap.Valid) (hw : Wire.records staged = .ok w) :
    Reads source ((readRecord .bytes snapshotVersion).times staged.length) (.plain w) staged := by
  induction staged generalizing w with
  | nil =>
    cases hw
    exact .pure []
  | cons snap staged ih =>
    obtain ⟨a, b, ha, hb, rfl⟩ := cat_eq_ok.1 hw
    have hrecord : Reads source (readRecord .bytes snapshotVersion) (.plain a) snap :=
      reads_record (RecordCodec.reads_bytes snap.key).1 (RecordCodec.reads_bytes snap.value).2 ha
        (h snap List.mem_cons_self)
    have hrest := ih (fun x hx ↦ h x (List.mem_cons_of_mem snap hx)) hb
    exact hrecord.times_succ hrest

/-- The checksum of what was hashed is taken for right. -/
theorem readTrailer_eq_ok (crc : Bytes → UInt32) {s : Loading} {hashed rest : Bytes}
    (hh : s.sr.h = some hashed) (hr : s.sr.r = u32 (crc hashed) ++ rest) (hleft : 4 ≤ s.sr.left) :
    ∃ s', readTrailer crc s = (.ok (), s') ∧ s'.sr.r = rest := by
  have hgives : source.gives { s with sr := { s.sr with h := none } } (.plain (u32 (crc hashed))) :=
    gives_plain hr hleft
  have hread : Reads source (Field.u32.orFail "reading trailing CRC" >>= fun stored ↦
      if stored ≠ crc hashed then Load.failAt "CRC mismatch" .corrupt else pure ())
      (.plain (u32 (crc hashed))) () := by
    refine (Field.reads_u32 (crc hashed)).mapError.map ?_
    rw [if_neg (by simp)]
  obtain ⟨s', hs', hafter⟩ := hread.ok _ hgives
  refine ⟨s', ?_, ?_⟩
  · unfold readTrailer
    rw [hh]
    exact hs'
  · rw [hafter.sr]
    show s.sr.r.drop _ = rest
    rw [hr]
    exact List.drop_left

/-! ### Sizes -/

theorem field_of_lt {b : Bytes} (h : b.length < 2 ^ 31) : ∃ w, field b = .ok w := by
  unfold field
  rw [if_neg (by omega)]
  exact ⟨_, rfl⟩

theorem fields_of_lt {l : List Bytes} (h : ∀ b ∈ l, b.length < 2 ^ 31) : ∃ w, fields l = .ok w := by
  induction l with
  | nil => exact ⟨[], rfl⟩
  | cons b l ih =>
    obtain ⟨w₁, hw₁⟩ := field_of_lt (h b List.mem_cons_self)
    obtain ⟨w₂, hw₂⟩ := ih fun x hx ↦ h x (List.mem_cons_of_mem b hx)
    exact ⟨w₁ ++ w₂, cat_eq_ok.2 ⟨w₁, w₂, hw₁, hw₂, rfl⟩⟩

/-- Every field of the record is shorter than 2 GiB, and there are few enough tags. -/
structure EntrySnapshot.Sized (snap : EntrySnapshot Bytes Bytes) : Prop where
  key : snap.key.length < 2 ^ 31
  value : snap.value.length < 2 ^ 31
  count : snap.tags.length ≤ 255
  tags : ∀ tag ∈ snap.tags, tag.length < 2 ^ 31

/-- The header has a field shorter than 2 GiB for each of its strings. -/
structure Header.Sized (h : Header) : Prop where
  codec : h.codec.length < 2 ^ 31
  name : h.name.length < 2 ^ 31
  count : h.metadata.pairs.length ≤ 65535
  metadata : ∀ p ∈ h.metadata.pairs, p.1.length < 2 ^ 31 ∧ p.2.length < 2 ^ 31

theorem EntrySnapshot.Sized.tags_ok {snap : EntrySnapshot Bytes Bytes} (h : snap.Sized) :
    ∃ w, Wire.tags snap.tags = .ok w := by
  obtain ⟨w, hw⟩ := fields_of_lt h.tags
  unfold Wire.tags
  rw [if_neg (by have := h.count; omega)]
  exact ⟨_, cat_eq_ok.2 ⟨_, w, rfl, hw, rfl⟩⟩

/-- A record of either version can be written. -/
theorem EntrySnapshot.Sized.record_ok {snap : EntrySnapshot Bytes Bytes} (h : snap.Sized) :
    (∃ w, Wire.record snap.key snap.value snap = .ok w) ∧
      ∃ w, recordV2 snap.key snap.value snap = .ok w := by
  obtain ⟨wk, hk⟩ := field_of_lt h.key
  obtain ⟨wv, hv⟩ := field_of_lt h.value
  obtain ⟨wt, ht⟩ := h.tags_ok
  exact ⟨⟨_, cat_eq_ok.2 ⟨wk, _, hk, cat_eq_ok.2 ⟨wv, _, hv,
      cat_eq_ok.2 ⟨_, wt, rfl, ht, rfl⟩, rfl⟩, rfl⟩⟩,
    ⟨_, cat_eq_ok.2 ⟨wk, _, hk, cat_eq_ok.2 ⟨wv, _, hv,
      cat_eq_ok.2 ⟨_, wt, rfl, ht, rfl⟩, rfl⟩, rfl⟩⟩⟩

theorem records_ok (h : ∀ snap ∈ staged, snap.Sized) : ∃ w, Wire.records staged = .ok w := by
  induction staged with
  | nil => exact ⟨[], rfl⟩
  | cons snap staged ih =>
    obtain ⟨⟨w₁, hw₁⟩, -⟩ := (h snap List.mem_cons_self).record_ok
    obtain ⟨w₂, hw₂⟩ := ih fun x hx ↦ h x (List.mem_cons_of_mem snap hx)
    exact ⟨w₁ ++ w₂, cat_eq_ok.2 ⟨w₁, w₂, hw₁, hw₂, rfl⟩⟩

theorem Header.Sized.metadata_ok (hh : h.Sized) (hu : h.metadata.Unique) :
    ∃ w, Wire.metadata h.metadata = .ok w := by
  have hsize : ∀ b ∈ (sortStrings (h.metadata.pairs.map Prod.fst)).flatMap
      (fun k ↦ [k, (h.metadata.get k).getD []]), b.length < 2 ^ 31 := by
    intro b hb
    obtain ⟨k, hk, hb⟩ := List.mem_flatMap.1 hb
    obtain ⟨p, hp, rfl⟩ := List.mem_map.1 ((sortStrings_perm _).mem_iff.1 hk)
    have hget : h.metadata.get p.1 = some p.2 := hu.get_eq hp (beq_self_eq_true _)
    rw [hget] at hb
    rcases List.mem_cons.1 hb with rfl | hb
    · exact (hh.metadata p hp).1
    · rw [List.mem_singleton.1 hb]
      exact (hh.metadata p hp).2
  obtain ⟨w, hw⟩ := fields_of_lt hsize
  unfold Wire.metadata
  rw [if_neg (by have := hh.count; omega)]
  exact ⟨_, cat_eq_ok.2 ⟨_, w, rfl, hw, rfl⟩⟩

theorem Header.Sized.writeHeader_ok (hh : h.Sized) (hu : h.metadata.Unique) :
    ∃ w, writeHeader h = .ok w := by
  obtain ⟨wc, hc⟩ := field_of_lt hh.codec
  obtain ⟨wn, hn⟩ := field_of_lt hh.name
  obtain ⟨wm, hm⟩ := hh.metadata_ok hu
  unfold writeHeader
  rw [hc, hn, hm]
  exact ⟨_, rfl⟩

/-! ### The whole of it -/

theorem writePlain_eq_ok (crc : Bytes → UInt32) {hb rb : Bytes} (hr : Wire.records staged = .ok rb)
    {s : Saving} (hs : s.hashed = [])
    (hfit : (hb ++ (rb ++ u32 (crc (hb ++ rb)))).length ≤ s.left) :
    ∃ s', writePlain crc .bytes hb staged s = (.ok (), s') ∧
      s'.out = s.out ++ (hb ++ (rb ++ u32 (crc (hb ++ rb)))) := by
  simp only [List.length_append] at hfit
  have h₁ : wrapSaveErr "header" (Saver.write true hb) s = (.ok (), s.put true hb) :=
    ((Saver.puts_write true hb).wrap "header" s _).2 ⟨hb, rfl, by omega, rfl⟩
  have hleft₁ : (s.put true hb).left = s.left - hb.length := rfl
  have h₂ : writeRecords .bytes true staged (s.put true hb) = (.ok (), (s.put true hb).put true rb) :=
    (puts_writeRecords true staged _ _).2 ⟨rb, hr, by omega, rfl⟩
  have hleft₂ : ((s.put true hb).put true rb).left = s.left - hb.length - rb.length := rfl
  have hhash : ((s.put true hb).put true rb).hashed = hb ++ rb := by
    show s.hashed ++ hb ++ rb = _
    rw [hs, List.nil_append]
  have h₃ : writeTrailer crc ((s.put true hb).put true rb) =
      (.ok (), ((s.put true hb).put true rb).put false (u32 (crc (hb ++ rb)))) := by
    unfold writeTrailer
    rw [hhash]
    exact ((Saver.puts_write false _).wrap "crc" _ _).2 ⟨_, rfl, by omega, rfl⟩
  refine ⟨_, (bind_of_ok h₁).trans ((bind_of_ok h₂).trans h₃), ?_⟩
  show s.out ++ hb ++ rb ++ _ = _
  simp only [List.append_assoc]

theorem readPlain_eq_ok (crc : Bytes → UInt32) (hu : h.metadata.Unique) {hb rb : Bytes}
    (hh : writeHeader h = .ok hb) (hv : ∀ snap ∈ staged, snap.Valid)
    (hr : Wire.records staged = .ok rb) (hcount : h.count.toInt = staged.length) {rest : Bytes}
    {limit : ℕ} (hlimit : (hb ++ (rb ++ u32 (crc (hb ++ rb)))).length ≤ limit) :
    ∃ (m' : Metadata) (s' : Loading), m'.pairs.Perm h.metadata.pairs ∧
      readPlain crc .bytes (.start (hb ++ (rb ++ u32 (crc (hb ++ rb))) ++ rest) limit) =
        (.ok (h.info m', staged), s') ∧ s'.sr.r = rest := by
  have hlen : (u32 (crc (hb ++ rb))).length = 4 := LittleEndian.length_put ..
  simp only [List.length_append, hlen] at hlimit
  have hpos : 0 ≤ h.count := by
    rw [Int64.le_iff_toInt_le, hcount]
    exact Int.natCast_nonneg _
  obtain ⟨m', hperm, hhead⟩ := reads_header hu hpos hh
  have hrecs : Reads source (readRecords .bytes (h.info m').version (h.info m').count) (.plain rb) staged := by
    have hn : h.count.toInt.toNat = staged.length := by rw [hcount, Int.toNat_natCast]
    unfold readRecords
    show Reads source ((readRecord .bytes snapshotVersion).times h.count.toInt.toNat) _ _
    rw [hn]
    exact reads_records hv hr
  set input := hb ++ (rb ++ u32 (crc (hb ++ rb))) ++ rest with hinput
  have hgives : source.gives (.start input limit) (.plain hb * .plain rb) := by
    have hr : (Loading.start input limit).sr.r = hb ++ rb ++ (u32 (crc (hb ++ rb)) ++ rest) := by
      show input = _
      rw [hinput]
      simp only [List.append_assoc]
    refine gives_plain hr ?_
    show (hb ++ rb).length ≤ limit
    rw [List.length_append]
    omega
  obtain ⟨s₁, h₁, hafter₁⟩ := hhead.ok _ (source.gives_left hgives)
  obtain ⟨s₂, h₂, hafter₂⟩ := hrecs.ok _ (source.gives_right hgives hafter₁)
  have hsr : s₂.sr = (Loading.start input limit).sr.feed (hb ++ rb) := (source.after_mul hafter₁ hafter₂).sr
  have hh₂ : s₂.sr.h = some (hb ++ rb) := congrArg SnapReader.h hsr
  have hr₂ : s₂.sr.r = u32 (crc (hb ++ rb)) ++ rest := by
    rw [hsr]
    show input.drop (hb ++ rb).length = _
    rw [hinput, ← List.append_assoc hb rb, List.append_assoc (hb ++ rb), List.drop_left]
  have hleft₂ : 4 ≤ s₂.sr.left := by
    rw [hsr]
    show 4 ≤ limit - (hb ++ rb).length
    rw [List.length_append]
    omega
  obtain ⟨s₃, h₃, hrest⟩ := readTrailer_eq_ok crc hh₂ hr₂ hleft₂
  refine ⟨m', s₃, hperm, ?_, hrest⟩
  exact (bind_of_ok h₁).trans ((bind_of_ok h₂).trans (bind_of_ok h₃))

/-- **A snapshot reads back as it was written**: header and records are written for every input within
the format's sizes, and are read from the bytes written, which are taken to the last; a record of
version 2 reads without its sliding TTL and its flag. -/
theorem snapshot_roundtrip (crc : Bytes → UInt32) {h : Header} (hsize : h.Sized)
    (hu : h.metadata.Unique) (htime : h.saveTime ≠ 0) {staged : List (EntrySnapshot Bytes Bytes)}
    (hstaged : ∀ snap ∈ staged, snap.Sized ∧ snap.Valid) (hcount : h.count.toInt = staged.length) :
    (∃ header w, writeHeader h = .ok header ∧
      (∀ s : Saving, s.hashed = [] → w.length ≤ s.left →
        ∃ s', writePlain crc .bytes header staged s = (.ok (), s') ∧ s'.out = s.out ++ w) ∧
      ∀ rest limit, w.length ≤ limit → ∃ (m' : Metadata) (s' : Loading),
        m'.pairs.Perm h.metadata.pairs ∧ s'.sr.r = rest ∧
        readPlain crc .bytes (.start (w ++ rest) limit) =
          (.ok (⟨snapshotVersion, h.codec, h.name, h.count, m', some h.saveTime⟩, staged), s')) ∧
    ∀ snap ∈ staged, ∃ w, Wire.recordV2 snap.key snap.value snap = .ok w ∧
      Reads source (readRecord .bytes snapshotVersionV2) (.plain w)
        { snap with flags := 0, slidingTTL := 0 } := by
  refine ⟨?_, fun snap hmem ↦ ?_⟩
  · obtain ⟨hb, hh⟩ := hsize.writeHeader_ok hu
    obtain ⟨rb, hr⟩ := records_ok fun snap hmem ↦ (hstaged snap hmem).1
    refine ⟨hb, hb ++ (rb ++ Wire.u32 (crc (hb ++ rb))), hh, fun s hs hfit ↦ ?_,
      fun rest limit hlimit ↦ ?_⟩
    · exact writePlain_eq_ok crc hr hs hfit
    · obtain ⟨m', s', hperm, hread, hrest⟩ := readPlain_eq_ok crc hu hh
        (fun snap hmem ↦ (hstaged snap hmem).2) hr hcount hlimit
      refine ⟨m', s', hperm, hrest, ?_⟩
      rw [hread, Header.info, if_neg htime]
  · obtain ⟨hs, hv⟩ := hstaged snap hmem
    obtain ⟨-, w, hw⟩ := hs.record_ok
    exact ⟨w, hw, reads_recordV2 (RecordCodec.reads_bytes snap.key).1
      (RecordCodec.reads_bytes snap.value).2 hw hv⟩

def sampleHeader : Header := ⟨ascii "raw", ascii "small", ⟨[([2], [7]), ([1], [8])]⟩, 5, 1⟩

/-- A record that slides, with a tag. -/
def sampleRecord : EntrySnapshot Bytes Bytes := ⟨[1], [2, 3], 90, 1, 5, 4, flagSliding, 60, [[9]]⟩

theorem snapshot_roundtrip_sample :
    ∃ w : Bytes, ∀ rest limit, w.length ≤ limit → ∃ (m' : Metadata) (s' : Loading),
      m'.pairs.Perm sampleHeader.metadata.pairs ∧ s'.sr.r = rest ∧
      readPlain (fun b ↦ UInt32.ofNat b.length) .bytes (.start (w ++ rest) limit) =
        (.ok (⟨snapshotVersion, sampleHeader.codec, sampleHeader.name, 1, m', some 5⟩,
          [sampleRecord]), s') := by
  have hsize : sampleHeader.Sized := ⟨by decide, by decide, by decide, by decide⟩
  have hu : sampleHeader.metadata.Unique := by
    unfold KeyMap.Unique
    decide
  have hrecord : sampleRecord.Sized ∧ sampleRecord.Valid :=
    ⟨⟨by decide, by decide, by decide, by decide⟩, ⟨by decide, .inr rfl, fun _ ↦ by decide⟩⟩
  have hstaged : ∀ snap ∈ [sampleRecord], snap.Sized ∧ snap.Valid := by simpa using hrecord
  obtain ⟨-, w, -, -, hread⟩ := (snapshot_roundtrip (fun b ↦ UInt32.ofNat b.length) hsize hu
    (by decide) hstaged (by decide)).1
  exact ⟨w, hread⟩

end Memcache

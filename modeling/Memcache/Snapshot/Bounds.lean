import Memcache.Snapshot.Into
import Memcache.Snapshot.Limits

/-!
# What a load may use

Whatever the input says of lengths and counts, a load takes no more bytes than its limit, makes no buffer
beyond the bytes that it may still take, and inflates no more than 16 times its limit and one byte.

The three are one relation between the states before and after a step, `Bounded`. Where a step fails, the
last inflation may have gone **one byte** over what was left.
-/

namespace Memcache

open Reading Loading

variable {C K V T : Type}

/-! ### The relations -/

namespace SnapReader

/-- A prefix of the input was taken, within what was left of the limit. -/
def Fed (sr sr' : SnapReader) : Prop := ∃ b, sr' = sr.feed b ∧ b <+: sr.r ∧ b.length ≤ sr.left

/-- The same, up to what is hashed and captured. -/
def Drawn (sr sr' : SnapReader) : Prop := ∃ b, sr.r = b ++ sr'.r ∧ sr.left = sr'.left + b.length

variable {sr sr' sr'' : SnapReader}

theorem Fed.refl (sr : SnapReader) : sr.Fed sr := ⟨[], (feed_nil sr).symm, List.nil_prefix, Nat.zero_le _⟩

theorem Fed.trans (h : sr.Fed sr') (h' : sr'.Fed sr'') : sr.Fed sr'' := by
  obtain ⟨b, rfl, ⟨r, hr⟩, hleft⟩ := h
  obtain ⟨b', rfl, ⟨r', hr'⟩, hleft'⟩ := h'
  have hdrop : (sr.feed b).r = r := by
    show sr.r.drop b.length = r
    rw [← hr, List.drop_left]
  have hleft'' : (sr.feed b).left = sr.left - b.length := rfl
  refine ⟨b ++ b', feed_feed .., ⟨r', ?_⟩, ?_⟩
  · rw [List.append_assoc, hr', hdrop, hr]
  · rw [List.length_append]
    omega

theorem Fed.drawn (h : sr.Fed sr') : sr.Drawn sr' := by
  obtain ⟨b, rfl, ⟨r, hr⟩, hleft⟩ := h
  refine ⟨b, ?_, ?_⟩
  · show sr.r = b ++ sr.r.drop b.length
    rw [← hr, List.drop_left]
  · show sr.left = sr.left - b.length + b.length
    omega

theorem Drawn.refl (sr : SnapReader) : sr.Drawn sr := ⟨[], rfl, rfl⟩

theorem Drawn.trans (h : sr.Drawn sr') (h' : sr'.Drawn sr'') : sr.Drawn sr'' := by
  obtain ⟨b, hr, hleft⟩ := h
  obtain ⟨b', hr', hleft'⟩ := h'
  refine ⟨b ++ b', ?_, ?_⟩
  · rw [hr, hr', List.append_assoc]
  · rw [List.length_append]
    omega

end SnapReader

open SnapReader (Drawn Fed)

namespace Loading

/-- The reader went on as `I` says, buffers were made that were no greater than what was left for them,
and what was inflated was left to inflate. -/
structure Bounded (I : SnapReader → SnapReader → Prop) (s s' : Loading) : Prop where
  sr : I s.sr s'.sr
  allocs : (∀ a ∈ s.allocs, a.1 ≤ a.2) → ∀ a ∈ s'.allocs, a.1 ≤ a.2
  inflated : s'.inflated + s'.inflateLeft = s.inflated + s.inflateLeft

/-- A failed step may have inflated a byte more. -/
structure Exceeded (I : SnapReader → SnapReader → Prop) (s s' : Loading) : Prop where
  sr : I s.sr s'.sr
  allocs : (∀ a ∈ s.allocs, a.1 ≤ a.2) → ∀ a ∈ s'.allocs, a.1 ≤ a.2
  inflated : s'.inflated ≤ s.inflated + s.inflateLeft + 1

variable {I J : SnapReader → SnapReader → Prop} {s s' : Loading}

theorem Bounded.exceeded (h : s.Bounded I s') : s.Exceeded I s' := by
  have := h.inflated
  exact ⟨h.sr, h.allocs, by omega⟩

theorem steps_of (hrefl : ∀ sr, I sr sr) (htrans : ∀ {sr sr' sr''}, I sr sr' → I sr' sr'' → I sr sr'') :
    Reading.Steps (Bounded I) (Exceeded I) where
  refl s := ⟨hrefl s.sr, id, rfl⟩
  trans h h' := ⟨htrans h.sr h'.sr, fun hs ↦ h'.allocs (h.allocs hs), h'.inflated.trans h.inflated⟩
  fails s := ⟨hrefl s.sr, id, by omega⟩
  trans_fails h h' := by
    have := h.inflated
    have := h'.inflated
    exact ⟨htrans h.sr h'.sr, fun hs ↦ h'.allocs (h.allocs hs), by omega⟩

theorem steps_fed : Reading.Steps (Bounded Fed) (Exceeded Fed) :=
  steps_of SnapReader.Fed.refl SnapReader.Fed.trans

theorem steps_drawn : Reading.Steps (Bounded Drawn) (Exceeded Drawn) :=
  steps_of SnapReader.Drawn.refl SnapReader.Drawn.trans

/-- Taking bytes that the input has, within what is left. -/
theorem bounded_feed {b : Bytes} (hr : b <+: s.sr.r) (hleft : b.length ≤ s.sr.left) :
    s.Bounded Fed { s with sr := s.sr.feed b } :=
  ⟨⟨b, rfl, hr, hleft⟩, id, rfl⟩

end Loading

/-- The computation keeps the bounds. -/
abbrev Keeping {ε α : Type} (p : Reading Loading ε α) : Prop :=
  Keeps (Bounded Fed) (Exceeded Fed) p

/-- The computation keeps them, and may change what is hashed and captured. -/
abbrev Drawing {ε α : Type} (p : Reading Loading ε α) : Prop :=
  Keeps (Bounded Drawn) (Exceeded Drawn) p

theorem Keeping.drawing {ε α : Type} {p : Reading Loading ε α} (h : Keeping p) : Drawing p :=
  h.mono (fun h ↦ ⟨h.sr.drawn, h.allocs, h.inflated⟩) fun h ↦ ⟨h.sr.drawn, h.allocs, h.inflated⟩

/-! ### Fields -/

namespace Field

theorem keeping_read (n : ℕ) : Keeping (read n) := by
  intro s
  unfold read
  by_cases hleft : s.sr.left < n
  · rw [if_pos hleft]
    exact steps_fed.fails s
  rw [if_neg hleft]
  split_ifs with hlen
  · -- the input ends here: all that is left of it was taken
    exact (bounded_feed List.prefix_rfl (by omega)).exceeded
  · exact (bounded_feed List.prefix_rfl (by omega)).exceeded
  · exact bounded_feed (List.take_prefix ..) (by rw [List.length_take]; omega)

/-- Logging a buffer within what is left. -/
theorem bounded_alloc {s : Loading} {n : ℕ} (hn : n ≤ s.sr.left) :
    s.Bounded Fed { s with allocs := s.allocs ++ [(n, s.sr.left)] } := by
  refine ⟨.refl s.sr, fun hs a ha ↦ ?_, rfl⟩
  rcases List.mem_append.1 ha with ha | ha
  · exact hs a ha
  · rw [List.mem_singleton.1 ha]
    exact hn

theorem keeping_take (n : ℕ) : Keeping (take n) := by
  intro s
  unfold take
  split_ifs with hleft
  · exact steps_fed.fails s
  · exact Keeps.after steps_fed (bounded_alloc (Nat.not_lt.1 hleft)) (keeping_read n _)

theorem keeping_makeMap (n : ℕ) : Keeping (makeMap n) := fun s ↦ bounded_alloc (by omega)

/-- A number of some bytes. -/
theorem keeping_number {α : Type} (n : ℕ) (f : Bytes → α) :
    Keeping (do let b ← read n; pure (f b)) :=
  (keeping_read n).bind steps_fed fun b ↦ .pure steps_fed (f b)

theorem keeping_u64 : Keeping u64 := keeping_number 8 _

theorem keeping_i64 : Keeping i64 := keeping_u64.bind steps_fed fun v ↦ .pure steps_fed v.toInt64

theorem keeping_bytes : Keeping bytes := by
  refine (keeping_number 4 _).bind steps_fed fun n ↦ ?_
  split_ifs
  · exact .pure steps_fed []
  · exact keeping_take _

theorem keeping_metadata : Keeping metadata := by
  have hpair : Keeping pair := keeping_bytes.bind steps_fed fun k ↦
    keeping_bytes.bind steps_fed fun v ↦ .pure steps_fed (k, v)
  exact (keeping_number 2 _).bind steps_fed fun n ↦ (keeping_makeMap _).bind steps_fed fun _ ↦
    (hpair.times steps_fed _).bind steps_fed fun pairs ↦ .pure steps_fed _

end Field

theorem keeping_failAt {α : Type} (message : String) (err : SnapshotCause) :
    Keeping (Load.failAt message err : Load α) :=
  steps_fed.fails

theorem keeping_readHeaderFields : Keeping readHeaderFields := by
  refine (Field.keeping_number 1 _).mapError.bind steps_fed fun version ↦ ?_
  split_ifs
  · exact .fail steps_fed _
  refine Field.keeping_bytes.mapError.bind steps_fed fun codec ↦ ?_
  refine Field.keeping_bytes.mapError.bind steps_fed fun name ↦ ?_
  refine Field.keeping_metadata.mapError.bind steps_fed fun metadata ↦ ?_
  refine Field.keeping_i64.mapError.bind steps_fed fun saveTime ↦ ?_
  refine Field.keeping_i64.mapError.bind steps_fed fun count ↦ ?_
  by_cases hcount : count < 0
  · rw [if_pos hcount]
    exact keeping_failAt _ _
  · rw [if_neg hcount]
    exact .pure steps_fed _

theorem keeping_readSnapshotHeader : Keeping readSnapshotHeader := by
  refine (Field.keeping_take _).mapError.bind steps_fed fun magic ↦ ?_
  split_ifs
  · exact .fail steps_fed _
  · exact keeping_readHeaderFields

/-! ### Codecs -/

namespace Codec

/-- What `inflate` gets out of `gzip` is one byte at most over its budget. -/
theorem length_take_inflateAsks (out : Bytes) (left : ℕ) :
    (out.take (inflateAsks left)).length ≤ left + 1 := by
  unfold inflateAsks
  rw [List.length_take]
  split_ifs <;> omega

theorem keeping_inflate (env : CodecEnv C) (codec data : Bytes) : Keeping (inflate env codec data) := by
  intro s
  unfold inflate
  rcases env.gunzip data with _ | ⟨out, ends⟩
  · exact steps_fed.fails s
  have hlen := length_take_inflateAsks out s.inflateLeft
  have hfail : s.Exceeded Fed
      { s with inflated := s.inflated + (out.take (inflateAsks s.inflateLeft)).length } :=
    ⟨.refl s.sr, id, by dsimp only; omega⟩
  dsimp only
  split_ifs with hends hleft
  · exact hfail
  · exact hfail
  · exact ⟨.refl s.sr, id, by dsimp only; omega⟩

/-- By the layers of the stack. -/
theorem keeping_decode (env : CodecEnv C) (g : GoType C T) (c : Codec C) (data : Bytes) :
    Keeping (c.decode env g data) := by
  induction c generalizing data with
  | base b => exact .ofExcept steps_fed _
  | compressed p level c ih =>
    exact (keeping_inflate env _ data).bind steps_fed fun raw ↦ ih raw
  | encrypted gcm c ih =>
    exact (Keeps.ofExcept steps_fed _).bind steps_fed fun plain ↦ ih plain

end Codec

section

variable (env : CodecEnv C) (types : RecordTypes C K V) (c : Codec C)

theorem keeping_unmarshalKey (data : Bytes) : Keeping (unmarshalKey env types c data) := by
  unfold unmarshalKey
  split_ifs
  · exact Codec.keeping_decode env _ c data
  · exact (Codec.keeping_decode env _ c data).bind steps_fed fun b ↦ .ofExcept steps_fed _

theorem keeping_unmarshalValue (data : Bytes) : Keeping (unmarshalValue env types c data) := by
  unfold unmarshalValue
  rcases types.custom with _ | ⟨m, u⟩
  · exact Codec.keeping_decode env _ c data
  · exact .ofExcept steps_fed _

/-! ### Records -/

theorem keeping_readRest (version : UInt8) (key : K) (value : V) :
    Keeping (readRest version key value) := by
  have httl : Keeping (readSlidingTTL version) := by
    unfold readSlidingTTL
    split_ifs
    · exact Field.keeping_i64.mapError
    · exact .pure steps_fed 0
  refine Field.keeping_i64.mapError.bind steps_fed fun expireAt ↦ ?_
  refine Field.keeping_i64.mapError.bind steps_fed fun weight ↦ ?_
  refine Field.keeping_i64.mapError.bind steps_fed fun inserted ↦ ?_
  refine (Field.keeping_number 4 _).mapError.bind steps_fed fun hits ↦ ?_
  refine (Field.keeping_number 2 _).mapError.bind steps_fed fun flags ↦ ?_
  refine httl.bind steps_fed fun slidingTTL ↦ ?_
  refine (Field.keeping_number 1 _).mapError.bind steps_fed fun tagCount ↦ ?_
  refine (Field.keeping_bytes.mapError.times steps_fed _).bind steps_fed fun tags ↦ ?_
  exact .pure steps_fed _

theorem keeping_readRecords (version : UInt8) (count : Int64) :
    Keeping (readRecords (recordCodec env types c) version count) := by
  refine Keeps.times steps_fed ?_ _
  have hfields : Keeping (readFields (recordCodec env types c) version) := by
    refine Field.keeping_bytes.mapError.bind steps_fed fun kb ↦ ?_
    refine Field.keeping_bytes.mapError.bind steps_fed fun vb ↦ ?_
    refine (keeping_unmarshalKey env types c kb).mapError.bind steps_fed fun key ↦ ?_
    refine (keeping_unmarshalValue env types c vb).mapError.bind steps_fed fun value ↦ ?_
    exact keeping_readRest version key value
  refine hfields.bind steps_fed fun snap ↦ ?_
  rcases checkRecord_cases version snap with ⟨snap', hcheck⟩ | ⟨message, hcheck⟩
  · rw [hcheck]
    exact .pure steps_fed snap'
  · rw [hcheck]
    exact keeping_failAt _ _

theorem keeping_openRecords (gcm : AEAD) (header sealed : Bytes) (version : UInt8) (count : Int64) :
    Keeping (openRecords (recordCodec env types c) gcm header sealed version count) := by
  intro s
  unfold openRecords
  rcases Codec.openWith gcm sealed header with err | plain
  · exact steps_fed.fails s
  dsimp only
  have hrec := keeping_readRecords env types c version count
  rcases hread : readRecords (recordCodec env types c) version count
    { s with sr := ⟨plain, none, none, plain.length, s.sr.off, true⟩ } with ⟨e | staged, s'⟩
  · have h := hrec.of_error hread
    exact ⟨.refl s.sr, h.allocs, h.inflated⟩
  · have h := hrec.of_ok hread
    -- after the text the first reader goes on
    have hbound : s.Bounded Fed { s' with sr := s.sr } := ⟨.refl s.sr, h.allocs, h.inflated⟩
    dsimp only
    split_ifs
    · exact hbound.exceeded
    · exact hbound

end

/-! ### The whole of it -/

theorem keeping_readBody (cfg : SnapshotConfig C K V) (header : Bytes) (info : SnapshotInfo) :
    Keeping (readBody cfg header info) := by
  unfold readBody
  rcases cfg.codec.splitEncryption.2 with _ | ⟨gcm, base⟩
  · dsimp only
    split_ifs
    · exact keeping_readRecords cfg.env cfg.types _ _ _
    · exact keeping_readRecords cfg.env cfg.types _ _ _
  · dsimp only
    split_ifs
    · exact .fail steps_fed _
    · refine Field.keeping_u64.mapError.bind steps_fed fun len ↦ ?_
      refine (Field.keeping_take _).mapError.bind steps_fed fun sealed ↦ ?_
      exact keeping_openRecords cfg.env cfg.types _ gcm _ _ _ _

theorem drawing_readTrailer (crc : Bytes → UInt32) : Drawing (readTrailer crc) := by
  intro s
  have hstart : s.Bounded Drawn { s with sr := { s.sr with h := none } } :=
    ⟨⟨[], rfl, rfl⟩, id, rfl⟩
  have hcheck : Keeping (do
      let stored ← Field.u32.orFail "reading trailing CRC"
      if stored ≠ crc (s.sr.h.getD []) then Load.failAt "CRC mismatch" .corrupt else pure ()) := by
    refine (Field.keeping_number 4 _).mapError.bind steps_fed fun stored ↦ ?_
    split_ifs
    · exact keeping_failAt _ _
    · exact .pure steps_fed ()
  exact Keeps.after steps_drawn hstart (hcheck.drawing _)

theorem drawing_readSnapshot (cfg : SnapshotConfig C K V) : Drawing (readSnapshot cfg) := by
  have hend : Drawing endHeader := fun s ↦ ⟨⟨[], rfl, rfl⟩, id, rfl⟩
  refine keeping_readSnapshotHeader.drawing.bind steps_drawn fun info ↦ ?_
  refine hend.bind steps_drawn fun header ↦ ?_
  dsimp only
  split_ifs
  · exact .fail steps_drawn _
  · exact .fail steps_drawn _
  · refine (keeping_readBody cfg header info).drawing.bind steps_drawn fun staged ↦ ?_
    exact (drawing_readTrailer cfg.crc).bind steps_drawn fun _ ↦ .pure steps_drawn staged

theorem inflateLimit_le (limit : ℕ) : inflateLimit limit ≤ 16 * limit := by
  unfold inflateLimit maxInt64
  split_ifs <;> omega

/-- A load that failed went as far as one that failed may, and one that returned not even so far. -/
theorem exceeded_loadSnapshot (cfg : SnapshotConfig C K V) (input : Bytes) :
    (Loading.start input cfg.snapshotLimit).Exceeded Drawn (loadSnapshot cfg input).2 := by
  have h := drawing_readSnapshot cfg (.start input cfg.snapshotLimit)
  unfold loadSnapshot
  rcases hload : readSnapshot cfg (.start input cfg.snapshotLimit) with ⟨e | staged, ls⟩
  · rw [hload] at h
    exact h
  · rw [hload] at h
    exact Bounded.exceeded h

variable {n : ℕ} [BEq K] [NeZero n]

/-- **A load stays within its limits for every input and every codec**: it returns, has then taken a
prefix of the input no longer than the limit, made no buffer beyond what it might still take, and
inflated no more than 16 times the limit and one byte; a `Load` or `Merge` that fails leaves the cache as
it was. -/
theorem load_bounded (scfg : SnapshotConfig C K V) (text : Bytes → String) (cfg : Config K V) (env : Env K)
    (c : Cache K V n) (clearFirst : Bool) (input : Bytes) :
    (∃ r ls, loadSnapshot scfg input = (r, ls) ∧
      (∃ taken, input = taken ++ ls.sr.r ∧ taken.length ≤ scfg.snapshotLimit) ∧
      (∀ a ∈ ls.allocs, a.1 ≤ a.2) ∧
      ls.inflated ≤ 16 * scfg.snapshotLimit + 1) ∧
    ∀ e c', c.loadFrom scfg text cfg env clearFirst input = (.error e, c') → c' = c := by
  have h := exceeded_loadSnapshot scfg input
  obtain ⟨taken, hr, hleft⟩ := h.sr
  have hlimit := inflateLimit_le scfg.snapshotLimit
  have hinflated : (loadSnapshot scfg input).2.inflated ≤ 16 * scfg.snapshotLimit + 1 := by
    have : (loadSnapshot scfg input).2.inflated ≤ 0 + inflateLimit scfg.snapshotLimit + 1 := h.inflated
    omega
  have htaken : taken.length ≤ scfg.snapshotLimit := by
    have : scfg.snapshotLimit = (loadSnapshot scfg input).2.sr.left + taken.length := hleft
    omega
  exact ⟨⟨(loadSnapshot scfg input).1, (loadSnapshot scfg input).2, rfl, ⟨taken, hr, htaken⟩,
    h.allocs fun a ha ↦ absurd ha List.not_mem_nil, hinflated⟩, fun e c' ↦ Cache.loadFrom_of_error⟩

/-- A snapshot that claims a field of 4 GiB. -/
def hugeField : Bytes := ascii "RTNI" ++ [3, 255, 255, 255, 255, 1, 2]

/-- Nothing is made for the field, and the cache stays. -/
theorem load_bounded_hugeField :
    (loadSnapshot toyConfig hugeField).2.allocs = [(4, 200)] ∧
    ∃ c' : Cache Bytes Bytes 1, (new (defaultConfig fun _ ↦ 0) 1).loadFrom toyConfig (fun _ ↦ "")
        (defaultConfig fun _ ↦ 0) (.instant 0) true hugeField =
          (.error (.snapshot ⟨.load, 9, "reading codec", .fieldPastEnd⟩), c') ∧
      c' = new (defaultConfig fun _ ↦ 0) 1 := by
  have herr : ((new (defaultConfig fun _ ↦ 0) 1).loadFrom toyConfig (fun _ ↦ "")
      (defaultConfig fun _ ↦ 0) (.instant 0) true hugeField).1 =
      .error (.snapshot ⟨.load, 9, "reading codec", .fieldPastEnd⟩) := by decide +kernel
  refine ⟨by decide +kernel, _, Prod.ext herr rfl, ?_⟩
  exact (load_bounded toyConfig (fun _ ↦ "") (defaultConfig fun _ ↦ 0) (.instant 0) _ true hugeField).2 _ _
    (Prod.ext herr rfl)

end Memcache

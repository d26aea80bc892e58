import Memcache.Snapshot.Bounds

/-!
# What an encrypted snapshot vouches for

A cipher is ideal for a log of sealings when it opens only what the log has. The header is the associated
data of the one block with the records, so an input that loads has **the header and the block of one
save**, to the byte: nothing in the header can be changed, and no records moved.

What comes back are the records of that save, unless the budget for inflating is the greatest `int64`. A
codec asks for one byte more than the budget, and there the sum wraps: nothing is inflated, and every
compressed field is read as no bytes at all.
-/

namespace Memcache

open Reading Loading

variable {C K V T : Type}

/-! ### At the greatest budget -/

variable {ls : Loading}

namespace Codec

variable {env : CodecEnv C} {g : GoType C T}

/-- What `decode` makes of a field when nothing is inflated. -/
def still (env : CodecEnv C) (g : GoType C T) : Codec C → Bytes → Except SnapshotCause T
  | .base b, data => (b.unmarshal env g data).mapError .codec
  | .compressed p level c, data =>
    match env.gunzip data with
    | none => .error (.codec ⟨.unmarshal, (Codec.compressed p level c).name env, .gzip⟩)
    | some _ => c.still env g []
  | .encrypted gcm c, data =>
    match openField env gcm c data with
    | .error e => .error (.codec e)
    | .ok plain => c.still env g plain

theorem decode_eq_still (c : Codec C) (data : Bytes) (h : ls.inflateLeft = maxInt64) :
    c.decode env g data ls = (c.still env g data, ls) := by
  induction c generalizing data with
  | base b => rfl
  | compressed p level c ih =>
    unfold decode still
    rcases hz : env.gunzip data with _ | ⟨out, ends⟩
    · refine bind_of_error ?_
      rw [inflate, hz]
    · exact (bind_of_ok (inflate_saturated _ hz h)).trans (ih [])
  | encrypted gcm c ih =>
    unfold decode still
    rcases ho : openField env gcm c data with e | plain
    · rfl
    · exact ih plain

/-- What every value comes back as: what is under the first layer that compresses makes of no bytes. -/
def hollow (env : CodecEnv C) (g : GoType C T) : Codec C → Except SnapshotCause T
  | .base b => (b.unmarshal env g []).mapError .codec
  | .compressed _ _ c => c.still env g []
  | .encrypted _ c => c.hollow env g

theorem still_of_encode (henv : env.Lawful) {c : Codec C} (hc : c.Opens) (hcomp : c.compresses = true) {v : T}
    {s s' : Saving} {data : Bytes} (h : c.encode env g v s = (.ok data, s')) :
    c.still env g data = c.hollow env g := by
  induction c generalizing s s' data with
  | base b => cases hcomp
  | compressed p level c ih =>
    obtain ⟨raw, s₁, -, h⟩ := bind_eq_ok.1 h
    obtain ⟨⟨⟩, s₂, -, h⟩ := bind_eq_ok.1 h
    cases h
    rw [still, gunzip_compress henv]
    rfl
  | encrypted gcm c ih =>
    obtain ⟨plain, s₁, h₁, h₂⟩ := bind_eq_ok.1 h
    have hopen : openField env gcm c data = .ok plain := by
      rw [openField, (openWith_of_seal hc.1 h₂).2]
      rfl
    rw [still, hopen]
    exact ih hc.2 hcomp h₁

end Codec

section Hollow

variable {env : CodecEnv C} {types : RecordTypes C K V} {c : Codec C} {s s' : Saving} {data : Bytes}
  {ls : Loading}

def hollowKey (env : CodecEnv C) (types : RecordTypes C K V) (c : Codec C) : Except SnapshotCause K :=
  if c.isRawCodec = false then c.hollow env types.key
  else
    match c.hollow env types.slice with
    | .error e => .error e
    | .ok b => (types.kind.setRawKey b).mapError .codec

theorem unmarshalKey_eq_hollow (henv : env.Lawful) (hc : c.Opens) (hcomp : c.compresses = true) {k : K}
    (h : marshalKey env types c k s = (.ok data, s')) (hls : ls.inflateLeft = maxInt64) :
    unmarshalKey env types c data ls = (hollowKey env types c, ls) := by
  unfold marshalKey at h
  unfold unmarshalKey hollowKey
  rcases hraw : c.isRawCodec
  · rw [hraw, if_pos rfl] at h
    rw [if_pos rfl, if_pos rfl, Codec.decode_eq_still c data hls, Codec.still_of_encode henv hc hcomp h]
  · rw [hraw, if_neg (by simp)] at h
    rw [if_neg (by simp), if_neg (by simp)]
    rcases hb : types.kind.rawKeyBytes k with e | b
    · rw [hb] at h
      cases h
    · rw [hb] at h
      have hdecode : c.decode env types.slice data ls = (c.hollow env types.slice, ls) := by
        rw [Codec.decode_eq_still c data hls, Codec.still_of_encode henv hc hcomp h]
      rcases hh : c.hollow env types.slice with e | b'
      · rw [hh] at hdecode
        exact bind_of_error hdecode
      · rw [hh] at hdecode
        exact bind_of_ok hdecode

theorem unmarshalValue_eq_hollow (henv : env.Lawful) (hc : c.Opens) (hcomp : c.compresses = true)
    (hcustom : types.custom = none) {v : V} (h : marshalValue env types c v s = (.ok data, s'))
    (hls : ls.inflateLeft = maxInt64) :
    unmarshalValue env types c data ls = (c.hollow env types.value, ls) := by
  unfold marshalValue at h
  unfold unmarshalValue
  rw [hcustom] at h ⊢
  dsimp only at h ⊢
  rw [Codec.decode_eq_still c data hls, Codec.still_of_encode henv hc hcomp h]

end Hollow

/-! ### What a load that returns has read -/

/-- On a state of `P` whose input begins with `b`, what the computation returns is as `φ` says, and `b` was
taken. -/
def Agrees {α : Type} (P : Loading → Prop) (p : Load α) (b : Bytes) (φ : α → Prop) : Prop :=
  ∀ ls a ls', P ls → b <+: ls.sr.r → p ls = (.ok a, ls') → φ a ∧ P ls' ∧ ls'.sr = ls.sr.feed b

variable {b : Bytes}

theorem Loading.starts_plain (h : b <+: ls.sr.r) : source.starts ls (.plain b) :=
  ⟨h, fun h ↦ absurd h (lt_irrefl 0)⟩

variable {P : Loading → Prop}

theorem agrees_of_reads {α : Type} {p : Load α} {m : Portion} {a : α} (hp : Reads source p m a)
    (hstart : ∀ ls, P ls → 0 < m.cost → ls.inflateLeft < maxInt64)
    (hP : ∀ ls ls', P ls → ls'.inflateLeft = ls.inflateLeft - m.cost → P ls') :
    Agrees P p m.bytes (· = a) := by
  intro ls a' ls' hls hb h
  obtain ⟨-, ha, hafter⟩ := hp.eq_of_ok ⟨hb, hstart ls hls⟩ h
  exact ⟨ha, hP ls ls' hls hafter.inflateLeft, hafter.sr⟩

/-- The checks of this version take a record as it is or not at all. -/
theorem checkRecord_eq_ok {snap snap' : EntrySnapshot K V} {ls ls' : Loading}
    (h : checkRecord snapshotVersion snap ls = (.ok snap', ls')) : snap' = snap ∧ ls' = ls := by
  unfold checkRecord at h
  split_ifs at h with h₁ h₂ h₃ h₄ h₅
  · cases h
  · cases h
  · exact absurd h₄ (by decide)
  · cases h
  · cases h
    exact ⟨rfl, rfl⟩
  · cases h
    exact ⟨rfl, rfl⟩

theorem Agrees.readRecord {rc : RecordCodec K V} {φ : EntrySnapshot K V → Prop}
    (h : Agrees P (readFields rc snapshotVersion) b φ) :
    Agrees P (readRecord rc snapshotVersion) b φ := by
  intro ls snap ls' hls hb hread
  obtain ⟨snap₁, ls₁, h₁, h₂⟩ := bind_eq_ok.1 hread
  obtain ⟨rfl, rfl⟩ := checkRecord_eq_ok h₂
  exact h ls _ _ hls hb h₁

/-- Record by record. -/
theorem agrees_times {α β : Type} {p : Load α} {φ : β → α → Prop} {l : List β} {ms : List Portion}
    (h : List.Forall₂ (fun x m ↦ Agrees P p m.bytes (φ x)) l ms) :
    Agrees P (p.times l.length) ms.prod.bytes (List.Forall₂ φ l) := by
  induction h with
  | nil =>
    rintro ls as ls' hls - ⟨⟩
    exact ⟨.nil, hls, (SnapReader.feed_nil _).symm⟩
  | @cons x m l ms hx _ ih =>
    intro ls as ls' hls hb hread
    obtain ⟨a, ls₁, h₁, hread⟩ := bind_eq_ok.1 hread
    obtain ⟨as', ls₂, h₂, hread⟩ := bind_eq_ok.1 hread
    cases hread
    rw [List.prod_cons, Portion.mul_bytes] at hb ⊢
    obtain ⟨rest, hrest⟩ := hb
    obtain ⟨hφ, hls₁, hsr₁⟩ := hx ls a ls₁ hls ⟨ms.prod.bytes ++ rest, by rw [← hrest, List.append_assoc]⟩ h₁
    have hb₁ : ms.prod.bytes <+: ls₁.sr.r := by
      rw [hsr₁]
      refine ⟨rest, ?_⟩
      show _ = ls.sr.r.drop m.bytes.length
      rw [← hrest, List.append_assoc, List.drop_left]
    obtain ⟨hφ', hls₂, hsr₂⟩ := ih ls₁ as' _ hls₁ hb₁ h₂
    refine ⟨.cons hφ hφ', hls₂, ?_⟩
    rw [hsr₂, hsr₁, SnapReader.feed_feed]

section Records

variable {env : CodecEnv C} {types : RecordTypes C K V} {c : Codec C}

/-- The record with what keys and values come back as at the greatest budget. A value's own methods do
not inflate. -/
structure Hollowed (env : CodecEnv C) (types : RecordTypes C K V) (c : Codec C)
    (snap x : EntrySnapshot K V) : Prop where
  key : hollowKey env types c = .ok x.key
  value : types.custom = none → c.hollow env types.value = .ok x.value
  custom : types.custom ≠ none → x.value = types.filter snap.value
  rest : x = { snap with key := x.key, value := x.value }

theorem unmarshalValue_custom (hcustom : types.CustomRoundTrips) (hsome : types.custom ≠ none) {v : V}
    {data : Bytes} {s s' : Saving} (h : marshalValue env types c v s = (.ok data, s')) (ls : Loading) :
    unmarshalValue env types c data ls = (.ok (types.filter v), ls) := by
  obtain ⟨⟨m, u⟩, hcus⟩ := Option.ne_none_iff_exists'.1 hsome
  unfold marshalValue at h
  unfold unmarshalValue
  rw [hcus] at h ⊢
  dsimp only at h ⊢
  rcases hm : m (types.filter v) with e | d
  · rw [hm] at h
    cases h
  · rw [hm] at h
    cases h
    rw [hcustom m u hcus _ _ hm]
    rfl

theorem agrees_hollow (henv : env.Lawful) (hc : c.Opens) (hcomp : c.compresses = true)
    (hkey : c.isRawCodec = false → types.key.RoundTrips env c.bottom)
    (hvalue : types.custom = none → types.value.RoundTrips env c.bottom)
    (hcustom : types.CustomRoundTrips) {hash : Bool} (snap : EntrySnapshot K V)
    (s s' : Saving) (h : writeRecord (recordCodec env types c) hash snap s = (.ok (), s')) :
    ∃ m, s.Uses hash m s' ∧ Agrees (fun ls ↦ ls.inflateLeft = maxInt64)
      (readRecord (recordCodec env types c) snapshotVersion) m.bytes (Hollowed env types c snap) := by
  obtain ⟨kb, vb, w, s₁, s₂, hk, hv, hw, hwrote⟩ := writeRecord_eq_ok h
  obtain ⟨ck, hspk, -, -⟩ := marshalKey_spec henv hc hkey hk
  obtain ⟨cv, hspv, -, -⟩ := marshalValue_spec henv hc hvalue hcustom hv
  refine ⟨⟨w, ck + cv⟩, uses_record hspk hspv hwrote, Agrees.readRecord ?_⟩
  intro ls x ls' hls hb hread
  obtain ⟨wk, w₁, hwk, hw₁, rfl⟩ := Wire.cat_eq_ok.1 hw
  obtain ⟨wv, w₂, hwv, hw₂, rfl⟩ := Wire.cat_eq_ok.1 hw₁
  obtain ⟨wn, wt, ⟨⟩, hwt, rfl⟩ := Wire.cat_eq_ok.1 hw₂
  have hrest := reads_readRest (reads_slidingTTL snap.slidingTTL) hwt
  have hstart : source.starts ls (.plain wk * (.plain wv *
      .plain (Wire.numbers snap.numbers.dropLast ++ (Wire.i64 snap.slidingTTL ++ wt)))) := by
    simp only [Portion.plain_mul]
    refine starts_plain ?_
    simpa [Wire.numbers, EntrySnapshot.numbers] using hb
  -- the bytes of the key and of the value, at the budget as it was
  obtain ⟨kb', l₁, h₁, hread⟩ := bind_eq_ok.1 hread
  obtain ⟨-, rfl, ha₁⟩ := (Field.reads_bytes hwk).mapError.eq_of_ok (source.starts_left hstart) h₁
  have hstart₁ := source.starts_right hstart ha₁
  obtain ⟨vb', l₂, h₂, hread⟩ := bind_eq_ok.1 hread
  obtain ⟨-, rfl, ha₂⟩ := (Field.reads_bytes hwv).mapError.eq_of_ok (source.starts_left hstart₁) h₂
  have hstart₂ := source.starts_right hstart₁ ha₂
  have hl₂ : l₂.inflateLeft = maxInt64 := by
    rw [ha₂.inflateLeft, ha₁.inflateLeft, hls]
    rfl
  obtain ⟨key, l₃, h₃, hread⟩ := bind_eq_ok.1 hread
  have hkey₃ := (unmarshalKey_eq_hollow henv hc hcomp hk hl₂).symm.trans (mapError_eq_ok.1 h₃)
  obtain ⟨hkey', rfl⟩ := Prod.mk.inj hkey₃
  obtain ⟨value, l₄, h₄, hlast⟩ := bind_eq_ok.1 hread
  have hvalue₄ : (types.custom = none → c.hollow env types.value = .ok value) ∧
      (types.custom ≠ none → value = types.filter snap.value) ∧ l₄ = l₂ := by
    by_cases hcus : types.custom = none
    · have h := (unmarshalValue_eq_hollow henv hc hcomp hcus hv hl₂).symm.trans (mapError_eq_ok.1 h₄)
      obtain ⟨hval, rfl⟩ := Prod.mk.inj h
      exact ⟨fun _ ↦ hval, fun hne ↦ absurd hcus hne, rfl⟩
    · have h := (unmarshalValue_custom hcustom hcus hv l₂).symm.trans (mapError_eq_ok.1 h₄)
      obtain ⟨hval, rfl⟩ := Prod.mk.inj h
      exact ⟨fun hnone ↦ absurd hnone hcus, fun _ ↦ (Except.ok.inj hval).symm, rfl⟩
  obtain ⟨hval, hcus, rfl⟩ := hvalue₄
  obtain ⟨-, rfl, ha₃⟩ := (hrest key value).eq_of_ok hstart₂ hlast
  refine ⟨⟨hkey', hval, hcus, rfl⟩, ?_, ?_⟩
  · show ls'.inflateLeft = maxInt64
    rw [ha₃.inflateLeft, hl₂]
    rfl
  · rw [ha₃.sr, ha₂.sr, ha₁.sr, SnapReader.feed_feed, SnapReader.feed_feed]
    simp [Portion.plain, Wire.numbers, EntrySnapshot.numbers]

end Records

/-! ### The steps of a load that returns -/

/-- What was read: a prefix of the input, within the limit. -/
structure Loading.Got (s : Loading) (b : Bytes) (s' : Loading) : Prop where
  input : b <+: s.sr.r
  left : b.length ≤ s.sr.left
  sr : s'.sr = s.sr.feed b
  inflateLeft : s'.inflateLeft = s.inflateLeft

theorem Field.read_eq_ok {n : ℕ} {s s' : Loading} (h : Field.read n s = (.ok b, s')) :
    b.length = n ∧ s.Got b s' := by
  unfold Field.read at h
  by_cases hleft : s.sr.left < n
  · rw [if_pos hleft] at h
    cases h
  by_cases hlen : s.sr.r.length < n
  · rw [if_neg hleft, if_pos hlen] at h
    cases h
  · rw [if_neg hleft, if_neg hlen] at h
    cases h
    have hn : (s.sr.r.take n).length = n := by
      rw [List.length_take]
      omega
    exact ⟨hn, List.take_prefix .., by omega, rfl, rfl⟩

theorem Field.take_eq_ok {n : ℕ} {s s' : Loading} (h : Field.take n s = (.ok b, s')) :
    b.length = n ∧ s.Got b s' := by
  unfold Field.take at h
  split_ifs at h with hleft
  · cases h
  · obtain ⟨hn, hgot⟩ := Field.read_eq_ok h
    exact ⟨hn, hgot.input, hgot.left, hgot.sr, hgot.inflateLeft⟩

/-- What is left of the input. -/
theorem Loading.Got.rest {s s' : Loading} (h : s.Got b s') : s.sr.r = b ++ s'.sr.r := by
  obtain ⟨rest, hrest⟩ := h.input
  rw [h.sr]
  show s.sr.r = b ++ s.sr.r.drop b.length
  rw [← hrest, List.drop_left]

section Steps

variable {rc : RecordCodec K V} {gcm : AEAD} {header sealed : Bytes} {version : UInt8} {count : Int64}
  {staged : List (EntrySnapshot K V)} {s s' : Loading}

/-- The header that was read is a prefix of the input, not empty, and the bytes captured. -/
theorem readSnapshotHeader_eq_ok {input : Bytes} {limit : ℕ} {info : SnapshotInfo}
    (h : readSnapshotHeader (.start input limit) = (.ok info, s')) :
    ∃ hb, hb ≠ [] ∧ hb.length ≤ limit ∧ input = hb ++ s'.sr.r ∧ s'.sr.capture = some hb := by
  obtain ⟨magic, s₁, h₁, h₂⟩ := bind_eq_ok.1 h
  obtain ⟨hlen, hgot⟩ := Field.take_eq_ok (mapError_eq_ok.1 h₁)
  split_ifs at h₂
  · cases h₂
  obtain ⟨b, hsr, hpre, hleft⟩ := (keeping_readHeaderFields.of_ok h₂).sr
  obtain ⟨rest, hrest⟩ := hpre
  have hleft₀ : magic.length ≤ limit := hgot.left
  have hleft₁ : s₁.sr.left = limit - magic.length := congrArg SnapReader.left hgot.sr
  refine ⟨magic ++ b, ?_, ?_, ?_, ?_⟩
  · intro hnil
    rw [(List.append_eq_nil_iff.1 hnil).1] at hlen
    exact absurd hlen (by decide)
  · rw [List.length_append]
    omega
  · have hinput : input = magic ++ s₁.sr.r := hgot.rest
    rw [hsr]
    show input = magic ++ b ++ s₁.sr.r.drop b.length
    rw [hinput, ← hrest, List.drop_left, List.append_assoc]
  · rw [hsr, hgot.sr]
    rfl

theorem openRecords_eq_ok (h : openRecords rc gcm header sealed version count s = (.ok staged, s')) :
    ∃ plain l', Codec.openWith gcm sealed header = .ok plain ∧
      readRecords rc version count { s with sr := ⟨plain, none, none, plain.length, s.sr.off, true⟩ } =
        (.ok staged, l') := by
  unfold openRecords at h
  rcases hopen : Codec.openWith gcm sealed header with e | plain
  · rw [hopen] at h
    cases h
  rw [hopen] at h
  dsimp only at h
  rcases hread : readRecords rc version count
    { s with sr := ⟨plain, none, none, plain.length, s.sr.off, true⟩ } with ⟨e | staged', l'⟩
  · rw [hread] at h
    cases h
  · rw [hread] at h
    dsimp only at h
    split_ifs at h
    · cases h
    · cases h
      exact ⟨plain, l', rfl, hread⟩

/-- A block, its length before it, and the records in what it opens to. -/
theorem readSealedRecords_eq_ok
    (h : readSealedRecords rc gcm header version count s = (.ok staged, s')) :
    ∃ len sealed rest plain l l', len.length = 8 ∧ s.sr.r = len ++ (sealed ++ rest) ∧
      Codec.openWith gcm sealed header = .ok plain ∧ l.sr.r = plain ∧ l.inflateLeft = s.inflateLeft ∧
      readRecords rc version count l = (.ok staged, l') := by
  obtain ⟨n, s₁, h₁, h⟩ := bind_eq_ok.1 h
  obtain ⟨sealed, s₂, h₂, h₃⟩ := bind_eq_ok.1 h
  obtain ⟨len, s₁', hlen, h₁⟩ := bind_eq_ok.1 (mapError_eq_ok.1 h₁)
  cases h₁
  obtain ⟨hlen, hgot₁⟩ := Field.read_eq_ok hlen
  obtain ⟨-, hgot₂⟩ := Field.take_eq_ok (mapError_eq_ok.1 h₂)
  obtain ⟨plain, l', hopen, hread⟩ := openRecords_eq_ok h₃
  refine ⟨len, sealed, s₂.sr.r, plain, _, l', hlen, ?_, hopen, rfl, ?_, hread⟩
  · rw [hgot₁.rest, hgot₂.rest]
  · exact hgot₂.inflateLeft.trans hgot₁.inflateLeft

end Steps

/-! ### Saves under a key -/

/-- A text sealed with a nonce and associated data. -/
structure Sealing where
  nonce : Bytes
  plain : Bytes
  ad : Bytes

/-- The cipher opens only what is in the log. -/
def AEAD.Ideal (gcm : AEAD) (log : Set Sealing) : Prop :=
  ∀ nonce text ad plain, gcm.openText nonce text ad = some plain →
    ⟨nonce, plain, ad⟩ ∈ log ∧ text = gcm.sealText nonce plain ad

/-- Two stacks that read alike, as those do that compress at different levels. -/
structure Codec.Alike (env : CodecEnv C) (c c' : Codec C) : Prop where
  decode : ∀ (T : Type) (g : GoType C T) (data : Bytes), c.decode env g data = c'.decode env g data
  raw : c.isRawCodec = c'.isRawCodec

/-- A save of a cache whose records read as those of `cfg` do, which came to seal its records. -/
structure SealedSave (cfg : SnapshotConfig C K V) where
  saver : SnapshotConfig C K V
  env_eq : saver.env = cfg.env
  types_eq : saver.types = cfg.types
  alike : cfg.codec.splitEncryption.1.Alike cfg.env saver.codec.splitEncryption.1
  now : Int64
  staged : List (EntrySnapshot K V)
  count : staged.length ≤ maxInt64
  header : Bytes
  wrote : writeHeader (saver.header now staged.length) = .ok header
  start : Saving
  body : Saving
  fresh : start.out = []
  records : writeRecords saver.recCodec false staged start = (.ok (), body)

namespace SealedSave

variable {cfg : SnapshotConfig C K V} (sv : SealedSave cfg)

/-- The stack its records were written with. -/
def codec : Codec C := sv.saver.codec.splitEncryption.1

/-- The budget for inflating has a successor, or nothing is to be inflated, or the records are what they
come back as anyway. -/
def Inflates : Prop :=
  inflateLimit cfg.snapshotLimit < maxInt64 ∨ sv.codec.compresses = false ∨
    ∀ snap ∈ sv.staged, hollowKey cfg.env cfg.types sv.codec = .ok snap.key ∧
      (cfg.types.custom = none →
        sv.codec.hollow cfg.env cfg.types.value = .ok (cfg.types.filter snap.value))

/-- The primitives that its records were written with are undone. -/
structure Sound : Prop where
  opens : sv.codec.Opens
  key : sv.codec.isRawCodec = false → cfg.types.key.RoundTrips cfg.env sv.codec.bottom
  value : cfg.types.custom = none → cfg.types.value.RoundTrips cfg.env sv.codec.bottom

end SealedSave

variable {types : RecordTypes C K V} {env : CodecEnv C}

theorem readRecord_alike {c c' : Codec C} (h : c.Alike env c') (version : UInt8) :
    readRecord (recordCodec env types c) version =
      readRecord (recordCodec env types c') version := by
  have hkey : unmarshalKey env types c = unmarshalKey env types c' := by
    funext data
    simp only [unmarshalKey, h.decode, h.raw]
  have hvalue : unmarshalValue env types c = unmarshalValue env types c' := by
    funext data
    simp only [unmarshalValue, h.decode]
  unfold readRecord readFields recordCodec
  simp only [hkey, hvalue]

/-- A record comes back whole when it is what it comes back as. -/
theorem Hollowed.eq_written {c : Codec C} {snap x : EntrySnapshot K V}
    (h : Hollowed env types c snap x) (hkey : hollowKey env types c = .ok snap.key)
    (hvalue : types.custom = none → c.hollow env types.value = .ok (types.filter snap.value)) :
    x = types.written snap := by
  have hk : x.key = snap.key := Except.ok.inj (h.key.symm.trans hkey)
  have hv : x.value = types.filter snap.value := by
    by_cases hcus : types.custom = none
    · exact Except.ok.inj ((h.value hcus).symm.trans (hvalue hcus))
    · exact h.custom hcus
  rw [h.rest, hk, hv]
  rfl

theorem eq_map_of_hollowed {c : Codec C}
    {l xs : List (EntrySnapshot K V)} (h : List.Forall₂ (Hollowed env types c) l xs)
    (hl : ∀ snap ∈ l, hollowKey env types c = .ok snap.key ∧
      (types.custom = none → c.hollow env types.value = .ok (types.filter snap.value))) :
    xs = l.map types.written := by
  induction h with
  | nil => rfl
  | @cons snap x l xs hx _ ih =>
    obtain ⟨hkey, hvalue⟩ := hl snap List.mem_cons_self
    rw [hx.eq_written hkey hvalue, ih fun y hy ↦ hl y (List.mem_cons_of_mem snap hy)]
    rfl

theorem inflateLimit_le_max (limit : ℕ) : inflateLimit limit ≤ maxInt64 := by
  unfold inflateLimit
  split_ifs with h
  · exact le_rfl
  · omega

/-- What a load makes of the records of a save. -/
theorem SealedSave.records_eq_iff {cfg : SnapshotConfig C K V} (sv : SealedSave cfg)
    (henv : cfg.env.Lawful) (hsound : sv.Sound) (hcustom : cfg.types.CustomRoundTrips)
    {l l' : Loading} (hr : l.sr.r = sv.body.out) (hl : l.inflateLeft = inflateLimit cfg.snapshotLimit)
    {staged : List (EntrySnapshot K V)}
    (h : readRecords cfg.recCodec snapshotVersion (Int64.ofNat sv.staged.length) l = (.ok staged, l')) :
    staged = sv.staged.map cfg.types.written ↔ sv.Inflates := by
  have hrec : sv.saver.recCodec = recordCodec cfg.env cfg.types sv.codec := by
    rw [SnapshotConfig.recCodec, sv.env_eq, sv.types_eq]
    rfl
  have hrecords := sv.records
  rw [hrec] at hrecords
  rw [readRecords_ofNat _ _ sv.count] at h
  rw [SnapshotConfig.recCodec, readRecord_alike sv.alike] at h
  by_cases hexact : inflateLimit cfg.snapshotLimit < maxInt64 ∨ sv.codec.compresses = false
  · refine iff_of_true ?_ (hexact.imp_right .inl)
    obtain ⟨ms, huses, hall⟩ := writeRecords_uses
      (fun snap s s' ↦ writeRecord_reads henv hsound.opens hsound.key hsound.value hcustom) hrecords
    -- along the records the budget keeps its successor, or has no part in it
    have hagrees := agrees_times (P := fun ls ↦ ls.inflateLeft < maxInt64 ∨ sv.codec.compresses = false)
      (hall.imp fun snap m ⟨hzero, hread⟩ ↦ (agrees_of_reads hread
        (fun ls hls hpos ↦ hls.resolve_right fun hno ↦ absurd (hzero hno) (Nat.ne_of_gt hpos))
        (fun ls ls' hls hleft ↦ hls.imp_left fun hlt ↦ by omega)).readRecord)
    have hplain : sv.body.out = ms.prod.bytes := by rw [huses.out_eq, sv.fresh, List.nil_append]
    have hpre : ms.prod.bytes <+: l.sr.r := by rw [hr, hplain]
    have hbudget : l.inflateLeft < maxInt64 ∨ sv.codec.compresses = false := by rwa [hl]
    obtain ⟨hres, -, -⟩ := hagrees l staged l' hbudget hpre h
    have heq : List.Forall₂ Eq (sv.staged.map cfg.types.written) staged :=
      List.forall₂_map_left_iff.2 (hres.imp fun _ _ ↦ Eq.symm)
    rw [List.forall₂_eq_eq_eq] at heq
    exact heq.symm
  · obtain ⟨hbudget, hcomp⟩ := not_or.1 hexact
    rw [Bool.not_eq_false] at hcomp
    have hmax : l.inflateLeft = maxInt64 := by
      have := inflateLimit_le_max cfg.snapshotLimit
      omega
    obtain ⟨ms, huses, hall⟩ := writeRecords_uses
      (agrees_hollow henv hsound.opens hcomp hsound.key hsound.value hcustom) hrecords
    have hplain : sv.body.out = ms.prod.bytes := by rw [huses.out_eq, sv.fresh, List.nil_append]
    have hpre : ms.prod.bytes <+: l.sr.r := by rw [hr, hplain]
    obtain ⟨hres, -, -⟩ := agrees_times hall l staged l' hmax hpre h
    refine ⟨fun heq ↦ .inr (.inr ?_), fun hinf ↦ ?_⟩
    · rw [heq, List.forall₂_map_right_iff, List.forall₂_same] at hres
      exact fun snap hmem ↦ ⟨(hres snap hmem).key, (hres snap hmem).value⟩
    · rcases hinf with hlt | hno | hall'
      · exact absurd hlt hbudget
      · exact absurd hno (by rw [hcomp]; decide)
      · exact eq_map_of_hollowed hres hall'

/-! ### The whole of it -/

section Whole

variable {cfg : SnapshotConfig C K V} {gcm : AEAD} {base : Codec C} {log : Set Sealing}

/-- The texts sealed under the key: fields, which have no associated data; the records of saves that
`cfg` can read; and those of saves whose header names another codec. -/
def SealedBy (cfg : SnapshotConfig C K V) (x : Sealing) : Prop :=
  x.ad = [] ∨ (∃ sv : SealedSave cfg, sv.Sound ∧ x.plain = sv.body.out ∧ x.ad = sv.header) ∨
    ∃ h : Header, h.metadata.Unique ∧ 0 ≤ h.count ∧ h.codec ≠ cfg.codec.name cfg.env ∧
      writeHeader h = .ok x.ad

/-- The header of the input and the block after it are those of the save. -/
def SealedSave.Vouches (sv : SealedSave cfg) (gcm : AEAD) (log : Set Sealing) (input : Bytes) : Prop :=
  ∃ len nonce rest, len.length = 8 ∧ ⟨nonce, sv.body.out, sv.header⟩ ∈ log ∧
    input = sv.header ++ (len ++ (nonce ++ gcm.sealText nonce sv.body.out sv.header ++ rest))

/-- The parts of a load that returns. -/
theorem loadSnapshot_eq_ok (henc : cfg.codec.splitEncryption.2 = some (gcm, base)) {input : Bytes}
    {staged : List (EntrySnapshot K V)} (h : loadSnapshot cfg input = (.ok staged, ls)) :
    ∃ info ls₁ hb ls₂ ls₃, readSnapshotHeader (.start input cfg.snapshotLimit) = (.ok info, ls₁) ∧
      ls₁.sr.capture = some hb ∧ hb ≠ [] ∧ hb.length ≤ cfg.snapshotLimit ∧ input = hb ++ ls₁.sr.r ∧
      info.codec = cfg.codec.name cfg.env ∧ ls₂.sr.r = ls₁.sr.r ∧ ls₂.inflateLeft = ls₁.inflateLeft ∧
      readSealedRecords cfg.recCodec gcm hb info.version info.count ls₂ = (.ok staged, ls₃) := by
  unfold loadSnapshot readSnapshot at h
  obtain ⟨info, ls₁, h₁, h⟩ := bind_eq_ok.1 h
  obtain ⟨hb, hne, hlimit, hinput, hcap⟩ := readSnapshotHeader_eq_ok h₁
  obtain ⟨header, ls₂, h₂, h₃⟩ := bind_eq_ok.1 h
  cases h₂
  rw [hcap] at h₃
  dsimp only [Option.getD_some] at h₃
  split_ifs at h₃ with hcodec hschema
  · cases h₃
  · cases h₃
  obtain ⟨staged', ls₃, hbody, h₄⟩ := bind_eq_ok.1 h₃
  obtain ⟨⟨⟩, ls₄, -, h₅⟩ := bind_eq_ok.1 h₄
  cases h₅
  unfold readBody at hbody
  rw [henc] at hbody
  dsimp only at hbody
  split_ifs at hbody with hversion
  · cases hbody
  · exact ⟨info, ls₁, hb, { ls₁ with sr := { ls₁.sr with capture := none } }, ls₃, h₁, hcap, hne, hlimit, hinput,
      not_not.1 hcodec, rfl, rfl, hbody⟩

theorem openWith_eq_ok {sealed ad plain : Bytes} (h : Codec.openWith gcm sealed ad = .ok plain) :
    ∃ nonce text, sealed = nonce ++ text ∧ gcm.openText nonce text ad = some plain := by
  unfold Codec.openWith at h
  split_ifs at h
  rcases ho : gcm.openText (sealed.take gcm.nonceSize) (sealed.drop gcm.nonceSize) ad with _ | p
  · rw [ho] at h
    cases h
  · rw [ho] at h
    cases h
    exact ⟨_, _, (List.take_append_drop ..).symm, ho⟩

/-- A header that was written is what was read. -/
theorem info_of_writeHeader {h : Header} (hu : h.metadata.Unique) (hcount : 0 ≤ h.count)
    {hb input : Bytes} (hw : writeHeader h = .ok hb) (hpre : hb <+: input) {limit : ℕ}
    {info : SnapshotInfo} (hread : readSnapshotHeader (.start input limit) = (.ok info, ls)) :
    ∃ m', info = h.info m' ∧ ls.inflateLeft = inflateLimit limit := by
  obtain ⟨m', -, hreads⟩ := reads_header hu hcount hw
  have hstart : source.starts (.start input limit) (.plain hb) :=
    ⟨hpre, fun h ↦ absurd h (lt_irrefl 0)⟩
  obtain ⟨-, rfl, hafter⟩ := hreads.eq_of_ok hstart hread
  exact ⟨m', rfl, hafter.inflateLeft⟩

/-- **What loads under an ideal cipher was saved as it is**: the header and the block of the input are
those of one save under the key, and the records are those of the save exactly when they inflate. -/
theorem saved_of_load (henc : cfg.codec.splitEncryption.2 = some (gcm, base)) (hideal : gcm.Ideal log)
    (hlog : ∀ x ∈ log, SealedBy cfg x) (henv : cfg.env.Lawful) (hcustom : cfg.types.CustomRoundTrips)
    {input : Bytes} {staged : List (EntrySnapshot K V)} {ls : Loading}
    (h : loadSnapshot cfg input = (.ok staged, ls)) :
    ∃ sv : SealedSave cfg, sv.Vouches gcm log input ∧
      (staged = sv.staged.map cfg.types.written ↔ sv.Inflates) := by
  obtain ⟨info, ls₁, hb, ls₂, ls₃, hhead, -, hne, hlimit, hinput, hcodec, hr₂, hleft₂, hsealed⟩ :=
    loadSnapshot_eq_ok henc h
  obtain ⟨len, sealed, rest, plain, l, l', hlen, hr, hopen, hl, hleft, hrecords⟩ :=
    readSealedRecords_eq_ok hsealed
  obtain ⟨nonce, text, rfl, htext⟩ := openWith_eq_ok hopen
  obtain ⟨hmem, rfl⟩ := hideal _ _ _ _ htext
  have hpre : hb <+: input := ⟨_, hinput.symm⟩
  rcases hlog _ hmem with had | ⟨sv, hsound, hplain, had⟩ | ⟨h', hu, hcount, hname, hw⟩
  · -- a field is sealed without associated data, and a header is not empty
    exact absurd had hne
  · have hplain : plain = sv.body.out := hplain
    have had : hb = sv.header := had
    subst had hplain
    have hcount : 0 ≤ (sv.saver.header sv.now sv.staged.length).count := by
      rw [Int64.le_iff_toInt_le]
      show 0 ≤ (Int64.ofNat sv.staged.length).toInt
      rw [toInt_ofNat sv.count]
      exact Int.natCast_nonneg _
    obtain ⟨m', rfl, hleft₁⟩ := info_of_writeHeader sv.saver.unique_effective hcount sv.wrote hpre hhead
    refine ⟨sv, ⟨len, nonce, rest, hlen, hmem, ?_⟩, ?_⟩
    · rw [hinput, ← hr₂, hr]
    · exact sv.records_eq_iff henv hsound hcustom hl (hleft.trans (hleft₂.trans hleft₁)) hrecords
  · obtain ⟨m', rfl, -⟩ := info_of_writeHeader hu hcount hw hpre hhead
    exact absurd hcodec hname

end Whole

/-! ### A key that was used once -/

/-- A cipher that has sealed one text and opens nothing else. -/
def lockedAEAD (x : Sealing) : AEAD where
  nonceSize := x.nonce.length
  overhead := 0
  sealText _ plain _ := plain
  openText nonce text ad := if nonce = x.nonce ∧ text = x.plain ∧ ad = x.ad then some x.plain else none

theorem ideal_lockedAEAD (x : Sealing) : (lockedAEAD x).Ideal {x} := by
  intro nonce text ad plain h
  simp only [lockedAEAD] at h
  split_ifs at h with hx
  obtain ⟨rfl, rfl, rfl⟩ := hx
  cases h
  exact ⟨rfl, rfl⟩

/-- Bytes, compressed. -/
def vaultCodec : Codec Unit := .compressed false 6 (.base .raw)

/-- The records as they are sealed. -/
def vaultBody : Saving :=
  (writeRecords (recordCodec toyEnv toyTypes vaultCodec) false [sampleRecord] ⟨[], 1000, [], 1000, 0⟩).2

def vaultHeader : Bytes :=
  match writeHeader ⟨ascii "raw+aes-256-gcm+gzip", ascii "vault", .empty, 5, 1⟩ with
  | .ok b => b
  | .error _ => []

def vaultSealing : Sealing := ⟨[0, 0], vaultBody.out, vaultHeader⟩

/-- A cache that has saved one record under its key, with a limit. -/
def vault (limit : ℤ) : SnapshotConfig Unit Bytes Bytes where
  env := toyEnv
  types := toyTypes
  codec := .compressed true 6 (.encrypted (lockedAEAD vaultSealing) (.base .raw))
  name := ascii "vault"
  metadata := .empty
  unique := Metadata.unique_empty
  schema := []
  maxSnapshotBytes := limit
  crc b := UInt32.ofNat b.length

/-- The snapshot it saved. -/
def vaultInput : Bytes := (saveTo (vault 1000) 1000 5 [sampleRecord] 0).2.out

/-- The save that sealed the record. -/
def vaultSave (limit : ℤ) : SealedSave (vault limit) where
  saver := vault limit
  env_eq := rfl
  types_eq := rfl
  alike := ⟨fun _ _ _ ↦ rfl, rfl⟩
  now := 5
  staged := [sampleRecord]
  count := by decide
  header := vaultHeader
  wrote := rfl
  start := ⟨[], 1000, [], 1000, 0⟩
  body := vaultBody
  fresh := rfl
  records := by
    have h : (writeRecords (recordCodec toyEnv toyTypes vaultCodec) false [sampleRecord]
      ⟨[], 1000, [], 1000, 0⟩).1 = .ok () := by decide +kernel
    exact Prod.ext h rfl

theorem sealedBy_vaultSealing (limit : ℤ) : ∀ x ∈ ({vaultSealing} : Set Sealing), SealedBy (vault limit) x := by
  rintro x rfl
  refine .inr (.inl ⟨vaultSave limit, ⟨trivial, nofun, fun _ ↦ ?_⟩, rfl, rfl⟩)
  exact GoType.roundTrips_raw _ _

/-- The record comes back from the one snapshot that the key vouches for. -/
theorem saved_of_load_vault :
    (loadSnapshot (vault 1000) vaultInput).1 = .ok [sampleRecord] ∧
    ∃ sv : SealedSave (vault 1000), sv.Vouches (lockedAEAD vaultSealing) {vaultSealing} vaultInput ∧
      ([sampleRecord] = sv.staged.map toyTypes.written ↔ sv.Inflates) := by
  have hload : (loadSnapshot (vault 1000) vaultInput).1 = .ok [sampleRecord] := by decide +kernel
  have hload' : loadSnapshot (vault 1000) vaultInput =
      (.ok [sampleRecord], (loadSnapshot (vault 1000) vaultInput).2) := by rw [← hload]
  exact ⟨hload, saved_of_load rfl (ideal_lockedAEAD vaultSealing) (sealedBy_vaultSealing 1000) lawful_toyEnv
    nofun hload'⟩

/-- **A limit above a sixteenth of the greatest `int64` empties compressed fields**: the snapshot loads,
and its record comes back without its key and its value. -/
theorem record_emptied :
    (saveTo (vault maxInt64) maxInt64 5 [sampleRecord] 0).1 = .ok () ∧
    (loadSnapshot (vault maxInt64) (saveTo (vault maxInt64) maxInt64 5 [sampleRecord] 0).2.out).1 =
      .ok [{ sampleRecord with key := [], value := [] }] ∧
    (vaultSave maxInt64).Vouches (lockedAEAD vaultSealing) {vaultSealing}
      (saveTo (vault maxInt64) maxInt64 5 [sampleRecord] 0).2.out ∧
    [{ sampleRecord with key := [], value := [] }] ≠ (vaultSave maxInt64).staged.map toyTypes.written := by
  refine ⟨by decide +kernel, by decide +kernel, ?_, by decide⟩
  refine ⟨Wire.u64 (UInt64.ofNat vaultBody.out.length + 2), [0, 0],
    Wire.u32 (UInt32.ofNat (vaultHeader.length + 8 + 2 + vaultBody.out.length)), by decide, rfl, ?_⟩
  decide +kernel

end Memcache

import Memcache.Snapshot.Codec

/-!
# Codec stacks undo themselves

Under the assumptions on the primitives, that `gunzip` undoes `gzip`, opening undoes sealing and the base
codec round-trips, each layer of a stack is undone by the walk back; so is the stack without the layer
that `splitEncryption` takes out. The bytes that the layers compress in `Save` are **the bytes that they
inflate in `Load`**, layer by layer, in the opposite order.
-/

namespace Memcache

open Reading Loading

variable {C T K V : Type}

/-! ### Assumptions -/

structure CodecEnv.Lawful (env : CodecEnv C) : Prop where
  gunzip_gzip : ∀ level b, env.gunzip (env.gzip level b) = some (b, true)

def AEAD.Opens (gcm : AEAD) : Prop :=
  ∀ nonce plain ad, nonce.length = gcm.nonceSize →
    gcm.openText nonce (gcm.sealText nonce plain ad) ad = some plain

def GoType.RoundTrips (env : CodecEnv C) (g : GoType C T) (b : BaseCodec C) : Prop :=
  ∀ v data, b.marshal env g v = .ok data → b.unmarshal env g data = .ok v

/-- The raw codec copies. -/
theorem GoType.roundTrips_raw (env : CodecEnv C) (g : GoType C T) : g.RoundTrips env .raw := by
  intro v data h
  simp only [BaseCodec.marshal, BaseCodec.unmarshal] at h ⊢
  rcases he : g.bytes with _ | e
  · rw [he] at h
    cases h
  · rw [he] at h
    cases h
    exact congrArg Except.ok (e.symm_apply_apply v)

variable {c : Codec C}

namespace Codec

/-- The layers that encrypt have a cipher that opens what it seals. -/
def Opens : Codec C → Prop
  | .base _ => True
  | .compressed _ _ c => c.Opens
  | .encrypted gcm c => gcm.Opens ∧ c.Opens

/-- The codec under the layers. -/
def bottom : Codec C → BaseCodec C
  | .base b => b
  | .compressed _ _ c => c.bottom
  | .encrypted _ c => c.bottom

/-- Some layer compresses. -/
def compresses : Codec C → Bool
  | .base _ => false
  | .compressed _ _ _ => true
  | .encrypted _ c => c.compresses

theorem isRawCodec_iff (c : Codec C) : c.isRawCodec = true ↔ c.bottom = .raw := by
  induction c with
  | base b => cases b <;> simp [isRawCodec, bottom]
  | compressed p level c ih => exact ih
  | encrypted gcm c ih => exact ih

/-- Taking a layer out leaves the codec at the bottom. -/
theorem bottom_splitEncryption (c : Codec C) : c.splitEncryption.1.bottom = c.bottom := by
  induction c with
  | base b => rfl
  | compressed p level c ih =>
    rcases h : c.splitEncryption with ⟨c', _ | enc⟩
    · rw [splitEncryption, h]
    · rw [h] at ih
      rw [splitEncryption, h]
      exact ih
  | encrypted gcm c ih => rfl

theorem Opens.splitEncryption (hc : c.Opens) : c.splitEncryption.1.Opens := by
  induction c with
  | base b => trivial
  | compressed p level c ih =>
    rcases h : c.splitEncryption with ⟨c', _ | enc⟩
    · rw [Codec.splitEncryption, h]
      exact hc
    · have hrest := ih hc
      rw [h] at hrest
      rw [Codec.splitEncryption, h]
      exact hrest
  | encrypted gcm c ih => exact hc.2

/-- The layer that is taken out is one of the stack. -/
theorem Opens.of_splitEncryption {c base : Codec C} {gcm : AEAD} (hc : c.Opens)
    (h : c.splitEncryption.2 = some (gcm, base)) : gcm.Opens := by
  induction c with
  | base b => cases h
  | compressed p level c ih =>
    rcases hsplit : c.splitEncryption with ⟨c', _ | enc⟩
    · rw [Codec.splitEncryption, hsplit] at h
      cases h
    · rw [Codec.splitEncryption, hsplit] at h
      rw [hsplit] at ih
      exact ih hc h
  | encrypted gcm' c ih =>
    cases h
    exact hc.1

theorem isRawCodec_splitEncryption (c : Codec C) : c.splitEncryption.1.isRawCodec = c.isRawCodec := by
  rw [Bool.eq_iff_iff, isRawCodec_iff, isRawCodec_iff, bottom_splitEncryption]

end Codec

/-! ### What a step of a save spends -/

variable {cost : ℕ}

namespace Saving

/-- Nothing is written; `cost` bytes were compressed, and nonces may have been drawn. -/
structure Spends (s : Saving) (cost : ℕ) (s' : Saving) : Prop where
  enough : cost ≤ s.inflateLeft
  eq : s' = { s with inflateLeft := s.inflateLeft - cost, drawn := s'.drawn }

theorem Spends.out_eq {s s' : Saving} (h : s.Spends cost s') : s'.out = s.out := by
  rw [h.eq]

theorem Spends.left_eq {s s' : Saving} (h : s.Spends cost s') : s'.left = s.left := by
  rw [h.eq]

theorem Spends.refl (s : Saving) : s.Spends 0 s := ⟨Nat.zero_le _, rfl⟩

theorem Spends.trans {s s' s'' : Saving} {c c' : ℕ} (h : s.Spends c s') (h' : s'.Spends c' s'') :
    s.Spends (c + c') s'' := by
  have hleft : s'.inflateLeft = s.inflateLeft - c := congrArg Saving.inflateLeft h.eq
  have henough := h.enough
  have henough' := h'.enough
  refine ⟨by omega, ?_⟩
  rw [h'.eq, h.eq]
  ext1 <;> simp [Nat.sub_sub]

end Saving

namespace Codec

variable {env : CodecEnv C} {g : GoType C T} {v : T} {s s' : Saving} {data : Bytes}

theorem spends_spend {n : ℕ} (h : spend n s = (.ok (), s')) : s.Spends n s' := by
  unfold spend at h
  split_ifs at h with hlt
  · cases h
  · cases h
    exact ⟨by omega, rfl⟩

theorem spend_of_le {n : ℕ} (h : n ≤ s.inflateLeft) :
    spend n s = (.ok (), { s with inflateLeft := s.inflateLeft - n }) :=
  if_neg (Nat.not_lt.2 h)

/-- What is sealed opens, for the same associated data. -/
theorem openWith_of_seal {gcm : AEAD} (hgcm : gcm.Opens) {plain ad : Bytes}
    (h : sealWith env gcm c plain ad s = (.ok data, s')) :
    s.Spends 0 s' ∧ openWith gcm data ad = .ok plain := by
  unfold sealWith at h
  dsimp only at h
  split_ifs at h with hsize
  · cases h
  rcases hnonce : env.random s.drawn gcm.nonceSize with _ | nonce
  · rw [hnonce] at h
    cases h
  · rw [hnonce] at h
    cases h
    have hlen : nonce.toList.length = gcm.nonceSize := Vector.length_toList
    refine ⟨⟨Nat.zero_le _, rfl⟩, ?_⟩
    rw [openWith, if_neg (by rw [List.length_append, hlen]; omega), List.take_left' hlen,
      List.drop_left' hlen, hgcm _ _ _ hlen]

/-! ### Layer by layer -/

theorem gunzip_compress (henv : env.Lawful) (level : ℤ) (raw : Bytes) :
    env.gunzip (compress env level raw) = some (raw, true) :=
  henv.gunzip_gzip _ raw

/-- Below the greatest `int64`, `inflate` returns the text that was compressed or says that it is too
large. -/
theorem inflate_compress (henv : env.Lawful) (codec : Bytes) (level : ℤ) {raw : Bytes} {s : Loading}
    (h : s.inflateLeft < maxInt64 ∨ raw = []) :
    inflate env codec (compress env level raw) s =
      if raw.length ≤ s.inflateLeft then
        (.ok raw, { s with
          inflated := s.inflated + raw.length
          inflateLeft := s.inflateLeft - raw.length })
      else (.error (.codec ⟨.unmarshal, codec, .inflateTooLarge⟩),
        { s with inflated := s.inflated + (s.inflateLeft + 1) }) := by
  unfold inflate
  dsimp only
  rw [gunzip_compress henv]
  dsimp only
  rw [if_neg (by simp)]
  by_cases hfits : raw.length ≤ s.inflateLeft
  · have htake : raw.take (inflateAsks s.inflateLeft) = raw := by
      rcases h with hlt | rfl
      · rw [inflateAsks, if_pos hlt, List.take_of_length_le (by omega)]
      · exact List.take_nil
    rw [htake, if_neg (by omega), if_pos hfits]
  · have hlt : s.inflateLeft < maxInt64 := h.resolve_right fun hnil ↦ hfits (by simp [hnil])
    have hlen : (raw.take (inflateAsks s.inflateLeft)).length = s.inflateLeft + 1 := by
      rw [inflateAsks, if_pos hlt, List.length_take]
      omega
    rw [hlen, if_pos (by omega), if_neg hfits]

/-- At the greatest `int64` it returns nothing, of any text. -/
theorem inflate_saturated (codec : Bytes) {data out : Bytes} {ends : Bool} {s : Loading}
    (hdata : env.gunzip data = some (out, ends)) (hs : s.inflateLeft = maxInt64) :
    inflate env codec data s = (.ok [], s) := by
  have hasks : inflateAsks s.inflateLeft = 0 := if_neg (by omega)
  rw [inflate, hdata]
  dsimp only
  rw [hasks, List.take_zero, if_neg (by simp), if_neg (by simp)]
  rfl

theorem reads_inflate (henv : env.Lawful) (codec : Bytes) (level : ℤ) (raw : Bytes) :
    Reads source (inflate env codec (compress env level raw)) ⟨[], raw.length⟩ raw where
  ok s hs := by
    have hcost : raw.length ≤ s.inflateLeft := hs.cost
    have hbounded : s.inflateLeft < maxInt64 ∨ raw = [] :=
      (Nat.eq_zero_or_pos raw.length).symm.imp hs.bounded List.length_eq_zero_iff.1
    exact ⟨_, (inflate_compress henv codec level hbounded).trans (if_pos hcost),
      (SnapReader.feed_nil _).symm, rfl⟩
  fails s hstart hs := by
    have hcost : ¬ raw.length ≤ s.inflateLeft := fun hle ↦ hs ⟨hstart, Nat.zero_le _, hle⟩
    have hlt : s.inflateLeft < maxInt64 := hstart.bounded (by dsimp only; omega)
    exact ⟨_, _, (inflate_compress henv codec level (.inl hlt)).trans (if_neg hcost)⟩

theorem reads_decode_compressed (henv : env.Lawful) {raw : Bytes}
    (h : Reads source (c.decode env g raw) ⟨[], cost⟩ v) (p : Bool) (level : ℤ) :
    Reads source ((Codec.compressed p level c).decode env g (compress env level raw))
      ⟨[], raw.length + cost⟩ v := by
  unfold decode
  exact (reads_inflate henv _ level raw).bind h

theorem reads_decode_encrypted {gcm : AEAD} {plain : Bytes}
    (hopen : openWith gcm data [] = .ok plain)
    (h : Reads source (c.decode env g plain) ⟨[], cost⟩ v) :
    Reads source ((Codec.encrypted gcm c).decode env g data) ⟨[], cost⟩ v := by
  have hfield : openField env gcm c data = .ok plain := by rw [openField, hopen]; rfl
  unfold decode
  rw [hfield]
  exact ((Reads.pure plain).bind h).congr (one_mul _)

theorem reads_decode_base {b : BaseCodec C} (h : b.unmarshal env g data = .ok v) :
    Reads source ((Codec.base b).decode env g data) ⟨[], 0⟩ v := by
  unfold decode
  rw [h]
  exact .pure v

/-- **What `encode` writes is read back**, by `decode` at the cost that `encode` had, and by the stack's
own `Unmarshal`. A stack that does not compress has no cost. -/
theorem encode_spec (henv : env.Lawful) (hc : c.Opens) (hg : g.RoundTrips env c.bottom)
    (h : c.encode env g v s = (.ok data, s')) :
    ∃ cost, s.Spends cost s' ∧ (c.compresses = false → cost = 0) ∧
      Reads source (c.decode env g data) ⟨[], cost⟩ v ∧ c.unmarshal env g data = .ok v := by
  induction c generalizing s s' data with
  | base b =>
    unfold encode at h
    rcases hm : b.marshal env g v with e | d
    · rw [hm] at h
      cases h
    · rw [hm] at h
      cases h
      exact ⟨0, .refl _, fun _ ↦ rfl, reads_decode_base (hg v data hm), hg v data hm⟩
  | compressed p level c ih =>
    unfold encode at h
    obtain ⟨raw, s₁, h₁, h⟩ := bind_eq_ok.1 h
    obtain ⟨⟨⟩, s₂, h₂, h⟩ := bind_eq_ok.1 h
    cases h
    obtain ⟨cost, hspend, -, hdecode, hun⟩ := ih hc hg h₁
    refine ⟨raw.length + cost, ?_, nofun, reads_decode_compressed henv hdecode p level, ?_⟩
    · rw [Nat.add_comm]
      exact hspend.trans (spends_spend h₂)
    · unfold unmarshal
      rw [gunzip_compress henv]
      exact hun
  | encrypted gcm c ih =>
    unfold encode at h
    obtain ⟨plain, s₁, h₁, h₂⟩ := bind_eq_ok.1 h
    obtain ⟨cost, hspend, hzero, hdecode, hun⟩ := ih hc.2 hg h₁
    obtain ⟨hspend₂, hopen⟩ := openWith_of_seal hc.1 h₂
    refine ⟨cost, hspend.trans hspend₂, hzero, reads_decode_encrypted hopen hdecode, ?_⟩
    have hfield : openField env gcm c data = .ok plain := by rw [openField, hopen]; rfl
    unfold unmarshal
    rw [hfield]
    exact hun

/-- What `Marshal` writes is read back by `decode`, at some cost. -/
theorem marshal_spec (henv : env.Lawful) (hc : c.Opens) (hg : g.RoundTrips env c.bottom)
    (h : c.marshal env g v s = (.ok data, s')) :
    ∃ cost, Reads source (c.decode env g data) ⟨[], cost⟩ v := by
  induction c generalizing s s' data with
  | base b =>
    unfold marshal at h
    rcases hm : b.marshal env g v with e | d
    · rw [hm] at h
      cases h
    · rw [hm] at h
      cases h
      exact ⟨0, reads_decode_base (hg v data hm)⟩
  | compressed p level c ih =>
    unfold marshal at h
    obtain ⟨raw, s₁, h₁, h⟩ := bind_eq_ok.1 h
    cases h
    obtain ⟨cost, hdecode⟩ := ih hc hg h₁
    exact ⟨raw.length + cost, reads_decode_compressed henv hdecode p level⟩
  | encrypted gcm c ih =>
    unfold marshal at h
    obtain ⟨plain, s₁, h₁, h₂⟩ := bind_eq_ok.1 h
    obtain ⟨cost, hdecode⟩ := ih hc.2 hg h₁
    exact ⟨cost, reads_decode_encrypted (openWith_of_seal hc.1 h₂).2 hdecode⟩

/-! ### When a stack refuses a value -/

/-- An error of a cipher: a text beyond its size, or no nonce. -/
def CipherRefuses (e : SnapshotCause) : Prop :=
  ∃ name, e = .codec ⟨.marshal, name, .encryptTooLarge⟩ ∨ e = .codec ⟨.marshal, name, .random⟩

/-- The errors of `Marshal` that are not about a budget: the base codec's own, and a cipher's. -/
def Refuses (env : CodecEnv C) (g : GoType C T) (c : Codec C) (v : T) (e : SnapshotCause) : Prop :=
  (∃ err, c.bottom.marshal env g v = .error err ∧ e = .codec err) ∨ CipherRefuses e

/-- Sealing looks at the nonces drawn so far only. -/
theorem sealWith_outcome (env : CodecEnv C) (gcm : AEAD) (c : Codec C) (plain ad : Bytes) (d : ℕ) :
    ∃ r d', (∀ s : Saving, s.drawn = d → sealWith env gcm c plain ad s = (r, { s with drawn := d' })) ∧
      ∀ e, r = .error e → CipherRefuses e := by
  by_cases hsize :
      maxGCMPlaintext < plain.length ∨ maxInt64 - gcm.nonceSize - gcm.overhead < plain.length
  · refine ⟨.error (.codec ⟨.marshal, (Codec.encrypted gcm c).name env, .encryptTooLarge⟩), d,
      fun s hs ↦ ?_, ?_⟩
    · rw [sealWith, if_pos hsize, ← hs]
    · rintro e ⟨⟩
      exact ⟨_, .inl rfl⟩
  rcases hnonce : env.random d gcm.nonceSize with _ | nonce
  · refine ⟨.error (.codec ⟨.marshal, (Codec.encrypted gcm c).name env, .random⟩), d,
      fun s hs ↦ ?_, ?_⟩
    · subst hs
      rw [sealWith, if_neg hsize, hnonce]
    · rintro e ⟨⟩
      exact ⟨_, .inr rfl⟩
  · refine ⟨.ok (nonce.toList ++ gcm.sealText nonce.toList plain ad), d + 1, fun s hs ↦ ?_, nofun⟩
    subst hs
    rw [sealWith, if_neg hsize, hnonce]

/-- **With budget enough, `encode` fails on what the base codec or the cipher refuses only**: how much is
enough, and the outcome, depend on the value and the nonces drawn so far. -/
theorem encode_outcome (env : CodecEnv C) (g : GoType C T) (c : Codec C) (v : T) (d : ℕ) :
    ∃ need r d', (∀ s : Saving, s.drawn = d → need ≤ s.inflateLeft →
        c.encode env g v s = (r, { s with inflateLeft := s.inflateLeft - need, drawn := d' })) ∧
      ∀ e, r = .error e → c.Refuses env g v e := by
  induction c with
  | base b =>
    refine ⟨0, (b.marshal env g v).mapError .codec, d, fun s hs _ ↦ ?_, fun e he ↦ .inl ?_⟩
    · rw [← hs]
      rfl
    · rcases hm : b.marshal env g v with err | data
      · rw [hm] at he
        cases he
        exact ⟨err, hm, rfl⟩
      · rw [hm] at he
        cases he
  | compressed p level c ih =>
    obtain ⟨need, r, d', hrun, hfail⟩ := ih
    rcases r with e | raw
    · refine ⟨need, .error e, d', fun s hs hneed ↦ ?_, hfail⟩
      exact bind_of_error (hrun s hs hneed)
    · refine ⟨need + raw.length, .ok (compress env level raw), d', fun s hs hneed ↦ ?_, nofun⟩
      refine (bind_of_ok (hrun s hs (by omega))).trans ?_
      rw [bind_of_ok (spend_of_le (by dsimp only; omega)), Nat.sub_sub]
      rfl
  | encrypted gcm c ih =>
    obtain ⟨need, r, d', hrun, hfail⟩ := ih
    rcases r with e | plain
    · refine ⟨need, .error e, d', fun s hs hneed ↦ ?_, hfail⟩
      exact bind_of_error (hrun s hs hneed)
    · obtain ⟨r, d'', hseal, hrefuse⟩ := sealWith_outcome env gcm c plain [] d'
      refine ⟨need, r, d'', fun s hs hneed ↦ ?_, fun e he ↦ .inr (hrefuse e he)⟩
      exact (bind_of_ok (hrun s hs hneed)).trans (hseal _ rfl)

/-- `Marshal` fails on the same only. -/
theorem refuses_of_marshal {e : SnapshotCause} (h : c.marshal env g v s = (.error e, s')) :
    c.Refuses env g v e := by
  induction c generalizing s s' e with
  | base b =>
    rcases hm : b.marshal env g v with err | data
    · rw [marshal, hm] at h
      cases h
      exact .inl ⟨err, hm, rfl⟩
    · rw [marshal, hm] at h
      cases h
  | compressed p level c ih =>
    unfold marshal at h
    rcases hc : c.marshal env g v s with ⟨err | raw, s₁⟩
    · rw [bind_of_error hc] at h
      cases h
      exact ih hc
    · rw [bind_of_ok hc] at h
      cases h
  | encrypted gcm c ih =>
    unfold marshal at h
    rcases hc : c.marshal env g v s with ⟨err | plain, s₁⟩
    · rw [bind_of_error hc] at h
      cases h
      exact ih hc
    · rw [bind_of_ok hc] at h
      obtain ⟨r, d', hseal, hrefuse⟩ := sealWith_outcome env gcm c plain [] s₁.drawn
      rw [hseal s₁ rfl] at h
      cases h
      exact .inr (hrefuse e rfl)

end Codec

/-! ### Keys -/

namespace KeyKind

theorem setRawKey_rawKeyBytes {kind : KeyKind K} {k : K} {b : Bytes}
    (h : kind.rawKeyBytes k = .ok b) : kind.setRawKey b = .ok k := by
  cases kind with
  | string e =>
    cases h
    exact congrArg Except.ok (e.symm_apply_apply k)
  | int w e =>
    cases h
    have hrange := (e k).2
    have hlt : Varint.zigzag (e k).1 < 2 ^ 64 := by
      have hbits : w.bits - 1 ≤ 63 := by cases w <;> decide
      have hpow : (2 : ℤ) ^ (w.bits - 1) ≤ 2 ^ 63 := pow_le_pow_right₀ (by norm_num) hbits
      exact Varint.zigzag_lt (by linarith [hrange.1]) (by linarith [hrange.2])
    have hget := Varint.get_put hlt []
    rw [List.append_nil] at hget
    unfold setRawKey
    dsimp only
    rw [hget]
    dsimp only
    rw [if_neg (by simp), Varint.unzigzag_zigzag, dif_pos hrange]
    exact congrArg Except.ok (e.symm_apply_apply k)
  | uint w e =>
    cases h
    have hrange := (e k).2
    have hlt : (e k).1 < 2 ^ 64 :=
      lt_of_lt_of_le hrange (Nat.pow_le_pow_right (by decide) (by cases w <;> decide))
    have hget := Varint.get_put hlt []
    rw [List.append_nil] at hget
    unfold setRawKey
    dsimp only
    rw [hget]
    dsimp only
    rw [if_neg (by simp), dif_pos hrange]
    exact congrArg Except.ok (e.symm_apply_apply k)
  | other => cases h

end KeyKind

variable {env : CodecEnv C} {types : RecordTypes C K V} {c : Codec C} {s s' : Saving} {data : Bytes}

theorem marshalKey_spec (henv : env.Lawful) (hc : c.Opens)
    (hkey : c.isRawCodec = false → types.key.RoundTrips env c.bottom) {k : K}
    (h : marshalKey env types c k s = (.ok data, s')) :
    ∃ cost, s.Spends cost s' ∧ (c.compresses = false → cost = 0) ∧
      Reads source (unmarshalKey env types c data) ⟨[], cost⟩ k := by
  unfold marshalKey at h
  unfold unmarshalKey
  rcases hraw : c.isRawCodec
  · rw [hraw, if_pos rfl] at h
    obtain ⟨cost, hspend, hzero, hdecode, -⟩ := Codec.encode_spec henv hc (hkey hraw) h
    exact ⟨cost, hspend, hzero, hdecode⟩
  · rw [hraw, if_neg (by simp)] at h
    rw [if_neg (by simp)]
    have hslice : types.slice.RoundTrips env c.bottom := by
      rw [(Codec.isRawCodec_iff c).1 hraw]
      exact GoType.roundTrips_raw env _
    rcases hb : types.kind.rawKeyBytes k with e | b
    · rw [hb] at h
      cases h
    · rw [hb] at h
      obtain ⟨cost, hspend, hzero, hdecode, -⟩ := Codec.encode_spec henv hc hslice h
      refine ⟨cost, hspend, hzero, hdecode.map ?_⟩
      rw [KeyKind.setRawKey_rawKeyBytes hb]
      rfl

/-- The errors of `marshalKey` that are not about a budget: a raw codec refuses keys of other kinds. -/
def RefusesKey (env : CodecEnv C) (types : RecordTypes C K V) (c : Codec C) (k : K)
    (e : SnapshotCause) : Prop :=
  if c.isRawCodec = false then c.Refuses env types.key k e
  else types.kind = .other ∧ e = .codec ⟨.marshal, ascii "raw", .rawCodecKey⟩ ∨ Codec.CipherRefuses e

theorem marshalKey_outcome (hslice : types.slice.bytes.isSome) (c : Codec C) (k : K) (d : ℕ) :
    ∃ need, ∀ s : Saving, s.drawn = d → need ≤ s.inflateLeft →
      ∀ e s', marshalKey env types c k s = (.error e, s') → RefusesKey env types c k e := by
  unfold marshalKey RefusesKey
  rcases hraw : c.isRawCodec
  · simp only [if_true]
    obtain ⟨need, r, d', hrun, hfail⟩ := Codec.encode_outcome env types.key c k d
    refine ⟨need, fun s hs hneed e s' h ↦ hfail e ?_⟩
    rw [hrun s hs hneed] at h
    exact congrArg Prod.fst h
  · simp only [Bool.true_eq_false, if_false]
    rcases hb : types.kind.rawKeyBytes k with err | b
    · refine ⟨0, fun s _ _ e s' h ↦ .inl ?_⟩
      cases h
      rcases hk : types.kind with _ | _ | _ | _ <;> rw [hk] at hb <;> cases hb
      exact ⟨rfl, rfl⟩
    · obtain ⟨need, r, d', hrun, hfail⟩ := Codec.encode_outcome env types.slice c b d
      refine ⟨need, fun s hs hneed e s' h ↦ .inr ?_⟩
      have he : r = .error e := congrArg Prod.fst ((hrun s hs hneed).symm.trans h)
      refine (hfail e he).resolve_left ?_
      -- the raw codec takes every byte slice
      rintro ⟨err, herr, -⟩
      obtain ⟨e', he'⟩ := Option.isSome_iff_exists.1 hslice
      rw [(Codec.isRawCodec_iff c).1 hraw, BaseCodec.marshal, he'] at herr
      cases herr

/-- With budget enough `enc` fails on what is refused only, and what it writes `dec` reads back, at the
cost it was written at, where the budget is enough for that and below the greatest `int64`. -/
structure Returns (enc : T → Saver Bytes) (dec : Bytes → Field T)
    (refuses : T → SnapshotCause → Prop) : Prop where
  writes : ∀ v d, ∃ need, ∀ s : Saving, s.drawn = d → need ≤ s.inflateLeft →
    ∀ e s', enc v s = (.error e, s') → refuses v e
  reads : ∀ v s data s', enc v s = (.ok data, s') →
    ∃ cost, s.Spends cost s' ∧ ∀ ls : Loading, cost ≤ ls.inflateLeft → ls.inflateLeft < maxInt64 →
      ∃ ls', dec data ls = (.ok v, ls') ∧ ls'.inflateLeft = ls.inflateLeft - cost

/-- A computation that costs nothing but inflated bytes, run on a load with the budget for them. -/
theorem run_of_reads {ε α : Type} {p : Reading Loading ε α} {x : α}
    (h : Reads source p ⟨[], cost⟩ x) {ls : Loading} (hcost : cost ≤ ls.inflateLeft)
    (hlt : ls.inflateLeft < maxInt64) :
    ∃ ls', p ls = (.ok x, ls') ∧ ls'.inflateLeft = ls.inflateLeft - cost := by
  obtain ⟨ls', hp, hafter⟩ := h.ok ls ⟨⟨List.nil_prefix, fun _ ↦ hlt⟩, Nat.zero_le _, hcost⟩
  exact ⟨ls', hp, hafter.inflateLeft⟩

theorem returns_marshalKey (henv : env.Lawful) (hslice : types.slice.bytes.isSome) (hc : c.Opens)
    (hkey : c.isRawCodec = false → types.key.RoundTrips env c.bottom) :
    Returns (marshalKey env types c) (unmarshalKey env types c) (RefusesKey env types c) where
  writes k d := marshalKey_outcome hslice c k d
  reads k s data s' h := by
    obtain ⟨cost, hspend, -, hread⟩ := marshalKey_spec henv hc hkey h
    exact ⟨cost, hspend, fun ls ↦ run_of_reads hread⟩

theorem Codec.encode_writes (env : CodecEnv C) (g : GoType C T) (c : Codec C) (v : T) (d : ℕ) :
    ∃ need, ∀ s : Saving, s.drawn = d → need ≤ s.inflateLeft →
      ∀ e s', c.encode env g v s = (.error e, s') → c.Refuses env g v e := by
  obtain ⟨need, r, d', hrun, hfail⟩ := encode_outcome env g c v d
  refine ⟨need, fun s hs hneed e s' h ↦ hfail e ?_⟩
  rw [hrun s hs hneed] at h
  exact congrArg Prod.fst h

theorem returns_encode (henv : env.Lawful) (hc : c.Opens) {g : GoType C T}
    (hg : g.RoundTrips env c.bottom) :
    Returns (c.encode env g) (c.decode env g) (c.Refuses env g) where
  writes v d := Codec.encode_writes env g c v d
  reads v s data s' h := by
    obtain ⟨cost, hspend, -, hread, -⟩ := Codec.encode_spec henv hc hg h
    exact ⟨cost, hspend, fun ls ↦ run_of_reads hread⟩

/-- **Keys and values come back from every stack of codecs**, with the layer that encrypts taken out, at
the cost they were written at; whether the stack is raw does not depend on that layer. With the whole
stack, what `Save` encodes its own `Unmarshal` reads, and what its `Marshal` writes `Load` decodes. -/
theorem codec_roundtrip (henv : env.Lawful) (hslice : types.slice.bytes.isSome) (hc : c.Opens)
    (hkey : c.isRawCodec = false → types.key.RoundTrips env c.bottom)
    (hvalue : types.value.RoundTrips env c.bottom) :
    c.splitEncryption.1.isRawCodec = c.isRawCodec ∧
    Returns (marshalKey env types c.splitEncryption.1) (unmarshalKey env types c.splitEncryption.1)
      (RefusesKey env types c.splitEncryption.1) ∧
    Returns (c.splitEncryption.1.encode env types.value) (c.splitEncryption.1.decode env types.value)
      (c.splitEncryption.1.Refuses env types.value) ∧
    (∀ v d, ∃ need, ∀ s : Saving, s.drawn = d → need ≤ s.inflateLeft → ∀ e s',
      c.encode env types.value v s = (.error e, s') → c.Refuses env types.value v e) ∧
    (∀ v s data s', c.encode env types.value v s = (.ok data, s') →
      c.unmarshal env types.value data = .ok v) ∧
    (∀ v s e s', c.marshal env types.value v s = (.error e, s') → c.Refuses env types.value v e) ∧
    ∀ v s data s', c.marshal env types.value v s = (.ok data, s') →
      ∃ cost, ∀ ls : Loading, cost ≤ ls.inflateLeft → ls.inflateLeft < maxInt64 →
        ∃ ls', c.decode env types.value data ls = (.ok v, ls') := by
  have hraw := c.isRawCodec_splitEncryption
  have hbottom := c.bottom_splitEncryption
  refine ⟨hraw, returns_marshalKey henv hslice hc.splitEncryption (by rwa [hraw, hbottom]),
    returns_encode henv hc.splitEncryption (by rwa [hbottom]),
    fun v d ↦ Codec.encode_writes env _ c v d, fun v s data s' h ↦ ?_,
    fun v s e s' h ↦ Codec.refuses_of_marshal h, fun v s data s' h ↦ ?_⟩
  · obtain ⟨-, -, -, -, hun⟩ := Codec.encode_spec henv hc hvalue h
    exact hun
  · obtain ⟨cost, hread⟩ := Codec.marshal_spec henv hc hvalue h
    refine ⟨cost, fun ls hcost hlt ↦ ?_⟩
    obtain ⟨ls', hls', -⟩ := run_of_reads hread hcost hlt
    exact ⟨ls', hls'⟩

/-- A toy cipher: the tag is the length of the associated data, the nonce and the text added up. -/
def toyAEAD : AEAD where
  nonceSize := 2
  overhead := 1
  sealText nonce plain ad := UInt8.ofNat ad.length :: (nonce ++ plain).foldr (· + ·) 0 :: plain
  openText nonce text ad :=
    match text with
    | a :: t :: plain =>
      if a = UInt8.ofNat ad.length ∧ t = (nonce ++ plain).foldr (· + ·) 0 then some plain else none
    | _ => none

theorem opens_toyAEAD : toyAEAD.Opens := fun nonce plain ad _ ↦ by simp [toyAEAD]

/-- `gzip` that adds a magic byte, and nonces that count. -/
def toyEnv : CodecEnv Unit where
  name _ := ascii "json"
  gzip _ b := 0x1f :: b
  gunzip
    | 0x1f :: b => some (b, true)
    | _ => none
  random i n := some (Vector.replicate n (UInt8.ofNat i))

theorem lawful_toyEnv : toyEnv.Lawful := ⟨fun _ _ ↦ rfl⟩

/-- Byte slices, under a base codec that reverses them and refuses the empty one. -/
def toySlice : GoType Unit Bytes where
  marshal _ b := if b = [] then .error "empty" else .ok b.reverse
  unmarshal _ b := .ok b.reverse
  bytes := some (Equiv.refl _)

def toyTypes : RecordTypes Unit Bytes Bytes where
  key := toySlice
  value := toySlice
  slice := toySlice
  kind := .string (Equiv.refl _)
  filter := id
  custom := none

def toyStack : Codec Unit :=
  .compressed true 6 (.encrypted toyAEAD (.compressed false 99 (.base (.other ()))))

theorem roundTrips_toySlice (b : BaseCodec Unit) : toySlice.RoundTrips toyEnv b := by
  rcases b with _ | ⟨⟩
  · exact GoType.roundTrips_raw _ _
  · intro v data h
    by_cases hv : v = []
    · subst hv
      cases h
    · have hm : (BaseCodec.other ()).marshal toyEnv toySlice v = .ok v.reverse := by
        simp [BaseCodec.marshal, toySlice, hv, Except.mapError]
      cases hm.symm.trans h
      simp [BaseCodec.unmarshal, toySlice, Except.mapError]

/-- Two layers compress and one between them encrypts. -/
theorem codec_roundtrip_layers :
    toyStack.splitEncryption.1 = .compressed false 6 (.compressed false 99 (.base (.other ()))) ∧
    Returns (toyStack.splitEncryption.1.encode toyEnv toySlice)
      (toyStack.splitEncryption.1.decode toyEnv toySlice)
      (toyStack.splitEncryption.1.Refuses toyEnv toySlice) ∧
    (toyStack.encode toyEnv toySlice [1, 2] ⟨[], 0, [], 9, 0⟩).1 =
      .ok [0x1f, 0, 0, 0, 0x22, 0x1f, 2, 1] ∧
    toyStack.unmarshal toyEnv toySlice [0x1f, 0, 0, 0, 0x22, 0x1f, 2, 1] = .ok [1, 2] := by
  have hslice : toyTypes.slice.bytes.isSome := rfl
  have hstack : toyStack.Opens := ⟨opens_toyAEAD, trivial⟩
  have h := codec_roundtrip lawful_toyEnv hslice hstack
    (fun _ ↦ roundTrips_toySlice _) (roundTrips_toySlice toyStack.bottom)
  refine ⟨rfl, h.2.2.1, rfl, h.2.2.2.2.1 _ ⟨[], 0, [], 9, 0⟩ _ _ rfl⟩

/-! ### The greatest limit -/

namespace Codec

variable {env : CodecEnv C}

/-- `inflate` with a limit, of a compressed text: the whole of it within the limit, and an error beyond. -/
def Inflates (env : CodecEnv C) (limit : ℕ) (raw : Bytes) : Prop :=
  ∀ codec level (s : Loading), s.inflateLeft = limit →
    (inflate env codec (compress env level raw) s).1 =
      if raw.length ≤ limit then .ok raw
      else .error (.codec ⟨.unmarshal, codec, .inflateTooLarge⟩)

/-- Texts compressed one by one, and inflated in turn by one load. -/
def inflateAll (env : CodecEnv C) (codec : Bytes) (level : ℤ) : List Bytes → Field (List Bytes)
  | [] => pure []
  | raw :: raws => do
    let first ← inflate env codec (compress env level raw)
    let rest ← inflateAll env codec level raws
    pure (first :: rest)

theorem reads_inflateAll (henv : env.Lawful) (codec : Bytes) (level : ℤ) (raws : List Bytes) :
    Reads source (inflateAll env codec level raws) ⟨[], (raws.map List.length).sum⟩ raws := by
  induction raws with
  | nil => exact Reads.pure []
  | cons raw raws ih =>
    refine Reads.congr (m := ⟨[], raw.length⟩ * ⟨[], (raws.map List.length).sum⟩) ?_ rfl
    refine (reads_inflate henv codec level raw).bind ?_
    exact ih.map rfl

theorem inflateAll_saturated (henv : env.Lawful) (codec : Bytes) (level : ℤ) (raws : List Bytes)
    {s : Loading} (hs : s.inflateLeft = maxInt64) :
    inflateAll env codec level raws s = (.ok (raws.map fun _ ↦ []), s) := by
  induction raws with
  | nil => rfl
  | cons raw raws ih =>
    have hfirst : inflate env codec (compress env level raw) s = (.ok [], s) :=
      inflate_saturated codec (gunzip_compress henv level raw) hs
    exact (bind_of_ok hfirst).trans ((bind_of_ok ih).trans rfl)

/-- **The limit is kept, and the texts within it come back, exactly below the greatest `int64`** (or if
there is nothing to inflate). -/
theorem inflates_iff (henv : env.Lawful) {limit : ℕ} (hlimit : limit ≤ maxInt64) (raw codec : Bytes)
    (level : ℤ) (input : Bytes) {raws : List Bytes}
    (hraws : (raws.map List.length).sum ≤ inflateLimit limit) :
    (Inflates env limit raw ↔ limit < maxInt64 ∨ raw = []) ∧
      ((inflateAll env codec level raws (.start input limit)).1 = .ok raws ↔
        limit ≤ maxInt64 / 16 ∨ ∀ r ∈ raws, r = []) := by
  constructor
  · constructor
    · intro h
      refine hlimit.lt_or_eq.imp_right fun heq ↦ ?_
      let s : Loading := { Loading.start input 0 with inflateLeft := limit }
      have hs := h codec level s rfl
      rw [inflate_saturated codec (gunzip_compress henv level raw) heq] at hs
      split_ifs at hs
      · exact (Except.ok.inj hs).symm
    · rintro h codec level s rfl
      rw [inflate_compress henv codec level h]
      split_ifs <;> rfl
  · by_cases hsat : limit ≤ maxInt64 / 16
    · have hlt : inflateLimit limit < maxInt64 := by
        rw [inflateLimit, if_neg (by omega)]
        unfold maxInt64 at hsat ⊢
        omega
      obtain ⟨s', hok, -⟩ := (reads_inflateAll henv codec level raws).ok (.start input limit)
        ⟨⟨List.nil_prefix, fun _ ↦ hlt⟩, Nat.zero_le _, hraws⟩
      exact iff_of_true (congrArg Prod.fst hok) (.inl hsat)
    · have hmax : inflateLimit limit = maxInt64 := if_pos (by omega)
      rw [inflateAll_saturated henv codec level raws (s := .start input limit) hmax, or_iff_right hsat]
      constructor
      · intro h r hr
        rw [← Except.ok.inj h] at hr
        obtain ⟨_, -, rfl⟩ := List.mem_map.1 hr
        rfl
      · intro h
        exact congrArg Except.ok ((List.map_congr_left fun r hr ↦ (h r hr).symm).trans (List.map_id _))

end Codec

/-- Below the greatest limit, what was compressed comes back. -/
theorem inflates_iff_small :
    Codec.Inflates toyEnv 2 [1, 2] ∧
      (Codec.inflateAll toyEnv [] 6 [[1, 2], [3]] (.start [] 2)).1 = .ok [[1, 2], [3]] := by
  have hlen : (([[1, 2], [3]] : List Bytes).map List.length).sum ≤ inflateLimit 2 := by decide
  have h := Codec.inflates_iff lawful_toyEnv (show 2 ≤ maxInt64 by decide) [1, 2] [] 6 [] hlen
  exact ⟨h.1.2 (.inl (by decide)), h.2.2 (.inl (by decide))⟩

/-- At the greatest limit a byte is inflated to nothing, without an error. -/
theorem inflate_greatest : (Codec.inflate toyEnv [] (Codec.compress toyEnv 6 [1])
    { Loading.start [] 0 with inflateLeft := maxInt64 }).1 = .ok [] ∧ ¬ Codec.Inflates toyEnv maxInt64 [1] := by
  have hempty : (Codec.inflate toyEnv [] (Codec.compress toyEnv 6 [1])
      { Loading.start [] 0 with inflateLeft := maxInt64 }).1 = .ok [] := rfl
  refine ⟨hempty, fun h ↦ ?_⟩
  have hone := h [] 6 { Loading.start [] 0 with inflateLeft := maxInt64 } rfl
  rw [hempty, if_pos (by decide)] at hone
  exact absurd (Except.ok.inj hone) (by decide)

end Memcache

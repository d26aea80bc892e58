import Memcache.Snapshot.Reader

/-!
# Writing a snapshot

`Save` writes field by field to a writer with a limit: a write that does not fit fails, and leaves what
was written before it. So **a sequence of writes succeeds exactly when all of it fits**, and has then
written the concatenation.
-/

namespace Memcache

open Reading

/-- The state of a save: what the limited writer has passed on and may still pass on, what was hashed,
the bytes that may still be compressed, and the random nonces drawn. -/
@[ext] structure Saving where
  out : Bytes
  left : ℕ
  hashed : Bytes
  inflateLeft : ℕ
  drawn : ℕ

/-- A step of a save, with the error as it occurs, and as `Save` reports it. -/
abbrev Saver (α : Type) := Reading Saving SnapshotCause α

abbrev Save (α : Type) := Reading Saving SnapshotError α

def saveErr (field : String) (err : SnapshotCause) : SnapshotError :=
  ⟨.save, 0, "writing " ++ field, err⟩

def wrapSaveErr {α : Type} (field : String) (p : Saver α) : Save α :=
  p.mapError fun _ e ↦ saveErr field e

namespace Saving

/-- The state after `b` was written, to the hash too or not. -/
def put (s : Saving) (hash : Bool) (b : Bytes) : Saving :=
  { s with
    out := s.out ++ b
    left := s.left - b.length
    hashed := if hash then s.hashed ++ b else s.hashed }

@[simp] theorem put_nil (s : Saving) (hash : Bool) : s.put hash [] = s := by
  cases hash <;> ext1 <;> simp [put]

theorem put_put (s : Saving) (hash : Bool) (a b : Bytes) :
    (s.put hash a).put hash b = s.put hash (a ++ b) := by
  cases hash <;> ext1 <;> simp [put, Nat.sub_sub]

/-- `s'` is `s` after `b` was written, which fitted. -/
structure Wrote (s : Saving) (hash : Bool) (b : Bytes) (s' : Saving) : Prop where
  fits : b.length ≤ s.left
  eq : s' = s.put hash b

section

variable {s s' : Saving} {hash : Bool} {b : Bytes} (h : s.Wrote hash b s')
include h

theorem Wrote.out_eq : s'.out = s.out ++ b :=
  congrArg Saving.out h.eq

theorem Wrote.left_eq : s'.left = s.left - b.length :=
  congrArg Saving.left h.eq

theorem Wrote.inflateLeft_eq : s'.inflateLeft = s.inflateLeft := by
  rw [h.eq]
  rfl

end

theorem Wrote.refl (s : Saving) (hash : Bool) : s.Wrote hash [] s :=
  ⟨Nat.zero_le _, (put_nil s hash).symm⟩

/-- One write after another fits when both together fit. -/
theorem wrote_append {s s'' : Saving} {hash : Bool} {a b : Bytes} :
    s.Wrote hash (a ++ b) s'' ↔ ∃ s', s.Wrote hash a s' ∧ s'.Wrote hash b s'' := by
  refine ⟨fun ⟨hfits, heq⟩ ↦ ?_, ?_⟩
  · rw [List.length_append] at hfits
    have hleft : (s.put hash a).left = s.left - a.length := rfl
    exact ⟨s.put hash a, ⟨by omega, rfl⟩, by omega, heq.trans (put_put ..).symm⟩
  · rintro ⟨s', ⟨ha, rfl⟩, hb, rfl⟩
    have hleft : (s.put hash a).left = s.left - a.length := rfl
    rw [hleft] at hb
    refine ⟨?_, put_put ..⟩
    rw [List.length_append]
    omega

end Saving

/-! ### Bytes that may be refused -/

namespace Wire

/-- One part and then the other, unless one is refused. -/
def cat (w₁ w₂ : Except SnapshotCause Bytes) : Except SnapshotCause Bytes := do
  let a ← w₁
  let b ← w₂
  pure (a ++ b)

theorem cat_eq_ok {w₁ w₂ : Except SnapshotCause Bytes} {c : Bytes} :
    cat w₁ w₂ = .ok c ↔ ∃ a b, w₁ = .ok a ∧ w₂ = .ok b ∧ a ++ b = c := by
  rcases w₁ with e | a
  · exact ⟨nofun, fun ⟨_, _, h, _⟩ ↦ nomatch h⟩
  rcases w₂ with e | b
  · exact ⟨nofun, fun ⟨_, _, _, h, _⟩ ↦ nomatch h⟩
  · show Except.ok (a ++ b) = .ok c ↔ _
    simp

/-- Strings, one after another. -/
def fields : List Bytes → Except SnapshotCause Bytes
  | [] => .ok []
  | b :: l => cat (field b) (fields l)

end Wire

/-! ### The limited writer -/

/-- What a step writes: it succeeds when the bytes are not refused and fit. -/
def Puts {ε : Type} (hash : Bool) (p : Reading Saving ε Unit) (w : Except SnapshotCause Bytes) : Prop :=
  ∀ s s', p s = (.ok (), s') ↔ ∃ b, w = .ok b ∧ s.Wrote hash b s'

namespace Puts

variable {ε : Type} {hash : Bool} {p q : Reading Saving ε Unit} {w w₁ w₂ : Except SnapshotCause Bytes}

theorem nothing : Puts hash (pure () : Reading Saving ε Unit) (.ok []) := by
  refine fun s s' ↦ ⟨?_, ?_⟩
  · rintro ⟨⟩
    exact ⟨[], rfl, .refl s hash⟩
  · rintro ⟨_, ⟨⟩, hw⟩
    rw [hw.eq, Saving.put_nil]
    rfl

theorem refused (e : ε) (e' : SnapshotCause) :
    Puts hash (fail e : Reading Saving ε Unit) (.error e') :=
  fun _ _ ↦ ⟨nofun, fun ⟨_, h, _⟩ ↦ nomatch h⟩

theorem seq (hp : Puts hash p w₁) (hq : Puts hash q w₂) :
    Puts hash (p >>= fun _ ↦ q) (Wire.cat w₁ w₂) := by
  intro s s'
  rw [bind_eq_ok]
  refine ⟨?_, ?_⟩
  · rintro ⟨⟨⟩, s₁, h₁, h₂⟩
    obtain ⟨a, ha, hs₁⟩ := (hp _ _).1 h₁
    obtain ⟨b, hb, hs'⟩ := (hq _ _).1 h₂
    exact ⟨a ++ b, Wire.cat_eq_ok.2 ⟨a, b, ha, hb, rfl⟩, Saving.wrote_append.2 ⟨s₁, hs₁, hs'⟩⟩
  · rintro ⟨c, hc, hs'⟩
    obtain ⟨a, b, ha, hb, rfl⟩ := Wire.cat_eq_ok.1 hc
    obtain ⟨s₁, hs₁, hs'⟩ := Saving.wrote_append.1 hs'
    exact ⟨(), s₁, (hp _ _).2 ⟨a, ha, hs₁⟩, (hq _ _).2 ⟨b, hb, hs'⟩⟩

theorem wrap {p : Saver Unit} (hp : Puts hash p w) (field : String) :
    Puts hash (wrapSaveErr field p) w :=
  fun s s' ↦ mapError_eq_ok.trans (hp s s')

end Puts

namespace Saver

variable (hash : Bool)

/-- `limitWriter.Write`, and the hash beside it. -/
def write (b : Bytes) : Saver Unit := fun s ↦
  if s.left < b.length then (.error .tooLarge, s) else (.ok (), s.put hash b)

/-- `writeBytes` and `writeString`. -/
def writeBytes (b : Bytes) : Saver Unit :=
  if 2 ^ 31 - 1 < b.length then fail .fieldTooBig
  else do
    write hash (Wire.u32 (UInt32.ofNat b.length))
    if b = [] then pure () else write hash b

theorem puts_write (b : Bytes) : Puts hash (write hash b) (.ok b) := by
  intro s s'
  unfold write
  split_ifs with hleft
  · exact ⟨nofun, fun ⟨_, hb, h⟩ ↦ absurd h.fits (by cases hb; omega)⟩
  · refine ⟨?_, ?_⟩
    · rintro ⟨⟩
      exact ⟨b, rfl, by omega, rfl⟩
    · rintro ⟨_, ⟨⟩, h⟩
      rw [h.eq]

theorem puts_writeBytes (b : Bytes) : Puts hash (writeBytes hash b) (Wire.field b) := by
  unfold writeBytes Wire.field
  split_ifs with hlen hnil
  · exact .refused _ _
  · subst hnil
    exact (puts_write hash _).seq .nothing
  · exact (puts_write hash _).seq (puts_write hash b)

end Saver

end Memcache

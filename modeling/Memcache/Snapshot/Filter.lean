import Memcache.Lib.StructMemory
import Memcache.Snapshot.CacheTag

/-!
# The snapshot filter

`Save` hands every value to the codec through `applySnapshotFilter`, which sets the fields tagged secret
or `-` to zero in a copy. The copy is a shallow one, while the paths of the filters run through embedded
pointers as well: what they lead to there belongs to the value in the cache.

A value is where its struct is: the struct itself for a value type `T`, the struct pointed to for `*T`,
with `none` for a nil pointer. `SharedZero` says on the type and the value when the value in the cache is left
alone; that the copy is clean holds in any case in which `metaFor` returns.
-/

namespace Memcache

open StructMemory

/-- What reflection allows to be set: neither the field nor, unless it is embedded, a field on the way to
it is unexported. -/
def canSet (Γ : Types) : ℕ → List ℕ → Bool
  | _, [] => true
  | t, [i] => (Γ.fields t)[i]?.any StructField.exported
  | t, i :: p => (Γ.fields t)[i]?.any fun f ↦
      (f.exported || f.anonymous) && f.embeds.any fun u ↦ canSet Γ u p

/-- One round of `applyFilters` on the struct of type `t` at `l`. -/
def applyFilter (Γ : Types) (t : ℕ) (l : Loc) (m : Memory) (f : FieldFilter) : Memory :=
  match m.fieldByIndex l f.path with
  | none => m
  | some fv =>
    if !canSet Γ t f.path then m
    else if f.zero then m.zero fv
    -- `omitempty` is declarative
    else m

def applyFilters (Γ : Types) (t : ℕ) (l : Loc) (m : Memory) (filters : List FieldFilter) : Memory :=
  filters.foldl (applyFilter Γ t l) m

/-- The value that the codec gets, and the memory after the call. -/
def applySnapshotFilter (Γ : Types) (fuel t : ℕ) (m : Memory) (v : Option Loc) :
    Option (Option Loc × Memory) :=
  (metaFor Γ fuel (.struct t)).map fun c ↦
    if !c.hasFilters then (v, m)
    else
      match v with
      | none => (none, m)
      | some a => (some m.cloneRoot, applyFilters Γ t m.cloneRoot (m.clone a) c.filters)

/-- A value in the cache, with the memory it is in. -/
structure Cached where
  memory : Memory
  value : Option Loc
  stored : ∀ a, value = some a → a.cell < memory.next

/-! ### The property -/

/-- The path of a settable field that is tagged secret or `-`. -/
def Hidden (Γ : Types) (t : ℕ) (p : List ℕ) : Prop :=
  ∃ f, Γ.fieldAt t p = some f ∧ (f.opts.skip || f.opts.secret) ∧ canSet Γ t p

/-- What can be reached from the value is as it was. -/
def Unchanged (c : Cached) (m : Memory) : Prop :=
  ∀ a, c.value = some a → ∀ l, c.memory.Reaches a l → m.load l = c.memory.load l

/-- Every hidden field of a value that can be reached is zero. -/
def Clean (Γ : Types) (t : ℕ) (m : Memory) (v : Option Loc) : Prop :=
  ∀ a, v = some a → ∀ p, Hidden Γ t p → ∀ l, m.fieldByIndex a p = some l → m.ZeroAt l

/-- Every hidden field of the value that lies behind an embedded pointer is zero, unless that pointer is
inside of a hidden field of the struct itself. -/
def SharedZero (Γ : Types) (t : ℕ) (c : Cached) : Prop :=
  ∀ a, c.value = some a → ∀ p, Hidden Γ t p → ∀ l, c.memory.fieldByIndex a p = some l →
    ¬ c.memory.InPlace a p →
    c.memory.ZeroAt l ∨ ∃ q, Hidden Γ t q ∧ q <+: p ∧ q ≠ p ∧ c.memory.InPlace a q

/-! ### The filters as a run of wipes -/

section Filters

variable {Γ : Types} {t fuel : ℕ} {l : Loc} {p : List ℕ} {visits : List Visit}

/-- The paths that are wiped, in the order of the walk. -/
def wipedPaths (Γ : Types) (t : ℕ) (visits : List Visit) : List (List ℕ) :=
  (visits.filter fun x ↦ (x.opts.skip || x.opts.secret) && canSet Γ t x.path).map Visit.path

theorem applyFilter_zero (m : Memory) (path : List ℕ) : applyFilter Γ t l m ⟨path, true, false⟩ =
    if canSet Γ t path then m.wipe l path else m := by
  rw [applyFilter, Memory.wipe]
  cases m.fieldByIndex l path <;> cases canSet Γ t path <;> rfl

theorem applyFilter_omitempty (m : Memory) (path : List ℕ) :
    applyFilter Γ t l m ⟨path, false, true⟩ = m := by
  rw [applyFilter]
  cases m.fieldByIndex l path <;> cases canSet Γ t path <;> rfl

theorem applyFilters_eq_wipeAll : ∀ (visits : List Visit) (m : Memory),
    applyFilters Γ t l m (visits.filterMap Visit.filter) = m.wipeAll l (wipedPaths Γ t visits)
  | [], _ => rfl
  | x :: visits, m => by
    rw [List.filterMap_cons, Visit.filter, wipedPaths, List.filter_cons]
    cases hhide : x.opts.skip || x.opts.secret with
    | false =>
      rw [if_neg Bool.false_ne_true, Bool.false_and, if_neg Bool.false_ne_true]
      cases x.opts.omitempty with
      | false =>
        rw [if_neg Bool.false_ne_true]
        exact applyFilters_eq_wipeAll visits m
      | true =>
        rw [if_pos rfl]
        change applyFilters Γ t l (applyFilter Γ t l m _) _ = _
        rw [applyFilter_omitempty]
        exact applyFilters_eq_wipeAll visits m
    | true =>
      rw [if_pos rfl, Bool.true_and]
      change applyFilters Γ t l (applyFilter Γ t l m _) _ = _
      rw [applyFilter_zero]
      cases canSet Γ t x.path with
      | false => exact applyFilters_eq_wipeAll visits m
      | true => exact applyFilters_eq_wipeAll visits (m.wipe l x.path)

theorem mem_wipedPaths (h : walkStructFields Γ fuel t [] = some visits) :
    p ∈ wipedPaths Γ t visits ↔ Hidden Γ t p := by
  rw [wipedPaths, List.mem_map]
  constructor
  · rintro ⟨x, hx, rfl⟩
    obtain ⟨hx, hhide⟩ := List.mem_filter.1 hx
    obtain ⟨q, f, hf, rfl⟩ := (mem_walk h x).1 hx
    rw [Bool.and_eq_true] at hhide
    exact ⟨f, hf, hhide.1, hhide.2⟩
  · rintro ⟨f, hf, hhide, hset⟩
    refine ⟨f.visit p, List.mem_filter.2 ⟨(mem_walk h _).2 ⟨p, f, hf, rfl⟩, ?_⟩, rfl⟩
    rw [Bool.and_eq_true]
    exact ⟨hhide, hset⟩

theorem wipedPaths_order (h : walkStructFields Γ fuel t [] = some visits) :
    (wipedPaths Γ t visits).Pairwise fun p q ↦ ¬ q <+: p :=
  ((walk_order h).filter _).map _ fun _ _ ↦ id

/-- What a call returns is a run of wipes on a copy; nothing is copied for a nil pointer, nor if there is
no filter. -/
theorem applySnapshotFilter_eq_some {m m' : Memory} {v v' : Option Loc}
    (h : applySnapshotFilter Γ fuel t m v = some (v', m')) :
    ∃ visits, walkStructFields Γ fuel t [] = some visits ∧
      ((v' = v ∧ m' = m ∧ (v = none ∨ ∀ p, ¬ Hidden Γ t p)) ∨
      ∃ a, v = some a ∧ v' = some m.cloneRoot ∧
        m' = (m.clone a).wipeAll m.cloneRoot (wipedPaths Γ t visits)) := by
  rw [applySnapshotFilter, Option.map_eq_some_iff] at h
  obtain ⟨c, hc, h⟩ := h
  obtain ⟨visits, hvisits, hfilters⟩ := filters_buildMeta hc
  refine ⟨visits, hvisits, ?_⟩
  by_cases hhas : c.hasFilters
  · rw [hhas, Bool.not_true, if_neg Bool.false_ne_true] at h
    cases v with
    | none =>
      cases h
      exact .inl ⟨rfl, rfl, .inl rfl⟩
    | some a =>
      cases h
      exact .inr ⟨a, rfl, rfl, by rw [hfilters, applyFilters_eq_wipeAll]⟩
  · rw [Bool.not_eq_true] at hhas
    rw [hhas, Bool.not_false, if_pos rfl] at h
    cases h
    refine .inl ⟨rfl, rfl, .inr fun p hp ↦ ?_⟩
    have hnil : visits.filterMap Visit.filter = [] := by
      rw [← hfilters]
      exact List.isEmpty_iff.1 (by rwa [CacheTypeMeta.hasFilters, Bool.not_eq_false'] at hhas)
    obtain ⟨f, hf, hhide, -⟩ := hp
    have hmem := (mem_walk hvisits (f.visit p)).2 ⟨p, f, hf, rfl⟩
    have hnone := List.filterMap_eq_nil_iff.1 hnil _ hmem
    have hsome : (f.visit p).filter = some ⟨p, true, false⟩ := if_pos hhide
    cases hsome.symm.trans hnone

/-- What a returning call hands to the codec is clean. -/
theorem clean_applySnapshotFilter {m m' : Memory} {v v' : Option Loc}
    (h : applySnapshotFilter Γ fuel t m v = some (v', m')) : Clean Γ t m' v' := by
  obtain ⟨visits, hvisits, ⟨rfl, rfl, hnone⟩ | ⟨a, rfl, rfl, rfl⟩⟩ := applySnapshotFilter_eq_some h
  · intro a ha p hp l _
    rcases hnone with rfl | hnone
    · cases ha
    · exact absurd hp (hnone p)
  · intro b hb p hp l hl
    cases hb
    exact Memory.zeroAt_wipeAll ((mem_wipedPaths hvisits).2 hp) hl

/-- A returning call leaves the value alone exactly when what it shares is zero. -/
theorem unchanged_iff_sharedZero {c : Cached} {m : Memory} {v : Option Loc}
    (h : applySnapshotFilter Γ fuel t c.memory c.value = some (v, m)) : Unchanged c m ↔ SharedZero Γ t c := by
  obtain ⟨visits, hvisits, ⟨-, rfl, hnone⟩ | ⟨a, ha, -, rfl⟩⟩ := applySnapshotFilter_eq_some h
  · refine iff_of_true (fun _ _ _ _ ↦ rfl) fun a ha p hp ↦ ?_
    rcases hnone with hnone | hnone
    · cases hnone.symm.trans ha
    · exact absurd hp (hnone p)
  · have hmem (p : List ℕ) : p ∈ wipedPaths Γ t visits ↔ Hidden Γ t p := mem_wipedPaths hvisits
    have hiff := Memory.wipeAll_unchanged_iff (c.stored a ha) (wipedPaths_order hvisits)
    simp only [Memory.Harmless, hmem] at hiff
    rw [Unchanged, SharedZero, ha]
    simp only [Option.some.injEq, forall_eq']
    exact hiff

end Filters

/-- **When `Save` keeps to itself.** For every struct type and every cached value, the call that `Save`
makes for the value returns, leaves everything that can be reached from the value unchanged and hands over
a value whose hidden fields are zero, exactly when no struct that the type embeds embeds itself and every
hidden field behind an embedded pointer is zero already, unless that pointer is hidden in the struct
itself. -/
theorem applySnapshotFilter_iff (Γ : Types) (t : ℕ) (c : Cached) :
    (∃ fuel v m, applySnapshotFilter Γ fuel t c.memory c.value = some (v, m) ∧
      Unchanged c m ∧ Clean Γ t m v) ↔ Γ.Acyclic t ∧ SharedZero Γ t c := by
  constructor
  · rintro ⟨fuel, v, m, h, hunchanged, -⟩
    obtain ⟨visits, hvisits, -⟩ := applySnapshotFilter_eq_some h
    exact ⟨walk_returns_iff.1 ⟨fuel, visits, hvisits⟩, (unchanged_iff_sharedZero h).1 hunchanged⟩
  · rintro ⟨hacyclic, hshared⟩
    obtain ⟨fuel, visits, hvisits⟩ := walk_returns_iff.2 hacyclic
    obtain ⟨d, hd⟩ := buildMeta_returns.2 ⟨visits, hvisits⟩
    obtain ⟨⟨v, m⟩, h⟩ : ∃ r, applySnapshotFilter Γ fuel t c.memory c.value = some r :=
      ⟨_, congrArg (Option.map _) hd⟩
    exact ⟨fuel, v, m, h, (unchanged_iff_sharedZero h).2 hshared, clean_applySnapshotFilter h⟩

/-- `type Base struct { APIKey string "cache:-" }` and `type User struct { *Base }` -/
def embeddedKey : Types :=
  [[⟨"APIKey", "-", false, true, .leaf⟩], [⟨"Base", "", true, true, .pointer (.struct 0)⟩]]

/-- A user in cell 1, whose `Base` is in cell 0. -/
def userLoad (l : Loc) : Option Scalar :=
  if l = ⟨0, [0]⟩ then some (.plain 7)
  else if l = ⟨1, [0]⟩ then some (.pointer (some ⟨0, []⟩))
  else none

theorem userLoad_closed (l tgt : Loc) (h : userLoad l = some (.pointer (some tgt))) : tgt.cell < 2 := by
  rw [userLoad] at h
  split_ifs at h
  · cases h
  · cases h
    exact Nat.zero_lt_two

theorem user_stored (a : Loc) (h : some ⟨1, []⟩ = some a) : a.cell < 2 := by
  cases h
  exact Nat.one_lt_two

def cachedUser : Cached := ⟨⟨userLoad, 2, userLoad_closed⟩, some ⟨1, []⟩, user_stored⟩

/-- Saving the user deletes the key of the user in the cache. -/
theorem applySnapshotFilter_deletes : cachedUser.memory.Reaches ⟨1, []⟩ ⟨0, [0]⟩ ∧
    cachedUser.memory.load ⟨0, [0]⟩ = some (.plain 7) ∧
    ∃ v m, applySnapshotFilter embeddedKey 2 1 cachedUser.memory cachedUser.value = some (v, m) ∧
      m.load ⟨0, [0]⟩ = some (.plain 0) := by
  have hpointer : cachedUser.memory.load (Loc.sub ⟨1, []⟩ [0]) = some (.pointer (some ⟨0, []⟩)) := rfl
  exact ⟨.through [0] (.within [0]) hpointer, rfl, _, _, rfl, rfl⟩

end Memcache

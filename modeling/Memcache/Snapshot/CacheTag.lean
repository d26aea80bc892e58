import Mathlib.Data.Fintype.Card
import Mathlib.Data.Set.Finite.List
import Mathlib.Logic.Relation
import Mathlib.Order.WellFounded

/-!
# Struct tags of a value type

The fields of a value type carry `cache:"..."` tags. `metaFor` collects them once for each type by a walk
over the fields that descends into the embedded structs, also through pointers. The types of a program
are a table of struct declarations, in which a struct may embed a pointer to itself, directly or through
others.

The walk keeps no record of the types it is in. It takes fuel here, and out of fuel is `none`: a call
that returns does so with enough fuel. It returns exactly when no struct that is reached by embedding
embeds itself (`walk_returns_iff`), and it then visits exactly the fields that a path of embedded fields
leads to (`mem_walk`), a field before the fields below it (`walk_order`).

The memo of `metaFor` is left out: it holds what `buildMeta` returned for the same type. So are the text
of the fingerprint and the placeholders of the templates.
-/

namespace Memcache

/-! ### Tags -/

structure CacheTagOptions where
  /-- `cache:"-"` drops the field. -/
  skip : Bool
  /-- Zero during snapshot. -/
  secret : Bool
  /-- Skip from snapshot when zero-valued. -/
  omitempty : Bool
  /-- Include in the schema fingerprint. -/
  versioned : Bool
  /-- `tag=<template>` tags during `Set`. -/
  tagTemplate : String
  deriving DecidableEq

namespace CacheTagOptions

def none : CacheTagOptions := ⟨false, false, false, false, ""⟩

/-- One part of a tag after the first; unknown parts are ignored. -/
def read (opts : CacheTagOptions) (part : List Char) : CacheTagOptions :=
  if part = "secret".toList then { opts with secret := true }
  else if part = "omitempty".toList then { opts with omitempty := true }
  else if part = "versioned".toList then { opts with versioned := true }
  else if "tag=".toList.isPrefixOf part then { opts with tagTemplate := String.ofList (part.drop 4) }
  else opts

end CacheTagOptions

def parseCacheTag (tag : String) : CacheTagOptions :=
  if tag = "" then .none
  else
    let parts := tag.toList.splitOn ','
    parts.tail.foldl CacheTagOptions.read { CacheTagOptions.none with skip := parts.head? = some ['-'] }

/-! ### Types -/

/-- A Go type, as far as the walk looks at it. Structs are known by their place in the table. -/
inductive ReflectType where
  | leaf
  | struct (id : ℕ)
  | pointer (elem : ReflectType)
  deriving DecidableEq

/-- The struct behind any number of pointers. -/
def ReflectType.base : ReflectType → Option ℕ
  | .leaf => none
  | .struct id => some id
  | .pointer elem => elem.base

/-- A field of a struct declaration, with the value of its `cache` tag. -/
structure StructField where
  name : String
  tag : String
  anonymous : Bool
  exported : Bool
  type : ReflectType

namespace StructField

/-- The struct that the walk descends into at an embedded field. -/
def embeds (f : StructField) : Option ℕ := if f.anonymous then f.type.base else none

def opts (f : StructField) : CacheTagOptions := parseCacheTag f.tag

end StructField

/-- The struct declarations of a program. -/
abbrev Types := List (List StructField)

namespace Types

def fields (Γ : Types) (t : ℕ) : List StructField := Γ.getD t []

/-- `s` has an embedded field of type `u` or `*u`. -/
def Embeds (Γ : Types) (s u : ℕ) : Prop := ∃ f ∈ Γ.fields s, f.embeds = some u

/-- No struct reached from `t` by embedding embeds itself, directly or through others. -/
def Acyclic (Γ : Types) (t : ℕ) : Prop :=
  ∀ u, Relation.ReflTransGen Γ.Embeds t u → ¬ Relation.TransGen Γ.Embeds u u

/-- The field at an index path, each index but the last that of an embedded field. -/
def fieldAt (Γ : Types) : ℕ → List ℕ → Option StructField
  | _, [] => none
  | t, [i] => (Γ.fields t)[i]?
  | t, i :: p => ((Γ.fields t)[i]?.bind StructField.embeds).bind fun u ↦ Γ.fieldAt u p

end Types

/-! ### The walk -/

/-- A call of `visit`. -/
structure Visit where
  path : List ℕ
  name : String
  opts : CacheTagOptions

def StructField.visit (f : StructField) (path : List ℕ) : Visit := ⟨path, f.name, f.opts⟩

/-- What is visited below a field; `descend` walks an embedded struct. -/
def StructField.below (descend : ℕ → List ℕ → Option (List Visit)) (f : StructField) (path : List ℕ) :
    Option (List Visit) :=
  match f.embeds with
  | none => some []
  | some u => descend u path

/-- The loop over the fields of a struct from field `i` on. -/
def walkFrom (descend : ℕ → List ℕ → Option (List Visit)) (pre : List ℕ) :
    ℕ → List StructField → Option (List Visit)
  | _, [] => some []
  | i, f :: fs =>
    (f.below descend (pre ++ [i])).bind fun inner ↦
      (walkFrom descend pre (i + 1) fs).map fun rest ↦ f.visit (pre ++ [i]) :: inner ++ rest

def walkStructFields (Γ : Types) : ℕ → ℕ → List ℕ → Option (List Visit)
  | 0, _, _ => none
  | fuel + 1, t, pre => walkFrom (walkStructFields Γ fuel) pre 0 (Γ.fields t)

/-! ### The metadata of a type -/

structure FieldFilter where
  path : List ℕ
  /-- Skip or secret: always zero. -/
  zero : Bool
  omitempty : Bool

structure CacheTypeMeta where
  filters : List FieldFilter
  versioned : Bool
  /-- The visits that the fingerprint is made of. -/
  versionHash : Option (List Visit)
  tagTemplates : List String
  /-- The paths of the fields by name, the latest first. -/
  fieldsByName : List (String × List ℕ)

namespace CacheTypeMeta

def empty : CacheTypeMeta := ⟨[], false, none, [], []⟩

def hasFilters (c : CacheTypeMeta) : Bool := !c.filters.isEmpty

def hasTemplates (c : CacheTypeMeta) : Bool := !c.tagTemplates.isEmpty

end CacheTypeMeta

/-- The filter of a visited field. -/
def Visit.filter (x : Visit) : Option FieldFilter :=
  if x.opts.skip || x.opts.secret then some ⟨x.path, true, false⟩
  else if x.opts.omitempty then some ⟨x.path, false, true⟩
  else none

/-- The body of the callback of `buildMeta`. -/
def CacheTypeMeta.visit (c : CacheTypeMeta) (x : Visit) : CacheTypeMeta :=
  { c with
    filters := c.filters ++ x.filter.toList
    versioned := c.versioned || x.opts.versioned
    tagTemplates := if x.opts.tagTemplate = "" then c.tagTemplates else c.tagTemplates ++ [x.opts.tagTemplate]
    fieldsByName := (x.name, x.path) :: c.fieldsByName }

def computeVersionHash (Γ : Types) (fuel t : ℕ) : Option (List Visit) := walkStructFields Γ fuel t []

def buildMeta (Γ : Types) (fuel t : ℕ) : Option CacheTypeMeta :=
  (walkStructFields Γ fuel t []).bind fun visits ↦
    let c := visits.foldl CacheTypeMeta.visit .empty
    if c.versioned then (computeVersionHash Γ fuel t).map fun h ↦ { c with versionHash := some h } else some c

def metaFor (Γ : Types) (fuel : ℕ) (t : ReflectType) : Option CacheTypeMeta :=
  match t.base with
  | none => some .empty
  | some id => buildMeta Γ fuel id

/-! ### Where the walk returns -/

section Returns

variable {Γ : Types} {descend : ℕ → List ℕ → Option (List Visit)} {pre : List ℕ} {i t u fuel : ℕ}
  {fs : List StructField} {visits : List Visit}

theorem below_of_some {f : StructField} (hf : f.embeds = some u) (path : List ℕ) :
    f.below descend path = descend u path := by
  rw [StructField.below, hf]

theorem below_of_none {f : StructField} (hf : f.embeds = none) (path : List ℕ) :
    f.below descend path = some [] := by
  rw [StructField.below, hf]

/-- One round of the loop. -/
theorem walkFrom_cons (f : StructField) : walkFrom descend pre i (f :: fs) = some visits ↔
    ∃ inner rest, f.below descend (pre ++ [i]) = some inner ∧
      walkFrom descend pre (i + 1) fs = some rest ∧ f.visit (pre ++ [i]) :: inner ++ rest = visits := by
  simp only [walkFrom, Option.bind_eq_some_iff, Option.map_eq_some_iff, exists_and_left]

/-- The loop returns when every descent does. -/
theorem walkFrom_returns (pre : List ℕ) : ∀ (fs : List StructField) (i : ℕ),
    (∀ f ∈ fs, ∀ u, f.embeds = some u → ∀ p, ∃ inner, descend u p = some inner) →
    ∃ visits, walkFrom descend pre i fs = some visits
  | [], _, _ => ⟨[], rfl⟩
  | f :: fs, i, h => by
    obtain ⟨rest, hrest⟩ := walkFrom_returns pre fs (i + 1) fun g hg ↦ h g (List.mem_cons_of_mem _ hg)
    have hinner : ∃ inner, f.below descend (pre ++ [i]) = some inner := by
      cases hf : f.embeds with
      | none => exact ⟨[], below_of_none hf _⟩
      | some u =>
        rw [below_of_some hf]
        exact h f List.mem_cons_self u hf (pre ++ [i])
    obtain ⟨inner, hinner⟩ := hinner
    exact ⟨_, (walkFrom_cons f).2 ⟨inner, rest, hinner, hrest, rfl⟩⟩

/-- When the loop returns, every descent has. -/
theorem descend_returns : ∀ {fs : List StructField} {i : ℕ} {visits : List Visit},
    walkFrom descend pre i fs = some visits → ∀ f ∈ fs, ∀ u, f.embeds = some u →
      ∃ p inner, descend u p = some inner
  | [], _, _, _, f, hf, _, _ => absurd hf List.not_mem_nil
  | f :: fs, i, visits, h, g, hg, u, hu => by
    obtain ⟨inner, rest, hinner, hrest, -⟩ := (walkFrom_cons f).1 h
    rcases List.mem_cons.1 hg with rfl | hg
    · exact ⟨_, inner, (below_of_some hu _).symm.trans hinner⟩
    · exact descend_returns hrest g hg u hu

/-- More fuel changes nothing. -/
theorem walkFrom_mono {descend' : ℕ → List ℕ → Option (List Visit)}
    (h : ∀ u p inner, descend u p = some inner → descend' u p = some inner) :
    ∀ {fs : List StructField} {i : ℕ} {visits : List Visit},
      walkFrom descend pre i fs = some visits → walkFrom descend' pre i fs = some visits
  | [], _, _, hw => hw
  | f :: fs, i, visits, hw => by
    obtain ⟨inner, rest, hinner, hrest, hvisits⟩ := (walkFrom_cons f).1 hw
    refine (walkFrom_cons f).2 ⟨inner, rest, ?_, walkFrom_mono h hrest, hvisits⟩
    cases hf : f.embeds with
    | none =>
      rw [below_of_none hf] at hinner ⊢
      exact hinner
    | some u =>
      rw [below_of_some hf] at hinner ⊢
      exact h u _ _ hinner

theorem walkStructFields_mono : ∀ {fuel fuel' t : ℕ} {pre : List ℕ} {visits : List Visit},
    fuel ≤ fuel' → walkStructFields Γ fuel t pre = some visits →
      walkStructFields Γ fuel' t pre = some visits
  | 0, _, _, _, _, _, h => by cases h
  | fuel + 1, 0, _, _, _, hle, _ => absurd hle (Nat.not_succ_le_zero fuel)
  | fuel + 1, fuel' + 1, _, _, _, hle, h =>
    walkFrom_mono (fun _ _ _ ↦ walkStructFields_mono (Nat.le_of_succ_le_succ hle)) h

/-- Induction on the fuel: a walk that returned was on an accessible struct. -/
theorem acc_of_walk : ∀ {fuel t : ℕ} {pre : List ℕ} {visits : List Visit},
    walkStructFields Γ fuel t pre = some visits → Acc (Function.swap Γ.Embeds) t
  | 0, _, _, _, h => by cases h
  | fuel + 1, t, pre, visits, h => by
    refine ⟨t, fun u ⟨f, hf, hu⟩ ↦ ?_⟩
    obtain ⟨p, inner, hinner⟩ := descend_returns h f hf u hu
    exact acc_of_walk hinner

/-- Enough fuel for each of finitely many walks is enough for all. -/
theorem exists_common_fuel : ∀ fs : List StructField,
    (∀ f ∈ fs, ∀ u, f.embeds = some u → ∃ fuel, ∀ p, ∃ inner, walkStructFields Γ fuel u p = some inner) →
    ∃ fuel, ∀ f ∈ fs, ∀ u, f.embeds = some u → ∀ p, ∃ inner, walkStructFields Γ fuel u p = some inner
  | [], _ => ⟨0, fun _ hf ↦ absurd hf List.not_mem_nil⟩
  | f :: fs, h => by
    obtain ⟨n, hn⟩ := exists_common_fuel fs fun g hg ↦ h g (List.mem_cons_of_mem _ hg)
    have hfirst : ∃ k, ∀ u, f.embeds = some u → ∀ p, ∃ inner, walkStructFields Γ k u p = some inner := by
      cases hf : f.embeds with
      | none => exact ⟨0, fun _ h ↦ by cases h⟩
      | some u =>
        obtain ⟨k, hk⟩ := h f List.mem_cons_self u hf
        exact ⟨k, fun _ h ↦ by cases h; exact hk⟩
    obtain ⟨k, hk⟩ := hfirst
    refine ⟨max n k, fun g hg u hu p ↦ ?_⟩
    rcases List.mem_cons.1 hg with rfl | hg
    · obtain ⟨inner, hinner⟩ := hk u hu p
      exact ⟨inner, walkStructFields_mono (le_max_right n k) hinner⟩
    · obtain ⟨inner, hinner⟩ := hn g hg u hu p
      exact ⟨inner, walkStructFields_mono (le_max_left n k) hinner⟩

theorem walk_of_acc (h : Acc (Function.swap Γ.Embeds) t) :
    ∃ fuel, ∀ p, ∃ visits, walkStructFields Γ fuel t p = some visits := by
  induction h with
  | intro t _ ih =>
    obtain ⟨fuel, hfuel⟩ := exists_common_fuel (Γ.fields t) fun f hf u hu ↦ ih u ⟨f, hf, hu⟩
    exact ⟨fuel + 1, fun p ↦ walkFrom_returns p (Γ.fields t) 0 hfuel⟩

/-- A table names finitely many structs. -/
theorem Types.finite_reached (Γ : Types) (t : ℕ) : {u | Relation.ReflTransGen Γ.Embeds t u}.Finite := by
  have hnamed : (insert t {u | ∃ fs ∈ Γ, ∃ f ∈ fs, f.embeds = some u}).Finite := by
    refine Set.Finite.insert t ((Γ.flatten.filterMap StructField.embeds).finite_toSet.subset ?_)
    rintro u ⟨fs, hfs, f, hf, hu⟩
    exact List.mem_filterMap.2 ⟨f, List.mem_flatten.2 ⟨fs, hfs, hf⟩, hu⟩
  refine hnamed.subset fun u hu ↦ ?_
  rcases Relation.ReflTransGen.cases_tail hu with heq | ⟨s, -, f, hf, hfu⟩
  · exact .inl heq
  · refine .inr ⟨Γ.fields s, ?_, f, hf, hfu⟩
    rw [Types.fields, List.getD_eq_getElem?_getD] at hf ⊢
    cases hs : Γ[s]? with
    | none =>
      rw [hs] at hf
      exact absurd hf List.not_mem_nil
    | some fs => exact List.mem_of_getElem? hs

theorem not_self_of_acc {α : Type*} {r : α → α → Prop} {a : α} (h : Acc r a) : ¬ r a a := by
  induction h with
  | intro a _ ih => exact fun hself ↦ ih a hself hself

/-- In a finite table the descents from a struct end unless one of them comes back. -/
theorem Types.acc_iff : Acc (Function.swap Γ.Embeds) t ↔ Γ.Acyclic t := by
  constructor
  · intro h u hu hcycle
    have hacc : Acc (Function.swap Γ.Embeds) u := by
      rcases Relation.reflTransGen_iff_eq_or_transGen.1 hu with rfl | hpath
      · exact h
      · exact h.inv_of_transGen (Relation.transGen_swap.2 hpath)
    exact not_self_of_acc hacc.transGen (Relation.transGen_swap.2 hcycle)
  · intro h
    -- on the structs reached, coming later is transitive and irreflexive, so it is well founded
    let Later (w u : {u // Relation.ReflTransGen Γ.Embeds t u}) : Prop := Relation.TransGen Γ.Embeds u.1 w.1
    have : Finite {u // Relation.ReflTransGen Γ.Embeds t u} := Γ.finite_reached t
    have : IsTrans _ Later := ⟨fun _ _ _ hab hbc ↦ hbc.trans hab⟩
    have : Std.Irrefl Later := ⟨fun u ↦ h u.1 u.2⟩
    have hwf : WellFounded Later := Finite.wellFounded_of_trans_of_irrefl Later
    have hall (u : {u // Relation.ReflTransGen Γ.Embeds t u}) : Acc (Function.swap Γ.Embeds) u.1 := by
      induction u using hwf.induction with
      | h u ih => exact ⟨u.1, fun w hw ↦ ih ⟨w, u.2.tail hw⟩ (.single hw)⟩
    exact hall ⟨t, .refl⟩

/-- **The walk returns exactly when no struct on its way embeds itself.** -/
theorem walk_returns_iff :
    (∃ fuel visits, walkStructFields Γ fuel t pre = some visits) ↔ Γ.Acyclic t := by
  rw [← Types.acc_iff]
  constructor
  · rintro ⟨fuel, visits, h⟩
    exact acc_of_walk h
  · intro h
    obtain ⟨fuel, hfuel⟩ := walk_of_acc h
    exact ⟨fuel, hfuel pre⟩

theorem buildMeta_returns : (∃ c, buildMeta Γ fuel t = some c) ↔
    ∃ visits, walkStructFields Γ fuel t [] = some visits := by
  rw [buildMeta, computeVersionHash]
  cases walkStructFields Γ fuel t [] with
  | none => simp only [Option.bind_none, reduceCtorEq, exists_false]
  | some visits =>
    refine iff_of_true ?_ ⟨visits, rfl⟩
    simp only [Option.bind_some, Option.map_some]
    split
    · exact ⟨_, rfl⟩
    · exact ⟨_, rfl⟩

end Returns

/-! ### What the walk visits -/

section Visits

variable {Γ : Types} {descend : ℕ → List ℕ → Option (List Visit)} {pre p q : List ℕ} {i t fuel : ℕ}
  {fs : List StructField} {visits : List Visit} {x : Visit}

theorem Types.fieldAt_cons_cons (Γ : Types) (t i j : ℕ) (p : List ℕ) : Γ.fieldAt t (i :: j :: p) =
    ((Γ.fields t)[i]?.bind StructField.embeds).bind fun u ↦ Γ.fieldAt u (j :: p) := rfl

/-- What the loop visits, if a descent visits what it should: a field of the loop, or one below it. -/
theorem mem_walkFrom (hdescend : ∀ u p inner, descend u p = some inner → ∀ x, x ∈ inner ↔
      ∃ q f, Γ.fieldAt u q = some f ∧ x = f.visit (p ++ q)) :
    ∀ {fs : List StructField} {i : ℕ} {visits : List Visit}, walkFrom descend pre i fs = some visits →
      ∀ x, x ∈ visits ↔ ∃ k g, fs[k]? = some g ∧ (x = g.visit (pre ++ [i + k]) ∨
        ∃ u q f, g.embeds = some u ∧ Γ.fieldAt u q = some f ∧ x = f.visit (pre ++ [i + k] ++ q))
  | [], i, visits, h, x => by
    cases h
    exact iff_of_false List.not_mem_nil fun ⟨k, g, hg, _⟩ ↦ by cases hg
  | f :: fs, i, visits, h, x => by
    obtain ⟨inner, rest, hinner, hrest, rfl⟩ := (walkFrom_cons f).1 h
    have hbelow : x ∈ inner ↔ ∃ u q g, f.embeds = some u ∧ Γ.fieldAt u q = some g ∧
        x = g.visit (pre ++ [i] ++ q) := by
      cases hf : f.embeds with
      | none =>
        rw [below_of_none hf] at hinner
        cases hinner
        exact iff_of_false List.not_mem_nil fun ⟨u, q, g, hu, _⟩ ↦ by cases hu
      | some u =>
        rw [below_of_some hf] at hinner
        rw [hdescend u _ inner hinner x]
        constructor
        · rintro ⟨q, g, hg, hx⟩
          exact ⟨u, q, g, rfl, hg, hx⟩
        · rintro ⟨_, q, g, hu, hg, hx⟩
          cases hu
          exact ⟨q, g, hg, hx⟩
    rw [List.cons_append, List.mem_cons, List.mem_append, hbelow,
      mem_walkFrom hdescend hrest x]
    constructor
    · rintro (rfl | hx | ⟨k, g, hg, hx⟩)
      · exact ⟨0, f, rfl, .inl rfl⟩
      · exact ⟨0, f, rfl, .inr hx⟩
      · exact ⟨k + 1, g, hg, by rwa [Nat.add_right_comm i 1 k] at hx⟩
    · rintro ⟨k, g, hg, hx⟩
      cases k with
      | zero =>
        cases hg
        exact hx.elim .inl fun hx ↦ .inr (.inl hx)
      | succ k => exact .inr (.inr ⟨k, g, hg, by rwa [Nat.add_right_comm i 1 k]⟩)

/-- **The walk visits exactly the fields that paths of embedded fields lead to.** -/
theorem mem_walk : ∀ {fuel t : ℕ} {pre : List ℕ} {visits : List Visit},
    walkStructFields Γ fuel t pre = some visits → ∀ x, x ∈ visits ↔
      ∃ q f, Γ.fieldAt t q = some f ∧ x = f.visit (pre ++ q)
  | 0, _, _, _, h, _ => by cases h
  | fuel + 1, t, pre, visits, h, x => by
    rw [mem_walkFrom (fun _ _ _ ↦ mem_walk) h x]
    constructor
    · rintro ⟨k, g, hg, hx | ⟨u, q, f, hu, hf, hx⟩⟩
      · exact ⟨[k], g, hg, by rw [hx, Nat.zero_add]⟩
      · cases q with
        | nil => cases hf
        | cons j q =>
          refine ⟨k :: j :: q, f, ?_, by rw [hx, Nat.zero_add, List.append_assoc]; rfl⟩
          rw [Types.fieldAt_cons_cons, hg, Option.bind_some, hu]
          exact hf
    · rintro ⟨q, f, hf, hx⟩
      rcases q with - | ⟨k, - | ⟨j, q⟩⟩
      · cases hf
      · exact ⟨k, f, hf, .inl (by rw [hx, Nat.zero_add])⟩
      · rw [Types.fieldAt_cons_cons, Option.bind_eq_some_iff] at hf
        obtain ⟨u, hu, hf⟩ := hf
        obtain ⟨g, hg, hu⟩ := Option.bind_eq_some_iff.1 hu
        exact ⟨k, g, hg, .inr ⟨u, j :: q, f, hu, hf, by rw [hx, Nat.zero_add, List.append_assoc]; rfl⟩⟩

/-- Every visit of the loop is at or below one of its fields. -/
theorem exists_path_of_mem_walkFrom (h : walkFrom (walkStructFields Γ fuel) pre i fs = some visits)
    (hx : x ∈ visits) : ∃ k q, x.path = pre ++ (i + k) :: q := by
  obtain ⟨k, g, -, rfl | ⟨-, q, f, -, -, rfl⟩⟩ := (mem_walkFrom (fun _ _ _ ↦ mem_walk) h x).1 hx
  · exact ⟨k, [], rfl⟩
  · exact ⟨k, q, by rw [List.append_assoc]; rfl⟩

theorem eq_of_append_cons_isPrefix {j : ℕ} (h : pre ++ j :: q <+: pre ++ i :: p) : j = i :=
  (List.cons_prefix_cons.1 ((List.prefix_append_right_inj pre).1 h)).1

/-- A field is visited before the fields below it: no later path is a prefix of an earlier one. -/
theorem walkFrom_order (hdescend : ∀ u p inner, walkStructFields Γ fuel u p = some inner →
      inner.Pairwise fun x y ↦ ¬ y.path <+: x.path) :
    ∀ {fs : List StructField} {i : ℕ} {visits : List Visit},
      walkFrom (walkStructFields Γ fuel) pre i fs = some visits →
      visits.Pairwise fun x y ↦ ¬ y.path <+: x.path
  | [], _, _, h => by
    cases h
    exact List.Pairwise.nil
  | f :: fs, i, visits, h => by
    obtain ⟨inner, rest, hinner, hrest, rfl⟩ := (walkFrom_cons f).1 h
    have hbelow : (inner.Pairwise fun x y ↦ ¬ y.path <+: x.path) ∧
        ∀ x ∈ inner, ∃ j q, x.path = pre ++ i :: j :: q := by
      cases hf : f.embeds with
      | none =>
        rw [below_of_none hf] at hinner
        cases hinner
        exact ⟨List.Pairwise.nil, fun _ hx ↦ absurd hx List.not_mem_nil⟩
      | some u =>
        rw [below_of_some hf] at hinner
        refine ⟨hdescend u _ inner hinner, fun x hx ↦ ?_⟩
        obtain ⟨q, g, hg, rfl⟩ := (mem_walk hinner x).1 hx
        rcases q with - | ⟨j, q⟩
        · cases hg
        · exact ⟨j, q, by rw [StructField.visit, List.append_assoc]; rfl⟩
    -- a field of a later round differs from this one already in the index of the round
    have hlater (y : Visit) (hy : y ∈ rest) (p : List ℕ) : ¬ y.path <+: pre ++ i :: p := by
      obtain ⟨k, q, hk⟩ := exists_path_of_mem_walkFrom hrest hy
      rw [hk]
      intro hpre
      have := eq_of_append_cons_isPrefix hpre
      omega
    rw [List.cons_append, List.pairwise_cons, List.pairwise_append]
    refine ⟨fun y hy ↦ ?_, hbelow.1, walkFrom_order hdescend hrest, fun x hx y hy ↦ ?_⟩
    · rcases List.mem_append.1 hy with hy | hy
      · obtain ⟨j, q, hj⟩ := hbelow.2 y hy
        rw [hj]
        intro hpre
        have hlen := hpre.length_le
        simp only [StructField.visit, List.length_append, List.length_cons, List.length_nil] at hlen
        omega
      · exact hlater y hy []
    · obtain ⟨j, q, hj⟩ := hbelow.2 x hx
      rw [hj]
      exact hlater y hy (j :: q)

theorem walk_order : ∀ {fuel t : ℕ} {pre : List ℕ} {visits : List Visit},
    walkStructFields Γ fuel t pre = some visits → visits.Pairwise fun x y ↦ ¬ y.path <+: x.path
  | 0, _, _, _, h => by cases h
  | _ + 1, _, _, _, h => walkFrom_order (fun _ _ _ ↦ walk_order) h

/-- The filters of a type are those of the visited fields. -/
theorem filters_foldl_visit : ∀ (visits : List Visit) (c : CacheTypeMeta),
    (visits.foldl CacheTypeMeta.visit c).filters = c.filters ++ visits.filterMap Visit.filter
  | [], c => (List.append_nil _).symm
  | x :: visits, c => by
    rw [List.foldl_cons, filters_foldl_visit visits, List.filterMap_cons]
    change c.filters ++ x.filter.toList ++ _ = _
    cases x.filter with
    | none => rw [Option.toList_none, List.append_nil]
    | some f => rw [Option.toList_some, List.append_assoc]; rfl

theorem filters_buildMeta {c : CacheTypeMeta} (h : buildMeta Γ fuel t = some c) :
    ∃ visits, walkStructFields Γ fuel t [] = some visits ∧ c.filters = visits.filterMap Visit.filter := by
  rw [buildMeta, Option.bind_eq_some_iff] at h
  obtain ⟨visits, hvisits, h⟩ := h
  refine ⟨visits, hvisits, ?_⟩
  have hfilters := filters_foldl_visit visits .empty
  simp only [computeVersionHash, hvisits, Option.map_some] at h
  split at h
  · cases h
    exact hfilters
  · cases h
    exact hfilters

end Visits

/-- **Which types have metadata.** For a struct type, the walk over its fields returns, and so does
`metaFor` on it, exactly when no struct type that is reached by embedding, also through pointers, embeds
itself directly or through others. -/
theorem metaFor_returns_iff (Γ : Types) (t : ℕ) :
    ((∃ fuel visits, walkStructFields Γ fuel t [] = some visits) ↔ Γ.Acyclic t) ∧
      ((∃ fuel c, metaFor Γ fuel (.struct t) = some c) ↔ Γ.Acyclic t) := by
  have hwalk : (∃ fuel visits, walkStructFields Γ fuel t [] = some visits) ↔ Γ.Acyclic t :=
    walk_returns_iff
  exact ⟨hwalk, (exists_congr fun _ ↦ buildMeta_returns).trans hwalk⟩

/-- `type T struct { *T }` -/
def selfEmbedding : Types := [[⟨"T", "", true, true, .pointer (.struct 0)⟩]]

/-- A struct that embeds a pointer to itself is walked for ever. -/
theorem walkStructFields_selfEmbedding :
    ¬ (∃ fuel visits, walkStructFields selfEmbedding fuel 0 [] = some visits) ∧
      ¬ ∃ fuel c, metaFor selfEmbedding fuel (.struct 0) = some c := by
  have hembeds : selfEmbedding.Embeds 0 0 := ⟨_, List.mem_cons_self, rfl⟩
  have hcyclic : ¬ selfEmbedding.Acyclic 0 := fun h ↦ h 0 .refl (.single hembeds)
  refine ⟨fun h ↦ hcyclic (walk_returns_iff.1 h), fun ⟨fuel, c, h⟩ ↦ hcyclic ?_⟩
  obtain ⟨visits, hvisits⟩ := buildMeta_returns.1 ⟨c, h⟩
  exact walk_returns_iff.1 ⟨fuel, visits, hvisits⟩

end Memcache

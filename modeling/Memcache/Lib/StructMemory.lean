import Mathlib.Data.List.Infix
import Mathlib.Tactic.Common

/-!
# A memory of structs and pointers

A cell holds a struct, whose fields may be structs in turn, so that a location is a cell and a path of
field indices. A struct is given by its scalars: what lies at a location is everything at the locations
below it. Pointers lead to locations, also into the middle of a struct, and never out of the memory
(`Memory.closed`).

`fieldByIndex` follows a path of indices from a struct, through the pointers it meets on its way. It is
`InPlace` when it meets none. `wipeAll` sets the fields at a list of paths to zero, one after the other.

On a shallow copy of a struct this may change the original: what lies behind a pointer is shared.
`wipeAll_unchanged_iff` says exactly when it does not, and `zeroAt_wipeAll` that the fields of the copy
are zero in either case. Both rest on `Wiped`: a run of wipes turns scalars into zero and does nothing
else, so that a path leads later to where it led before or nowhere.
-/

namespace StructMemory

structure Loc where
  cell : ℕ
  path : List ℕ
  deriving DecidableEq

namespace Loc

/-- What lies below a location. -/
def sub (l : Loc) (q : List ℕ) : Loc := ⟨l.cell, l.path ++ q⟩

def field (l : Loc) (i : ℕ) : Loc := l.sub [i]

/-- `k` lies at or below `l`. -/
def Within (l k : Loc) : Prop := l.cell = k.cell ∧ l.path <+: k.path

instance (l k : Loc) : Decidable (l.Within k) := inferInstanceAs (Decidable (_ ∧ _))

variable {l k : Loc}

@[simp] theorem sub_nil (l : Loc) : l.sub [] = l := by rw [sub, List.append_nil]

theorem sub_sub (l : Loc) (p q : List ℕ) : (l.sub p).sub q = l.sub (p ++ q) := by
  rw [sub, sub, sub, List.append_assoc]

theorem field_sub (l : Loc) (i : ℕ) (p : List ℕ) : (l.field i).sub p = l.sub (i :: p) := sub_sub l [i] p

theorem within_iff : l.Within k ↔ ∃ q, k = l.sub q := by
  constructor
  · rintro ⟨hcell, q, hq⟩
    exact ⟨q, by rw [sub, hcell, hq]⟩
  · rintro ⟨q, rfl⟩
    exact ⟨rfl, List.prefix_append ..⟩

end Loc

/-- What a field that is no struct holds: a pointer, or a plain value, of which `0` is the zero value. -/
inductive Scalar where
  | plain (n : ℕ)
  | pointer (tgt : Option Loc)
  deriving DecidableEq

namespace Scalar

def zero : Scalar → Scalar
  | .plain _ => .plain 0
  | .pointer _ => .pointer none

@[simp] theorem zero_zero (s : Scalar) : s.zero.zero = s.zero := by cases s <;> rfl

end Scalar

structure Memory where
  load : Loc → Option Scalar
  /-- The cells from here on are free. -/
  next : ℕ
  closed : ∀ l tgt, load l = some (.pointer (some tgt)) → tgt.cell < next

namespace Memory

/-- A copy, in a new cell, of the struct at `a`. -/
def clone (m : Memory) (a : Loc) : Memory where
  load l := if l.cell = m.next then m.load (a.sub l.path) else m.load l
  next := m.next + 1
  closed l tgt h := by
    refine Nat.lt_succ_of_lt ?_
    split at h
    · exact m.closed _ tgt h
    · exact m.closed _ tgt h

/-- Set what lies at `l` to zero. -/
def zero (m : Memory) (l : Loc) : Memory where
  load k := if l.Within k then (m.load k).map Scalar.zero else m.load k
  next := m.next
  closed k tgt h := by
    split at h
    · obtain ⟨s, -, hs⟩ := Option.map_eq_some_iff.1 h
      cases s <;> cases hs
    · exact m.closed k tgt h

/-- The struct at a location, or behind the pointer that is there; none behind a nil pointer. -/
def deref (m : Memory) (l : Loc) : Option Loc :=
  match m.load l with
  | some (.pointer tgt) => tgt
  | _ => some l

/-- The field at a path of indices below a field. -/
def land (m : Memory) : Loc → List ℕ → Option Loc
  | l, [] => some l
  | l, i :: p => (m.deref l).bind fun k ↦ m.land (k.field i) p

/-- The field at a path of indices of a struct, none if it is behind a nil pointer. -/
def fieldByIndex (m : Memory) (l : Loc) : List ℕ → Option Loc
  | [] => some l
  | i :: p => m.land (l.field i) p

/-- Set the field at a path to zero, if there is one. -/
def wipe (l : Loc) (m : Memory) (p : List ℕ) : Memory :=
  match m.fieldByIndex l p with
  | none => m
  | some k => m.zero k

def wipeAll (l : Loc) (m : Memory) (ps : List (List ℕ)) : Memory := ps.foldl (wipe l) m

/-- All scalars at `l` are zero. -/
def ZeroAt (m : Memory) (l : Loc) : Prop := ∀ q s, m.load (l.sub q) = some s → s.zero = s

/-- No pointer is met at a field or on a path below it. -/
def InPlaceFrom (m : Memory) : Loc → List ℕ → Prop
  | _, [] => True
  | l, i :: p => (∀ tgt, m.load l ≠ some (.pointer tgt)) ∧ m.InPlaceFrom (l.field i) p

/-- No pointer is met on a path of a struct. -/
def InPlace (m : Memory) (l : Loc) : List ℕ → Prop
  | [] => True
  | i :: p => m.InPlaceFrom (l.field i) p

/-- What can be reached from the struct at `a`. -/
inductive Reaches (m : Memory) (a : Loc) : Loc → Prop
  | within (q : List ℕ) : Reaches m a (a.sub q)
  | through {l b : Loc} (q : List ℕ) : Reaches m a l → m.load l = some (.pointer (some b)) →
      Reaches m a (b.sub q)

variable {m m' : Memory} {a k l root : Loc} {i n : ℕ} {p q r s : List ℕ}

/-! ### Following a path -/

theorem deref_of_pointer {tgt : Option Loc} (h : m.load l = some (.pointer tgt)) : m.deref l = tgt := by
  rw [deref, h]

theorem deref_of_not_pointer (h : ∀ tgt, m.load l ≠ some (.pointer tgt)) : m.deref l = some l := by
  rw [deref]
  split
  · exact absurd ‹_› (h _)
  · rfl

theorem land_cons (m : Memory) (l : Loc) (i : ℕ) (p : List ℕ) :
    m.land l (i :: p) = (m.deref l).bind fun k ↦ m.land (k.field i) p := rfl

theorem land_append : ∀ (p : List ℕ) (l : Loc), m.land l (p ++ q) = (m.land l p).bind fun k ↦ m.land k q
  | [], _ => rfl
  | i :: p, l => by
    rw [List.cons_append, land_cons, land_cons, Option.bind_assoc]
    exact congrArg _ (funext fun k ↦ land_append p (k.field i))

theorem land_of_inPlaceFrom : ∀ {p : List ℕ} {l : Loc}, m.InPlaceFrom l p → m.land l p = some (l.sub p)
  | [], l, _ => by rw [Loc.sub_nil]; rfl
  | i :: p, l, h => by
    rw [land_cons, deref_of_not_pointer h.1, Option.bind_some, land_of_inPlaceFrom h.2, Loc.field_sub]

theorem fieldByIndex_of_inPlace (h : m.InPlace l p) : m.fieldByIndex l p = some (l.sub p) := by
  cases p with
  | nil => rw [Loc.sub_nil]; rfl
  | cons i p => exact (land_of_inPlaceFrom h).trans (by rw [Loc.field_sub])

theorem ZeroAt.sub (h : m.ZeroAt l) (q : List ℕ) : m.ZeroAt (l.sub q) := fun r s hs ↦
  h (q ++ r) s (by rwa [Loc.sub_sub] at hs)

/-- Below a zero field all pointers are nil. -/
theorem ZeroAt.land : ∀ {p : List ℕ} {l : Loc}, m.ZeroAt l → m.land l p = some k → k = l.sub p
  | [], l, _, h => by
    rw [Loc.sub_nil]
    exact (Option.some.inj h).symm
  | i :: p, l, hz, h => by
    rw [land_cons, Option.bind_eq_some_iff] at h
    obtain ⟨b, hb, h⟩ := h
    by_cases hp : ∃ tgt, m.load l = some (.pointer tgt)
    · obtain ⟨tgt, htgt⟩ := hp
      have hnil := hz [] _ (by rwa [Loc.sub_nil])
      rw [deref_of_pointer htgt] at hb
      subst hb
      cases hnil
    · rw [deref_of_not_pointer (not_exists.1 hp)] at hb
      cases hb
      exact ((hz.sub [i]).land h).trans (Loc.field_sub l i p)

/-- A path that goes on below a zero field stays there. -/
theorem ZeroAt.fieldByIndex_append (hq : m.InPlace l q) (hz : m.ZeroAt (l.sub q))
    (h : m.fieldByIndex l (q ++ s) = some k) : k.cell = l.cell := by
  cases q with
  | nil =>
    rw [Loc.sub_nil] at hz
    cases s with
    | nil => exact congrArg Loc.cell (Option.some.inj h).symm
    | cons i s =>
      rw [(hz.sub [i]).land h]
      rfl
  | cons i q =>
    change m.land (l.field i) (q ++ s) = some k at h
    rw [land_append, land_of_inPlaceFrom hq, Option.bind_some, Loc.field_sub] at h
    rw [hz.land h]
    rfl

/-- If no pointer leads into a cell, a path ends in its own cell only when it met none. -/
theorem cell_land (hn : ∀ l tgt, m.load l = some (.pointer (some tgt)) → tgt.cell ≠ n) :
    ∀ {p : List ℕ} {l : Loc}, m.land l p = some k → m.InPlaceFrom l p ∨ k.cell ≠ n
  | [], _, _ => .inl trivial
  | i :: p, l, h => by
    rw [land_cons, Option.bind_eq_some_iff] at h
    obtain ⟨b, hb, h⟩ := h
    by_cases hp : ∃ tgt, m.load l = some (.pointer tgt)
    · obtain ⟨tgt, htgt⟩ := hp
      rw [deref_of_pointer htgt] at hb
      subst hb
      rcases cell_land hn h with hin | hout
      · rw [land_of_inPlaceFrom hin] at h
        cases h
        exact .inr (hn l b htgt)
      · exact .inr hout
    · rw [deref_of_not_pointer (not_exists.1 hp)] at hb
      cases hb
      exact (cell_land hn h).imp_left fun hin ↦ ⟨not_exists.1 hp, hin⟩

theorem cell_fieldByIndex (hn : ∀ l tgt, m.load l = some (.pointer (some tgt)) → tgt.cell ≠ n)
    (h : m.fieldByIndex l p = some k) : m.InPlace l p ∨ k.cell ≠ n := by
  cases p with
  | nil => exact .inl trivial
  | cons i p => exact cell_land hn h

/-! ### Wiping -/

theorem load_zero_of_within (h : l.Within k) : (m.zero l).load k = (m.load k).map Scalar.zero := if_pos h

theorem load_zero_of_not_within (h : ¬ l.Within k) : (m.zero l).load k = m.load k := if_neg h

theorem zeroAt_zero (m : Memory) (l : Loc) : (m.zero l).ZeroAt l := by
  intro q s hs
  rw [load_zero_of_within (Loc.within_iff.2 ⟨q, rfl⟩)] at hs
  obtain ⟨s, -, rfl⟩ := Option.map_eq_some_iff.1 hs
  exact s.zero_zero

/-- What is zero already is not changed. -/
theorem ZeroAt.load_zero (h : m.ZeroAt l) (k : Loc) : (m.zero l).load k = m.load k := by
  by_cases hk : l.Within k
  · rw [load_zero_of_within hk]
    obtain ⟨q, rfl⟩ := Loc.within_iff.1 hk
    cases hload : m.load (l.sub q) with
    | none => rfl
    | some s => rw [Option.map_some, h q s hload]
  · exact load_zero_of_not_within hk

/-- `m'` is `m` with some scalars set to zero. -/
def Wiped (m m' : Memory) : Prop :=
  ∀ l, m'.load l = m.load l ∨ m'.load l = (m.load l).map Scalar.zero

namespace Wiped

theorem refl (m : Memory) : Wiped m m := fun _ ↦ .inl rfl

theorem trans {m'' : Memory} (h : Wiped m m') (h' : Wiped m' m'') : Wiped m m'' := by
  intro l
  rcases h l with hl | hl <;> rcases h' l with hl' | hl'
  · exact .inl (hl'.trans hl)
  · exact .inr (by rw [hl', hl])
  · exact .inr (hl'.trans hl)
  · refine .inr ?_
    rw [hl', hl, Option.map_map]
    exact congrArg (Option.map · (m.load l)) (funext Scalar.zero_zero)

theorem zero (m : Memory) (l : Loc) : Wiped m (m.zero l) := by
  intro k
  by_cases hk : l.Within k
  · exact .inr (load_zero_of_within hk)
  · exact .inl (load_zero_of_not_within hk)

theorem wipe (l : Loc) (m : Memory) (p : List ℕ) : Wiped m (m.wipe l p) := by
  rw [Memory.wipe]
  split
  · exact refl m
  · exact zero m _

theorem wipeAll (l : Loc) : ∀ (ps : List (List ℕ)) (m : Memory), Wiped m (m.wipeAll l ps)
  | [], m => refl m
  | p :: ps, m => (wipe l m p).trans (wipeAll l ps (m.wipe l p))

variable (h : Wiped m m')
include h

theorem zeroAt (hz : m.ZeroAt l) : m'.ZeroAt l := by
  intro q s hs
  rcases h (l.sub q) with heq | heq
  · exact hz q s (heq ▸ hs)
  · rw [heq] at hs
    obtain ⟨s, -, rfl⟩ := Option.map_eq_some_iff.1 hs
    exact s.zero_zero

/-- A pointer that is left was there. -/
theorem pointer_some (hl : m'.load l = some (.pointer (some k))) : m.load l = some (.pointer (some k)) := by
  rcases h l with heq | heq
  · exact heq ▸ hl
  · rw [heq] at hl
    obtain ⟨s, -, hs⟩ := Option.map_eq_some_iff.1 hl
    cases s <;> cases hs

/-- A pointer field stays one. -/
theorem pointer_iff (l : Loc) :
    (∃ tgt, m'.load l = some (.pointer tgt)) ↔ ∃ tgt, m.load l = some (.pointer tgt) := by
  rcases h l with heq | heq
  · rw [heq]
  · rw [heq]
    constructor
    · rintro ⟨tgt, htgt⟩
      obtain ⟨s, hs, hzero⟩ := Option.map_eq_some_iff.1 htgt
      cases s with
      | plain n => cases hzero
      | pointer tgt => exact ⟨tgt, hs⟩
    · rintro ⟨tgt, htgt⟩
      exact ⟨none, by rw [htgt]; rfl⟩

theorem inPlaceFrom_iff : ∀ {p : List ℕ} {l : Loc}, m'.InPlaceFrom l p ↔ m.InPlaceFrom l p
  | [], _ => Iff.rfl
  | i :: p, l => by
    refine and_congr ?_ inPlaceFrom_iff
    rw [← not_exists, ← not_exists, h.pointer_iff]

theorem inPlace_iff : m'.InPlace l p ↔ m.InPlace l p := by
  cases p with
  | nil => exact Iff.rfl
  | cons i p => exact h.inPlaceFrom_iff

theorem deref (hd : m'.deref l = some k) : m.deref l = some k := by
  by_cases hp : ∃ tgt, m'.load l = some (.pointer tgt)
  · obtain ⟨tgt, htgt⟩ := hp
    rw [deref_of_pointer htgt] at hd
    subst hd
    exact deref_of_pointer (h.pointer_some htgt)
  · rw [deref_of_not_pointer (not_exists.1 hp)] at hd
    rw [h.pointer_iff] at hp
    rwa [deref_of_not_pointer (not_exists.1 hp)]

/-- A path leads to where it led before, or nowhere. -/
theorem land : ∀ {p : List ℕ} {l : Loc}, m'.land l p = some k → m.land l p = some k
  | [], _, hl => hl
  | i :: p, l, hl => by
    rw [land_cons, Option.bind_eq_some_iff] at hl ⊢
    obtain ⟨b, hb, hl⟩ := hl
    exact ⟨b, h.deref hb, land hl⟩

theorem fieldByIndex (hp : m'.fieldByIndex l p = some k) : m.fieldByIndex l p = some k := by
  cases p with
  | nil => exact hp
  | cons i p => exact h.land hp

end Wiped

/-- **The fields at the paths are zero in the end**, as far as the paths still lead to one. -/
theorem zeroAt_wipeAll : ∀ {ps : List (List ℕ)} {m : Memory}, p ∈ ps →
    (m.wipeAll root ps).fieldByIndex root p = some k → (m.wipeAll root ps).ZeroAt k
  | q :: ps, m, hp, hk => by
    rcases List.mem_cons.1 hp with rfl | hp
    · have hlater := Wiped.wipeAll root ps (m.wipe root p)
      have hnow : m.fieldByIndex root p = some k := ((Wiped.wipe root m p).trans hlater).fieldByIndex hk
      have hzero : (m.wipe root p).ZeroAt k := by
        rw [wipe, hnow]
        exact zeroAt_zero m k
      exact hlater.zeroAt hzero
    · change ((m.wipe root q).wipeAll root ps).ZeroAt k
      exact zeroAt_wipeAll hp hk

/-! ### A shallow copy -/

/-- Where the copy is. -/
def cloneRoot (m : Memory) : Loc := ⟨m.next, []⟩

theorem load_clone_sub (m : Memory) (a : Loc) (r : List ℕ) :
    (m.clone a).load (m.cloneRoot.sub r) = m.load (a.sub r) := if_pos rfl

theorem load_clone_of_ne (h : l.cell ≠ m.next) : (m.clone a).load l = m.load l := if_neg h

/-- No pointer leads into the copy. -/
theorem pointer_clone_ne (m : Memory) (a l tgt : Loc)
    (h : (m.clone a).load l = some (.pointer (some tgt))) : tgt.cell ≠ m.next := by
  by_cases hl : l.cell = m.next
  · have hsub : l = m.cloneRoot.sub l.path := by
      rw [cloneRoot, ← hl]
      rfl
    rw [hsub, load_clone_sub] at h
    exact (m.closed _ tgt h).ne
  · rw [load_clone_of_ne hl] at h
    exact (m.closed _ tgt h).ne

theorem inPlaceFrom_clone : ∀ {p r : List ℕ},
    (m.clone a).InPlaceFrom (m.cloneRoot.sub r) p ↔ m.InPlaceFrom (a.sub r) p
  | [], _ => Iff.rfl
  | i :: p, r => by
    refine and_congr (by rw [load_clone_sub]) ?_
    rw [Loc.field, Loc.field, Loc.sub_sub, Loc.sub_sub]
    exact inPlaceFrom_clone

theorem inPlace_clone : (m.clone a).InPlace m.cloneRoot p ↔ m.InPlace a p := by
  cases p with
  | nil => exact Iff.rfl
  | cons i p => exact inPlaceFrom_clone

/-- Outside of the copy a path leads to where it led. -/
theorem land_clone_of_ne : ∀ {p : List ℕ} {l : Loc}, l.cell ≠ m.next →
    (m.clone a).land l p = m.land l p
  | [], _, _ => rfl
  | i :: p, l, hl => by
    have hload : (m.clone a).load l = m.load l := load_clone_of_ne hl
    have hderef : (m.clone a).deref l = m.deref l := by rw [deref, deref, hload]
    rw [land_cons, land_cons, hderef]
    cases hd : m.deref l with
    | none => rfl
    | some b =>
      rw [Option.bind_some, Option.bind_some]
      refine land_clone_of_ne (show b.cell ≠ m.next from ?_)
      by_cases hp : ∃ tgt, m.load l = some (.pointer tgt)
      · obtain ⟨tgt, htgt⟩ := hp
        rw [deref_of_pointer htgt] at hd
        subst hd
        exact (m.closed l b htgt).ne
      · rw [deref_of_not_pointer (not_exists.1 hp)] at hd
        cases hd
        exact hl

/-- From its first pointer on, a path in the copy is the path in the original. -/
theorem land_clone : ∀ {p r : List ℕ}, ¬ m.InPlaceFrom (a.sub r) p →
    (m.clone a).land (m.cloneRoot.sub r) p = m.land (a.sub r) p
  | [], _, h => absurd trivial h
  | i :: p, r, h => by
    have hload := load_clone_sub m a r
    rw [land_cons, land_cons]
    by_cases hp : ∃ tgt, m.load (a.sub r) = some (.pointer tgt)
    · obtain ⟨tgt, htgt⟩ := hp
      rw [deref_of_pointer htgt, deref_of_pointer (hload.trans htgt)]
      cases tgt with
      | none => rfl
      | some b => exact land_clone_of_ne (m.closed _ b htgt).ne
    · have hnot := not_exists.1 hp
      rw [deref_of_not_pointer hnot, deref_of_not_pointer (hload ▸ hnot), Option.bind_some, Option.bind_some,
        Loc.field, Loc.field, Loc.sub_sub, Loc.sub_sub]
      refine land_clone fun hin ↦ h ⟨hnot, ?_⟩
      rw [Loc.field, Loc.sub_sub]
      exact hin

theorem fieldByIndex_clone (h : ¬ m.InPlace a p) :
    (m.clone a).fieldByIndex m.cloneRoot p = m.fieldByIndex a p := by
  cases p with
  | nil => exact absurd trivial h
  | cons i p => exact land_clone h

/-! ### Wiping a shallow copy -/

section Copy

variable {ps done rest : List (List ℕ)}

/-- What has become of the copy when the fields at the paths `done` are wiped. -/
structure Progress (m : Memory) (a : Loc) (done : List (List ℕ)) (m' : Memory) : Prop where
  wiped : Wiped (m.clone a) m'
  own : ∀ r, m'.load (m.cloneRoot.sub r) = m.load (a.sub r) ∨ ∃ q ∈ done, m.InPlace a q ∧ q <+: r
  zeroed : ∀ q ∈ done, m.InPlace a q → m'.ZeroAt (m.cloneRoot.sub q)

theorem Progress.clone (m : Memory) (a : Loc) : Progress m a [] (m.clone a) :=
  ⟨.refl _, fun r ↦ .inl (load_clone_sub m a r), fun _ hq ↦ absurd hq List.not_mem_nil⟩

namespace Progress

variable (h : Progress m a done m')
include h

theorem inPlace_iff : m'.InPlace m.cloneRoot p ↔ m.InPlace a p := h.wiped.inPlace_iff.trans inPlace_clone

/-- A wipe is in the copy, at the path itself, or outside of it. -/
theorem cell_fieldByIndex (hk : m'.fieldByIndex m.cloneRoot p = some k) :
    m.InPlace a p ∧ k = m.cloneRoot.sub p ∨ ¬ m.InPlace a p ∧ k.cell ≠ m.next := by
  have hn (l tgt : Loc) (hl : m'.load l = some (.pointer (some tgt))) : tgt.cell ≠ m.next :=
    pointer_clone_ne m a l tgt (h.wiped.pointer_some hl)
  by_cases hin : m.InPlace a p
  · rw [fieldByIndex_of_inPlace (h.inPlace_iff.2 hin)] at hk
    exact .inl ⟨hin, (Option.some.inj hk).symm⟩
  · exact .inr ⟨hin, (Memory.cell_fieldByIndex hn hk).resolve_left fun h' ↦ hin (h.inPlace_iff.1 h')⟩

theorem wipe (p : List ℕ) : Progress m a (done ++ [p]) (m'.wipe m.cloneRoot p) := by
  have hwiped := h.wiped.trans (.wipe m.cloneRoot m' p)
  refine ⟨hwiped, fun r ↦ ?_, fun q hq hin ↦ ?_⟩
  · have hold : m'.load (m.cloneRoot.sub r) = m.load (a.sub r) ∨
        ∃ q ∈ done ++ [p], m.InPlace a q ∧ q <+: r :=
      (h.own r).imp_right fun ⟨q, hq, hr⟩ ↦ ⟨q, List.mem_append_left _ hq, hr⟩
    rw [Memory.wipe]
    cases hk : m'.fieldByIndex m.cloneRoot p with
    | none => exact hold
    | some k =>
      change (m'.zero k).load _ = _ ∨ _
      by_cases hwithin : k.Within (m.cloneRoot.sub r)
      · refine .inr ⟨p, List.mem_append_right _ (List.mem_singleton_self p), ?_⟩
        rcases h.cell_fieldByIndex hk with ⟨hin, rfl⟩ | ⟨-, hcell⟩
        · exact ⟨hin, hwithin.2⟩
        · exact absurd hwithin.1 hcell
      · rwa [load_zero_of_not_within hwithin]
  · rcases List.mem_append.1 hq with hq | hq
    · exact Wiped.zeroAt (.wipe m.cloneRoot m' p) (h.zeroed q hq hin)
    · obtain rfl := List.mem_singleton.1 hq
      rw [Memory.wipe, fieldByIndex_of_inPlace (h.inPlace_iff.2 hin)]
      exact zeroAt_zero m' _

end Progress

theorem Progress.wipeAll : ∀ (rest : List (List ℕ)) {done : List (List ℕ)} {m' : Memory},
    Progress m a done m' → Progress m a (done ++ rest) (m'.wipeAll m.cloneRoot rest)
  | [], done, m', h => by rwa [List.append_nil]
  | p :: rest, done, m', h => by
    have hstep := Progress.wipeAll rest (h.wipe p)
    rwa [List.append_assoc] at hstep

/-- The fields that lie behind a pointer are zero, but for those that are out of reach once the copy's own
fields are wiped. -/
def Harmless (m : Memory) (a : Loc) (ps : List (List ℕ)) : Prop :=
  ∀ p ∈ ps, ∀ l, m.fieldByIndex a p = some l → ¬ m.InPlace a p →
    m.ZeroAt l ∨ ∃ q ∈ ps, q <+: p ∧ q ≠ p ∧ m.InPlace a q

/-- One wipe of a harmless run leaves the original as it is. -/
theorem Progress.load_wipe (h : Progress m a done m') (hps : ps = done ++ p :: rest)
    (horder : ps.Pairwise fun p q ↦ ¬ q <+: p) (hharmless : Harmless m a ps)
    (hl : l.cell ≠ m.next) (hsame : ∀ l, l.cell ≠ m.next → m'.load l = m.load l) :
    (m'.wipe m.cloneRoot p).load l = m.load l := by
  rw [Memory.wipe]
  cases hk : m'.fieldByIndex m.cloneRoot p with
  | none => exact hsame l hl
  | some k =>
    change (m'.zero k).load l = _
    rcases h.cell_fieldByIndex hk with ⟨-, rfl⟩ | ⟨hout, hcell⟩
    · rw [load_zero_of_not_within fun hwithin ↦ hl hwithin.1.symm]
      exact hsame l hl
    · have horig : m.fieldByIndex a p = some k := by
        rw [← fieldByIndex_clone hout]
        exact h.wiped.fieldByIndex hk
      rcases hharmless p (hps ▸ List.mem_append_right _ List.mem_cons_self) k horig hout with
        hzero | ⟨q, hq, ⟨s, rfl⟩, hne, hin⟩
      · have hzero' : m'.ZeroAt k := fun r s hs ↦ hzero r s ((hsame (k.sub r) hcell).symm.trans hs)
        rw [hzero'.load_zero]
        exact hsame l hl
      · -- the path that comes first has made the pointer nil that this one would leave by
        have hdone : q ∈ done := by
          rw [hps, List.mem_append, List.mem_cons] at hq
          rcases hq with hq | heq | hq
          · exact hq
          · exact absurd heq hne
          · rw [hps, List.pairwise_append, List.pairwise_cons] at horder
            exact absurd (List.prefix_append q s) (horder.2.1.1 q hq)
        exact absurd (ZeroAt.fieldByIndex_append (h.inPlace_iff.2 hin) (h.zeroed q hdone hin) hk) hcell

theorem load_wipeAll_of_harmless (horder : ps.Pairwise fun p q ↦ ¬ q <+: p) (hharmless : Harmless m a ps) :
    ∀ {rest done : List (List ℕ)} {m' : Memory}, ps = done ++ rest → Progress m a done m' →
      (∀ l, l.cell ≠ m.next → m'.load l = m.load l) →
      ∀ l, l.cell ≠ m.next → (m'.wipeAll m.cloneRoot rest).load l = m.load l
  | [], _, _, _, _, hsame => hsame
  | p :: rest, done, m', hps, h, hsame => by
    have hps' : ps = (done ++ [p]) ++ rest := by rw [hps, List.append_assoc]; rfl
    intro l hl
    exact load_wipeAll_of_harmless horder hharmless hps' (h.wipe p)
      (fun _ hl ↦ h.load_wipe hps horder hharmless hl hsame) l hl

theorem Reaches.sub (h : Reaches m a l) (q : List ℕ) : Reaches m a (l.sub q) := by
  cases h with
  | within r => rw [Loc.sub_sub]; exact .within _
  | through r hl hp => rw [Loc.sub_sub]; exact .through _ hl hp

theorem Reaches.cell_lt (h : Reaches m a l) (ha : a.cell < m.next) : l.cell < m.next := by
  cases h with
  | within r => exact ha
  | @through l b r hl hp => exact m.closed l b hp

/-- Where the pointers in reach are as they were, a path leads to where it led. -/
theorem Reaches.land (hptr : ∀ l b, Reaches m a l → m.load l = some (.pointer (some b)) →
      m'.load l = some (.pointer (some b)))
    (hkind : ∀ l, Reaches m a l → (∃ tgt, m'.load l = some (.pointer tgt)) →
      ∃ tgt, m.load l = some (.pointer tgt)) :
    ∀ {p : List ℕ} {l : Loc}, Reaches m a l → m.land l p = some k → m'.land l p = some k ∧ Reaches m a k
  | [], l, hl, hk => by
    cases hk
    exact ⟨rfl, hl⟩
  | i :: p, l, hl, hk => by
    rw [land_cons, Option.bind_eq_some_iff] at hk
    obtain ⟨b, hb, hk⟩ := hk
    by_cases hp : ∃ tgt, m.load l = some (.pointer tgt)
    · obtain ⟨tgt, htgt⟩ := hp
      rw [deref_of_pointer htgt] at hb
      subst hb
      rw [land_cons, deref_of_pointer (hptr l b hl htgt)]
      exact Reaches.land hptr hkind (.through [i] hl htgt) hk
    · rw [deref_of_not_pointer (not_exists.1 hp)] at hb
      cases hb
      have hnot : ∀ tgt, m'.load l ≠ some (.pointer tgt) := not_exists.1 fun hp' ↦ hp (hkind l hl hp')
      rw [land_cons, deref_of_not_pointer hnot]
      exact Reaches.land hptr hkind (hl.sub [i]) hk

/-- The same from within the copy, on a path that leaves it. -/
theorem Reaches.land_own (hptr : ∀ l b, Reaches m a l → m.load l = some (.pointer (some b)) →
      m'.load l = some (.pointer (some b)))
    (hkind : ∀ l, Reaches m a l → (∃ tgt, m'.load l = some (.pointer tgt)) →
      ∃ tgt, m.load l = some (.pointer tgt)) :
    ∀ {p r : List ℕ}, (∀ q, q <+: p → q ≠ p → m'.load (m.cloneRoot.sub (r ++ q)) = m.load (a.sub (r ++ q))) →
      ¬ m.InPlaceFrom (a.sub r) p → m.land (a.sub r) p = some k →
      m'.land (m.cloneRoot.sub r) p = some k ∧ Reaches m a k
  | [], _, _, hout, _ => absurd trivial hout
  | i :: p, r, hown, hout, hk => by
    have hload : m'.load (m.cloneRoot.sub r) = m.load (a.sub r) := by
      have hnil := hown [] (List.nil_prefix) (List.cons_ne_nil i p).symm
      rwa [List.append_nil] at hnil
    rw [land_cons, Option.bind_eq_some_iff] at hk
    obtain ⟨b, hb, hk⟩ := hk
    by_cases hp : ∃ tgt, m.load (a.sub r) = some (.pointer tgt)
    · obtain ⟨tgt, htgt⟩ := hp
      rw [deref_of_pointer htgt] at hb
      subst hb
      rw [land_cons, deref_of_pointer (hload.trans htgt)]
      exact Reaches.land hptr hkind (.through [i] (.within r) htgt) hk
    · have hnot := not_exists.1 hp
      rw [deref_of_not_pointer hnot] at hb
      cases hb
      rw [land_cons, deref_of_not_pointer (hload ▸ hnot), Option.bind_some, Loc.field, Loc.sub_sub]
      rw [Loc.field, Loc.sub_sub] at hk
      refine Reaches.land_own hptr hkind (fun q hq hne ↦ ?_) (fun hin ↦ hout ⟨hnot, ?_⟩) hk
      · have hcons := hown (i :: q) (List.cons_prefix_cons.2 ⟨rfl, hq⟩) fun heq ↦ hne (List.cons.inj heq).2
        rwa [List.append_cons] at hcons
      · rw [Loc.field, Loc.sub_sub]
        exact hin

/-- If the original is unchanged in the end, its pointers were unchanged all along. -/
theorem Progress.pointers {final : Memory} (h : Progress m a done m') (hlater : Wiped m' final)
    (ha : a.cell < m.next) (hsame : ∀ l, Reaches m a l → final.load l = m.load l) :
    (∀ l b, Reaches m a l → m.load l = some (.pointer (some b)) → m'.load l = some (.pointer (some b))) ∧
      ∀ l, Reaches m a l → (∃ tgt, m'.load l = some (.pointer tgt)) → ∃ tgt, m.load l = some (.pointer tgt) := by
  refine ⟨fun l b hl hb ↦ hlater.pointer_some ((hsame l hl).trans hb), fun l hl hp ↦ ?_⟩
  rwa [h.wiped.pointer_iff, load_clone_of_ne (hl.cell_lt ha).ne] at hp

/-- If the original is unchanged in the end, then every field that the run would have wiped was zero. -/
theorem harmless_of_unchanged (ha : a.cell < m.next)
    (hsame : ∀ l, Reaches m a l → ((m.clone a).wipeAll m.cloneRoot ps).load l = m.load l) :
    Harmless m a ps := by
  intro p hp l hl hout
  by_cases hex : ∃ q ∈ ps, q <+: p ∧ q ≠ p ∧ m.InPlace a q
  · exact .inr hex
  refine .inl ?_
  obtain ⟨done, rest, rfl⟩ := List.append_of_mem hp
  have hprogress : Progress m a done ((m.clone a).wipeAll m.cloneRoot done) :=
    (Progress.clone m a).wipeAll done
  -- the run up to `p`, the wipe of `p`, and the rest
  have hsplit : (m.clone a).wipeAll m.cloneRoot (done ++ p :: rest) =
      ((((m.clone a).wipeAll m.cloneRoot done).wipe m.cloneRoot p).wipeAll m.cloneRoot rest) := by
    rw [Memory.wipeAll, List.foldl_append]
    rfl
  rw [hsplit] at hsame
  have hrest := Wiped.wipeAll m.cloneRoot rest (((m.clone a).wipeAll m.cloneRoot done).wipe m.cloneRoot p)
  obtain ⟨hptr, hkind⟩ := hprogress.pointers ((Wiped.wipe _ _ p).trans hrest) ha hsame
  have hown (r : List ℕ) (hr : r <+: p) (hne : r ≠ p) :
      ((m.clone a).wipeAll m.cloneRoot done).load (m.cloneRoot.sub r) = m.load (a.sub r) := by
    refine (hprogress.own r).resolve_right fun ⟨q, hq, hin, hqr⟩ ↦ hex ⟨q, ?_, hqr.trans hr, ?_, hin⟩
    · exact List.mem_append_left _ hq
    · rintro rfl
      exact hne (hr.eq_of_length_le hqr.length_le)
  obtain ⟨hland, hreach⟩ : ((m.clone a).wipeAll m.cloneRoot done).fieldByIndex m.cloneRoot p = some l ∧
      Reaches m a l := by
    cases p with
    | nil => exact absurd trivial hout
    | cons i p =>
      refine Reaches.land_own hptr hkind (fun q hq hne ↦ ?_) hout hl
      exact hown (i :: q) (List.cons_prefix_cons.2 ⟨rfl, hq⟩) fun heq ↦ hne (List.cons.inj heq).2
  have hzero : (((m.clone a).wipeAll m.cloneRoot done).wipe m.cloneRoot p).ZeroAt l := by
    rw [Memory.wipe, hland]
    exact zeroAt_zero _ l
  intro q s hs
  exact hrest.zeroAt hzero q s ((hsame _ (hreach.sub q)).trans hs)

/-- **When wiping a shallow copy leaves the original alone.** -/
theorem wipeAll_unchanged_iff (ha : a.cell < m.next) (horder : ps.Pairwise fun p q ↦ ¬ q <+: p) :
    (∀ l, Reaches m a l → ((m.clone a).wipeAll m.cloneRoot ps).load l = m.load l) ↔ Harmless m a ps := by
  refine ⟨harmless_of_unchanged ha, fun h l hl ↦ ?_⟩
  exact load_wipeAll_of_harmless horder h (List.nil_append ps).symm (Progress.clone m a)
    (fun _ ↦ load_clone_of_ne) l (hl.cell_lt ha).ne

end Copy

end Memory

end StructMemory

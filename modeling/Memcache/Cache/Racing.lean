import Memcache.Cache.Read
import Memcache.Lib.Runs

/-!
# Lock-free reads, load by load

A lock-free `Get` finds an entry object through the published snapshot and then loads its fields one
by one, while a thread that holds the shard's lock stores them one by one. Here every such load and
store is a step of its own, and the steps of any number of readers fall anywhere between those of the
writers, of which the lock lets through one at a time.

Most orders are harmless. An overwrite of a tombstone stores the value before it clears the flag; a
removed object keeps its value, for it is not used again. **The exception is the entry that becomes a
tombstone**: it gets the zero value first and the flag afterwards, and a reader that has seen the flag
clear does not look at it again. If the zero value is stored between a reader's two loads, or the flag
is loaded between the writer's two stores, the reader returns a value nobody wrote.
-/

namespace Memcache

variable {R K V : Type*}

/-! ### Entry objects and the stores of a section -/

/-- The fields of an entry object that are read without the lock. The value is a pointer, which is nil
until it is first stored. -/
structure Cell (K V : Type*) where
  key : K
  value : Option V
  expireAt : ℤ
  negative : Bool
  sliding : Bool
  invalidated : Bool
deriving DecidableEq, Repr

def Cell.loadValue [Inhabited V] (c : Cell K V) : V := c.value.getD default

/-- One atomic store of the thread that holds the lock, to an object or to the snapshot pointer. -/
inductive AtomicStore (K V : Type*) where
  | value (id : ℕ) (v : V)
  | zero (id : ℕ)
  | expireAt (id : ℕ) (t : ℤ)
  | clear (id : ℕ) (negative sliding : Bool)
  | setSliding (id : ℕ)
  | negate (id : ℕ)
  | invalidate (id : ℕ)
  | read (rm : ReadMap K)
deriving DecidableEq, Repr

/-- A critical section, named for the function that makes the stores. -/
inductive LockedSection (K V : Type*) where
  | upsertLocked (key : K) (value : V) (expireAt : ℤ) (sliding : Bool)
  | upsertWithAbsoluteExpiryLocked (key : K) (value : V) (expireAt : ℤ)
  | replaceValueLocked (key : K) (value : V)
  | insertNegativeTombstoneLocked (key : K) (expireAt : ℤ)
  | expiryFix (key : K) (expireAt : ℤ)
  | removeLocked (key : K)
  | applySnapshot (key : K) (value : V) (expireAt : ℤ) (sliding : Bool)
  | promoteReadMapLocked
  | clear

/-! ### Readers -/

/-- Where a `Get` is in `tryLockFreeGet`: before the load of the snapshot, of a field of the object it
found there, or done. -/
inductive LockFreeGet (K V : Type*) where
  | idle
  | load (key : K) (now : ℤ)
  | invalidated (key : K) (now : ℤ) (id : ℕ)
  | expired (key : K) (now : ℤ) (id : ℕ)
  | negative (key : K) (id : ℕ)
  | sliding (key : K) (id : ℕ)
  | promotion (key : K) (id : ℕ)
  | value (key : K) (id : ℕ)
  | hit (key : K) (value : V)
  | miss (key : K)
  | fallThrough (key : K)
deriving DecidableEq, Repr

/-- The reader has found the object under the key. -/
def LockFreeGet.At (key : K) (id : ℕ) : LockFreeGet K V → Prop
  | invalidated k _ i | expired k _ i | negative k i | sliding k i | promotion k i
  | value k i => k = key ∧ i = id
  | _ => False

/-- The reader has seen the object without the tombstone's flag. -/
def LockFreeGet.Trusts (id : ℕ) : LockFreeGet K V → Prop
  | sliding _ i | promotion _ i | value _ i => i = id
  | _ => False

/-- A shard with lock-free reads: the objects by identity, the live ones by key, the snapshot, the
stores that the section under way has still to make, the readers, and what has been written so far. -/
structure Race (R K V : Type*) where
  cells : List (Cell K V)
  live : KeyMap K ℕ
  read : ReadMap K
  todo : List (AtomicStore K V)
  readers : R → LockFreeGet K V
  written : List (K × V)

namespace Race

/-- A fresh shard. -/
def start : Race R K V where
  cells := []
  live := .empty
  read := ⟨.empty, false⟩
  todo := []
  readers _ := .idle
  written := []

section Defs

variable [BEq K]

/-- Put a new object under a key. The snapshot is marked as not knowing the key. -/
def insert (s : Race R K V) (cell : Cell K V) : Race R K V :=
  { s with
    cells := s.cells ++ [cell]
    live := s.live.insert cell.key s.cells.length
    todo := if s.read.amended then [] else [.read { s.read with amended := true }] }

/-- Take the lock and work out the stores of a section. What it changes that no reader can see is
changed here. -/
def enter (s : Race R K V) : LockedSection K V → Race R K V
  | .upsertLocked key value expireAt sliding =>
    match s.live.get key with
    | some id => { s with todo := [.value id value, .expireAt id expireAt, .clear id true false,
        if sliding then .setSliding id else .clear id false true] }
    | none => s.insert ⟨key, some value, expireAt, false, sliding, false⟩
  | .upsertWithAbsoluteExpiryLocked key value expireAt =>
    match s.live.get key with
    | some id => { s with todo := [.value id value, .expireAt id expireAt, .clear id true true] }
    | none => s.insert ⟨key, some value, expireAt, false, false, false⟩
  | .replaceValueLocked key value =>
    match s.live.get key with
    | some id => { s with todo := [.value id value] }
    | none => s
  | .insertNegativeTombstoneLocked key expireAt =>
    match s.live.get key with
    | some id => { s with todo := [.zero id, .expireAt id expireAt, .negate id] }
    | none => s.insert ⟨key, none, expireAt, true, false, false⟩
  | .expiryFix key expireAt =>
    match s.live.get key with
    | some id => { s with todo := [.expireAt id expireAt] }
    | none => s
  | .removeLocked key =>
    match s.live.get key with
    | some id => { s with live := s.live.erase key, todo := [.invalidate id] }
    | none => s
  | .applySnapshot key value expireAt sliding =>
    let s' := s.insert ⟨key, some value, expireAt, false, sliding, false⟩
    { s' with todo := (s.live.get key).toList.map .invalidate ++ s'.todo }
  | .promoteReadMapLocked => { s with todo := [.read ⟨s.live, false⟩] }
  | .clear =>
    { s with
      live := .empty
      todo := s.live.values.map .invalidate ++ [.read ⟨.empty, false⟩] }

/-- The value a section writes under its key. -/
def writes (s : Race R K V) : LockedSection K V → List (K × V)
  | .upsertLocked key value _ _ | .upsertWithAbsoluteExpiryLocked key value _
  | .applySnapshot key value _ _ => [(key, value)]
  | .replaceValueLocked key value => if (s.live.get key).isSome then [(key, value)] else []
  | _ => []

/-- Make a store. -/
def apply [Inhabited V] (s : Race R K V) : AtomicStore K V → Race R K V
  | .value id v => { s with cells := s.cells.modify id fun c ↦ { c with value := some v } }
  | .zero id => { s with cells := s.cells.modify id fun c ↦ { c with value := some default } }
  | .expireAt id t => { s with cells := s.cells.modify id fun c ↦ { c with expireAt := t } }
  | .clear id negative sliding => { s with cells := s.cells.modify id fun c ↦ { c with
      negative := c.negative && !negative
      sliding := c.sliding && !sliding } }
  | .setSliding id => { s with cells := s.cells.modify id fun c ↦ { c with sliding := true } }
  | .negate id => { s with cells := s.cells.modify id fun c ↦ { c with
      negative := true
      sliding := false } }
  | .invalidate id => { s with cells := s.cells.modify id fun c ↦ { c with invalidated := true } }
  | .read rm => { s with read := rm }

/-- One load of `tryLockFreeGet`. Whether the policy wants a promotion, or the entry is due for a
refresh, is left open. -/
def look [Inhabited V] (s : Race R K V) (declines : Bool) : LockFreeGet K V → LockFreeGet K V
  | .load key now =>
    match s.read.m.get key with
    | none => if s.read.amended then .fallThrough key else .miss key
    | some id => .invalidated key now id
  | .invalidated key now id =>
    if s.cells[id]?.any (!·.invalidated) then .expired key now id else .fallThrough key
  | .expired key now id =>
    if s.cells[id]?.any fun c ↦ decide (¬ (c.expireAt ≠ 0 ∧ c.expireAt ≤ now)) then .negative key id
    else .fallThrough key
  | .negative key id =>
    if s.cells[id]?.any (!·.negative) then .sliding key id else .fallThrough key
  | .sliding key id =>
    if s.cells[id]?.any (!·.sliding) then .promotion key id else .fallThrough key
  | .promotion key id => if declines then .fallThrough key else .value key id
  | .value key id =>
    match s.cells[id]? with
    | some c => .hit key c.loadValue
    | none => .fallThrough key
  | r => r

end Defs

/-! ### Runs -/

/-- What happens next: a section takes the lock, makes a store, a reader starts, or makes a load. -/
inductive Act (R K V : Type*) where
  | enter (sec : LockedSection K V)
  | store
  | get (r : R) (key : K) (now : ℤ)
  | look (r : R) (declines : Bool)

def step [BEq K] [Inhabited V] [DecidableEq R] (s : Race R K V) : Act R K V → Race R K V
  | .enter sec =>
    match s.todo with
    | [] => { s.enter sec with written := s.writes sec ++ s.written }
    | _ :: _ => s
  | .store =>
    match s.todo with
    | [] => s
    | st :: rest => { s.apply st with todo := rest }
  | .get r key now => { s with readers := Function.update s.readers r (.load key now) }
  | .look r declines =>
    { s with readers := Function.update s.readers r (s.look declines (s.readers r)) }

/-! ### Uninterrupted, the loads and stores add up -/

section Uninterrupted

variable [Inhabited V]

/-- The object has the fields of the entry. -/
structure Shows (c : Cell K V) (e : Entry K V) : Prop where
  key : c.key = e.key
  value : c.loadValue = e.value
  expireAt : c.expireAt = e.expireAt
  negative : c.negative = e.negative
  sliding : c.sliding = e.sliding

/-- Make all the stores of a section, one after another. -/
def finish (s : Race R K V) : Race R K V := s.todo.foldl apply s

variable [BEq K] {s : Race R K V} {c : Cell K V} {e : Entry K V} {key : K} {id : ℕ}

end Uninterrupted

variable [BEq K]

/-- A write or a load stored the value under the key. -/
def Stored (s : Race R K V) (key : K) (v : V) : Prop := ∃ k, (k == key) = true ∧ (k, v) ∈ s.written

/-- The object has the zero value already and the tombstone's flag not yet. -/
def Blanking (s : Race R K V) (id : ℕ) : Prop := .negate id ∈ s.todo ∧ .zero id ∉ s.todo

/-- The value was stored under every key that finds an object with this one. -/
def Under (s : Race R K V) (k : K) (v : V) : Prop :=
  ∀ key, (k == key) = true → s.Stored key v

/-- The value was stored under the object's key. -/
def Fits (s : Race R K V) (id : ℕ) (v : V) : Prop := ∃ c, s.cells[id]? = some c ∧ s.Under c.key v

/-- **No reader and no tombstone come between each other's steps**: the zero value is not stored to an
object that a reader trusts, and the flag is not loaded from one that is being blanked, unless the
zero value was itself stored under the key. -/
def Apart [Inhabited V] (s : Race R K V) : Act R K V → Prop
  | .store => ∀ id rest, s.todo = .zero id :: rest →
      s.Fits id default ∨ ∀ r, ¬ (s.readers r).Trusts id
  | .look r _ => ∀ key id, s.readers r = .negative key id → s.Blanking id → s.Fits id default
  | _ => True

/-- Every hit so far has a value that was stored under its key. -/
def HitsStored (s : Race R K V) : Prop :=
  ∀ r key v, s.readers r = .hit key v → s.Stored key v

/-! ### What every step keeps -/

/-- The object is there, under the key. -/
def PointsTo (s : Race R K V) (key : K) (id : ℕ) : Prop :=
  ∃ c, s.cells[id]? = some c ∧ (c.key == key) = true

def Keyed (s : Race R K V) (m : KeyMap K ℕ) : Prop :=
  ∀ key id, m.get key = some id → s.PointsTo key id

/-- **What the order of the stores of a section guarantees**, where `sound` are the objects whose value
was stored: the tombstone's flag is only cleared from those, and an object that gets the zero value
gets the flag later on. -/
def Safe (s : Race R K V) : (ℕ → Prop) → List (AtomicStore K V) → Prop
  | _, [] => True
  | sound, .value id v :: l => s.Fits id v ∧ s.Safe (fun i ↦ i = id ∨ sound i) l
  | sound, .zero id :: l => .negate id ∈ l ∧ .zero id ∉ l ∧ s.Safe (fun i ↦ i ≠ id ∧ sound i) l
  | sound, .clear id negative _ :: l => (negative = true → sound id) ∧ s.Safe sound l
  | sound, .read rm :: l => s.Keyed rm.m ∧ s.Safe sound l
  | sound, _ :: l => s.Safe sound l

variable {s : Race R K V}

theorem safe_invalidate {sound : ℕ → Prop} (ids : List ℕ) {l : List (AtomicStore K V)} :
    s.Safe sound (ids.map .invalidate ++ l) ↔ s.Safe sound l := by
  induction ids with
  | nil => rfl
  | cons id ids ih => exact ih

/-- Objects stay, under their keys, from one state to the next. -/
structure Keeps (s s' : Race R K V) : Prop where
  cell : ∀ (id : ℕ) (c : Cell K V), s.cells[id]? = some c →
    ∃ c' : Cell K V, s'.cells[id]? = some c' ∧ c'.key = c.key
  written : s.written ⊆ s'.written

variable {id : ℕ}

namespace Keeps

variable {s s' : Race R K V}

theorem stored (h : Keeps s s') {key : K} {v : V} (hv : s.Stored key v) : s'.Stored key v := by
  obtain ⟨k, hk, hmem⟩ := hv
  exact ⟨k, hk, h.written hmem⟩

theorem under (h : Keeps s s') {k : K} {v : V} (hv : s.Under k v) : s'.Under k v :=
  fun key hk ↦ h.stored (hv key hk)

theorem pointsTo (h : Keeps s s') {key : K} (hp : s.PointsTo key id) : s'.PointsTo key id := by
  obtain ⟨c, hc, hkey⟩ := hp
  obtain ⟨c', hc', heq⟩ := h.cell id c hc
  exact ⟨c', hc', heq ▸ hkey⟩

theorem keyed (h : Keeps s s') {m : KeyMap K ℕ} (hm : s.Keyed m) : s'.Keyed m :=
  fun key id hid ↦ h.pointsTo (hm key id hid)

theorem fits (h : Keeps s s') {v : V} (hv : s.Fits id v) : s'.Fits id v := by
  obtain ⟨c, hc, hst⟩ := hv
  obtain ⟨c', hc', heq⟩ := h.cell id c hc
  exact ⟨c', hc', heq ▸ h.under hst⟩

/-- What the stores still guarantee, they guarantee with more sound objects. -/
theorem safe (h : Keeps s s') {sound sound' : ℕ → Prop} (hs : ∀ i, sound i → sound' i)
    {l : List (AtomicStore K V)} (hl : s.Safe sound l) : s'.Safe sound' l := by
  induction l generalizing sound sound' with
  | nil => trivial
  | cons st l ih =>
    cases st with
    | value id v => exact ⟨h.fits hl.1, ih (fun i hi ↦ hi.imp_right (hs i)) hl.2⟩
    | zero id => exact ⟨hl.1, hl.2.1, ih (fun i hi ↦ ⟨hi.1, hs i hi.2⟩) hl.2.2⟩
    | clear id negative sliding => exact ⟨fun hn ↦ hs id (hl.1 hn), ih hs hl.2⟩
    | read rm => exact ⟨h.keyed hl.1, ih hs hl.2⟩
    | expireAt | setSliding | negate | invalidate => exact ih hs hl

end Keeps

variable [Inhabited V]

/-- The value that the object has was stored under its key. -/
def Sound (s : Race R K V) (id : ℕ) : Prop :=
  ∃ c, s.cells[id]? = some c ∧ s.Under c.key c.loadValue

/-- What a reader has found is under its key, what it trusts is sound, and what it returns is stored. -/
structure ReaderOk (s : Race R K V) (g : LockFreeGet K V) : Prop where
  points : ∀ key id, g.At key id → s.PointsTo key id
  trusted : ∀ id, g.Trusts id → s.Sound id
  hit : ∀ key v, g = .hit key v → s.Stored key v

structure Ok (s : Race R K V) : Prop where
  live : s.Keyed s.live
  read : s.Keyed s.read.m
  safe : s.Safe s.Sound s.todo
  shown : ∀ id c, s.cells[id]? = some c → c.negative = false →
    s.Under c.key c.loadValue ∨ s.Blanking id ∧ c.loadValue = default
  readers : ∀ r, s.ReaderOk (s.readers r)

/-- What a store does to the fields of an object that decide about hits. -/
inductive Changes (id : ℕ) (c c' : Cell K V) : AtomicStore K V → Prop
  | value {v : V} (hv : c'.loadValue = v) (hn : c'.negative = c.negative) : Changes id c c' (.value id v)
  | zero (hv : c'.loadValue = default) (hn : c'.negative = c.negative) : Changes id c c' (.zero id)
  | clear {negative sliding : Bool} (hv : c'.loadValue = c.loadValue)
      (hn : c'.negative = (c.negative && !negative)) : Changes id c c' (.clear id negative sliding)
  | negate (hn : c'.negative = true) (hv : c'.loadValue = c.loadValue) : Changes id c c' (.negate id)
  | rest {st : AtomicStore K V} (hv : c'.loadValue = c.loadValue) (hn : c'.negative = c.negative)
      (hneg : st ≠ .negate id) (hzero : st ≠ .zero id) (hval : ∀ v, st ≠ .value id v) :
      Changes id c c' st

omit [BEq K] in
theorem cell_apply (st : AtomicStore K V) {c : Cell K V} (hc : s.cells[id]? = some c) :
    ∃ c', (s.apply st).cells[id]? = some c' ∧ c'.key = c.key ∧ Changes id c c' st := by
  -- every store modifies the object it names, and no other
  have hmod (i : ℕ) (f : Cell K V → Cell K V) : (s.cells.modify i f)[id]? =
      some (if i = id then f c else c) := by
    rw [List.getElem?_modify, hc]
    rfl
  cases st with
  | read rm => exact ⟨c, hc, rfl, .rest rfl rfl nofun nofun nofun⟩
  | _ =>
    refine ⟨_, hmod _ _, ?_⟩
    split_ifs with h
    · subst h
      refine ⟨rfl, ?_⟩
      first
        | exact .value rfl rfl
        | exact .zero rfl rfl
        | exact .clear rfl rfl
        | exact .negate rfl rfl
        | exact .rest rfl rfl nofun nofun nofun
    · exact ⟨rfl, .rest rfl rfl (by rintro ⟨⟩ <;> exact h rfl) (by rintro ⟨⟩ <;> exact h rfl)
        (by rintro v ⟨⟩ <;> exact h rfl)⟩

omit [BEq K] in
theorem keeps_apply (s : Race R K V) (st : AtomicStore K V) : Keeps s (s.apply st) where
  cell id c hc := by
    obtain ⟨c', hc', hkey, -⟩ := cell_apply st hc
    exact ⟨c', hc', hkey⟩
  written := by cases st <;> exact List.Subset.refl _

variable {g : LockFreeGet K V}

theorem ReaderOk.mono {s s' : Race R K V} (h : s.ReaderOk g) (hk : Keeps s s')
    (hs : ∀ id, g.Trusts id → s.Sound id → s'.Sound id) : s'.ReaderOk g :=
  ⟨fun key id hg ↦ hk.pointsTo (h.points key id hg), fun id hg ↦ hs id hg (h.trusted id hg),
    fun key v hg ↦ hk.stored (h.hit key v hg)⟩

omit [BEq K] in
theorem cell_of_apply {st : AtomicStore K V} {c' : Cell K V}
    (hc' : (s.apply st).cells[id]? = some c') :
    ∃ c, s.cells[id]? = some c ∧ c'.key = c.key ∧ Changes id c c' st := by
  rcases hc : s.cells[id]? with _ | c
  · -- a store makes no object
    have hlen : (s.apply st).cells.length = s.cells.length := by
      cases st <;> first | rfl | exact List.length_modify ..
    rw [List.getElem?_eq_none_iff, ← hlen, ← List.getElem?_eq_none_iff, hc'] at hc
    cases hc
  · obtain ⟨c'', hc'', hkey, hch⟩ := cell_apply st hc
    obtain rfl : c'' = c' := Option.some.inj (hc''.symm.trans hc')
    exact ⟨c, rfl, hkey, hch⟩

omit [BEq K] in
@[simp] theorem live_apply (s : Race R K V) (st : AtomicStore K V) : (s.apply st).live = s.live := by
  cases st <;> rfl

omit [BEq K] in
@[simp] theorem readers_apply (s : Race R K V) (st : AtomicStore K V) :
    (s.apply st).readers = s.readers := by
  cases st <;> rfl

/-- An object is sound after a store if its value was, or if it got one that fits. -/
theorem sound_apply {st : AtomicStore K V} {c : Cell K V} (hc : s.cells[id]? = some c)
    (hval : ∀ v, st = .value id v → s.Under c.key v) (hzero : st = .zero id → s.Under c.key default)
    (hrest : (∀ v, st ≠ .value id v) → st ≠ .zero id → s.Under c.key c.loadValue) :
    (s.apply st).Sound id := by
  obtain ⟨c', hc', hkey, hch⟩ := cell_apply st hc
  refine ⟨c', hc', (keeps_apply s st).under ?_⟩
  rw [hkey]
  cases hch with
  | value hv => exact hv ▸ hval _ rfl
  | zero hv => exact hv ▸ hzero rfl
  | clear hv => exact hv ▸ hrest nofun nofun
  | negate _ hv => exact hv ▸ hrest nofun nofun
  | rest hv _ _ hz hnv => exact hv ▸ hrest hnv hz

omit [Inhabited V] in
theorem Fits.under {v : V} {c : Cell K V} (h : s.Fits id v) (hc : s.cells[id]? = some c) :
    s.Under c.key v := by
  obtain ⟨c', hc', hst⟩ := h
  obtain rfl : c' = c := Option.some.inj (hc'.symm.trans hc)
  exact hst

namespace Ok

variable {s : Race R K V} {st : AtomicStore K V} {rest : List (AtomicStore K V)}

/-- What is left of a section is safe once its first store is made. -/
theorem safe_store (h : s.Ok) (hst : s.todo = st :: rest) :
    (s.apply st).Safe (s.apply st).Sound rest := by
  have hsafe : s.Safe s.Sound (st :: rest) := hst ▸ h.safe
  have hk := keeps_apply s st
  -- what was sound is sound after any store but that of the zero value
  have hsound (hz : ∀ id, st ≠ .zero id) (hv : ∀ id v, st = .value id v → s.Fits id v) (i : ℕ) :
      s.Sound i → (s.apply st).Sound i := by
    rintro ⟨c, hc, hs⟩
    exact sound_apply hc (fun v hst ↦ (hv i v hst).under hc) (fun hst ↦ absurd hst (hz i))
      fun _ _ ↦ hs
  cases st with
  | value id v =>
    refine hk.safe (fun i hi ↦ ?_) hsafe.2
    rcases hi with rfl | hi
    · obtain ⟨c, hc, hs⟩ := hsafe.1
      exact sound_apply hc (by rintro _ ⟨⟩; exact hs) nofun fun hne ↦ absurd rfl (hne v)
    · exact hsound nofun (by rintro _ _ ⟨⟩; exact hsafe.1) i hi
  | zero id =>
    refine hk.safe (fun i hi ↦ ?_) hsafe.2.2
    obtain ⟨hne, c, hc, hs⟩ := hi
    exact sound_apply hc nofun (by rintro ⟨⟩; exact absurd rfl hne) fun _ _ ↦ hs
  | clear | read => exact hk.safe (hsound nofun nofun) hsafe.2
  | expireAt | setSliding | negate | invalidate => exact hk.safe (hsound nofun nofun) hsafe

/-- An object without the tombstone's flag, after a store. -/
theorem shown_store (h : s.Ok) (hst : s.todo = st :: rest) {c' : Cell K V}
    (hc' : (s.apply st).cells[id]? = some c') (hn' : c'.negative = false) :
    s.Under c'.key c'.loadValue ∨ (.negate id ∈ rest ∧ .zero id ∉ rest) ∧
      c'.loadValue = default := by
  have hsafe : s.Safe s.Sound (st :: rest) := hst ▸ h.safe
  obtain ⟨c, hc, hkey, hch⟩ := cell_of_apply hc'
  rw [hkey]
  -- an object that was being blanked before still is, unless this was the store of the flag
  have hbefore (hv : c'.loadValue = c.loadValue) (hn : c.negative = false) (hne : st ≠ .negate id) :
      s.Under c.key c'.loadValue ∨ (.negate id ∈ rest ∧ .zero id ∉ rest) ∧ c'.loadValue = default := by
    rw [hv]
    refine (h.shown id c hc hn).imp_right fun ⟨⟨hneg, hzero⟩, hval⟩ ↦ ⟨⟨?_, ?_⟩, hval⟩
    · rw [hst] at hneg
      exact (List.mem_cons.1 hneg).resolve_left (Ne.symm hne)
    · rw [hst] at hzero
      exact fun hmem ↦ hzero (List.mem_cons_of_mem _ hmem)
  cases hch with
  | value hv => exact .inl (hv ▸ hsafe.1.under hc)
  | zero hv => exact .inr ⟨⟨hsafe.1, hsafe.2.1⟩, hv⟩
  | @clear negative _ hv hn =>
    rcases Bool.eq_false_or_eq_true negative with rfl | rfl
    · obtain ⟨c₀, hc₀, hs⟩ := hsafe.1 rfl
      obtain rfl : c₀ = c := Option.some.inj (hc₀.symm.trans hc)
      exact .inl (hv ▸ hs)
    · exact hbefore hv (by simpa [hn] using hn') nofun
  | negate hn => rw [hn] at hn'; cases hn'
  | rest hv hn hneg => exact hbefore hv (hn ▸ hn') hneg

theorem store (h : s.Ok) (hst : s.todo = st :: rest)
    (hzero : ∀ id, st = .zero id → s.Fits id default ∨ ∀ r, ¬ (s.readers r).Trusts id) :
    Ok { s.apply st with todo := rest } where
  live := (keeps_apply s st).keyed (by simpa using h.live)
  read := by
    have hsafe : s.Safe s.Sound (st :: rest) := hst ▸ h.safe
    refine (keeps_apply s st).keyed ?_
    cases st with
    | read rm => exact hsafe.1
    | _ => exact h.read
  safe := by
    have hk : Keeps (s.apply st) { s.apply st with todo := rest } :=
      ⟨fun _ c hc ↦ ⟨c, hc, rfl⟩, List.Subset.refl _⟩
    exact hk.safe (fun _ hi ↦ hi) (h.safe_store hst)
  shown id c hc hn := (h.shown_store hst hc hn).imp_left (keeps_apply s st).under
  readers r := by
    have hsafe : s.Safe s.Sound (st :: rest) := hst ▸ h.safe
    have hr : ({ s.apply st with todo := rest } : Race R K V).readers r = s.readers r := by simp
    rw [hr]
    refine (h.readers r).mono ⟨(keeps_apply s st).cell, (keeps_apply s st).written⟩ ?_
    rintro id hg ⟨c, hc, hs⟩
    refine sound_apply hc ?_ (fun he ↦ ?_) fun _ _ ↦ hs
    · rintro v rfl
      exact hsafe.1.under hc
    · rcases hzero id he with hfit | hfree
      · exact hfit.under hc
      · exact absurd hg (hfree r)

/-- A section that finds nothing left to store takes the lock. -/
theorem begin (h : s.Ok) (hnil : s.todo = []) {s' : Race R K V} (hread : s'.read = s.read)
    (hreaders : s'.readers = s.readers) (hwritten : s.written ⊆ s'.written)
    (hcells : ∀ (id : ℕ) (c : Cell K V), s.cells[id]? = some c → s'.cells[id]? = some c)
    (hnew : ∀ (id : ℕ) (c : Cell K V), s'.cells[id]? = some c → s.cells[id]? = some c ∨
      (c.negative = false → s'.Under c.key c.loadValue))
    (hlive : s'.Keyed s'.live) (hsafe : s'.Safe s'.Sound s'.todo) : s'.Ok := by
  have hk : Keeps s s' := ⟨fun id c hc ↦ ⟨c, hcells id c hc, rfl⟩, hwritten⟩
  refine ⟨hlive, hread ▸ hk.keyed h.read, hsafe, fun id c hc hn ↦ .inl ?_, fun r ↦ ?_⟩
  · rcases hnew id c hc with hold | hstored
    · rcases h.shown id c hold hn with hs | ⟨⟨hneg, -⟩, -⟩
      · exact hk.under hs
      · rw [hnil] at hneg
        cases hneg
    · exact hstored hn
  · rw [hreaders]
    refine (h.readers r).mono hk ?_
    rintro id - ⟨c, hc, hs⟩
    exact ⟨c, hcells id c hc, hk.under hs⟩

/-- A section that only stores to objects and to the snapshot pointer. -/
theorem begin_todo (h : s.Ok) (hnil : s.todo = []) {l : List (K × V)} {m : KeyMap K ℕ}
    {todo : List (AtomicStore K V)} (hm : s.Keyed m)
    (hsafe : Safe { s with live := m, todo := todo, written := l ++ s.written }
      { s with live := m, todo := todo, written := l ++ s.written }.Sound todo) :
    Ok { s with live := m, todo := todo, written := l ++ s.written } := by
  have hk : Keeps s { s with live := m, todo := todo, written := l ++ s.written } :=
    ⟨fun _ c hc ↦ ⟨c, hc, rfl⟩, List.subset_append_right ..⟩
  exact h.begin hnil rfl rfl hk.written (fun _ _ hc ↦ hc) (fun _ _ hc ↦ .inl hc) (hk.keyed hm) hsafe

section Equiv

variable [PartialEquivBEq K]

/-- A section that makes an object, in place of another or of none. -/
theorem begin_insert (h : s.Ok) (hnil : s.todo = []) {l : List (K × V)} {cell : Cell K V}
    (old : List ℕ) (hcell : cell.negative = false → (cell.key, cell.loadValue) ∈ l) :
    Ok { s.insert cell with
      todo := old.map .invalidate ++ (s.insert cell).todo
      written := l ++ s.written } := by
  set s' : Race R K V := { s.insert cell with
    todo := old.map .invalidate ++ (s.insert cell).todo
    written := l ++ s.written } with hs'
  have hcells : s'.cells = s.cells ++ [cell] := rfl
  have hold (id : ℕ) (c : Cell K V) (hc : s.cells[id]? = some c) : s'.cells[id]? = some c := by
    rw [hcells, List.getElem?_append_left (List.getElem?_eq_some_iff.1 hc).1, hc]
  have hk : Keeps s s' :=
    ⟨fun id c hc ↦ ⟨c, hold id c hc, rfl⟩, List.subset_append_right ..⟩
  refine h.begin hnil rfl rfl hk.written hold (fun id c hc ↦ ?_) (fun key id hid ↦ ?_) ?_
  · -- the new object is the last one
    rw [hcells, List.getElem?_append] at hc
    split_ifs at hc with hlt
    · exact .inl hc
    · obtain rfl : c = cell := by simpa using List.mem_of_getElem? hc
      exact .inr fun hn key hk' ↦ ⟨c.key, hk', List.mem_append_left _ (hcell hn)⟩
  · rw [show s'.live = s.live.insert cell.key s.cells.length from rfl, KeyMap.get_insert] at hid
    split_ifs at hid with hk'
    · obtain rfl : s.cells.length = id := Option.some.inj hid
      exact ⟨cell, by rw [hcells]; simp, hk'⟩
    · exact hk.pointsTo (h.live key id hid)
  · show s'.Safe s'.Sound (old.map .invalidate ++ (s.insert cell).todo)
    rw [safe_invalidate]
    show s'.Safe s'.Sound (if s.read.amended then [] else [.read { s.read with amended := true }])
    split_ifs
    · trivial
    · exact ⟨hk.keyed h.read, trivial⟩

/-- What is written under a key fits the object that the key finds. -/
theorem fits_of_get (h : s.Ok) {key : K} (hid : s.live.get key = some id) (v : V)
    (todo : List (AtomicStore K V)) :
    Fits { s with todo := todo, written := [(key, v)] ++ s.written } id v := by
  obtain ⟨c, hc, hk⟩ := h.live key id hid
  exact ⟨c, hc, fun key' hk' ↦
    ⟨key, PartialEquivBEq.trans (PartialEquivBEq.symm hk) hk', List.mem_cons_self⟩⟩

/-- **Every section orders its stores safely.** -/
theorem enter (h : s.Ok) (hnil : s.todo = []) (sec : LockedSection K V) :
    Ok { s.enter sec with written := s.writes sec ++ s.written } := by
  cases sec with
  | upsertLocked key value expireAt sliding =>
    rcases hid : s.live.get key with _ | id
    · simp only [Race.enter, hid]
      exact h.begin_insert hnil [] fun _ ↦ List.mem_singleton.2 rfl
    · simp only [Race.enter, hid]
      -- the value is stored before the flag is cleared
      refine h.begin_todo hnil h.live ⟨h.fits_of_get hid value _, fun _ ↦ .inl rfl, ?_⟩
      cases sliding
      · exact ⟨nofun, trivial⟩
      · trivial
  | upsertWithAbsoluteExpiryLocked key value expireAt =>
    rcases hid : s.live.get key with _ | id
    · simp only [Race.enter, hid]
      exact h.begin_insert hnil [] fun _ ↦ List.mem_singleton.2 rfl
    · simp only [Race.enter, hid]
      exact h.begin_todo hnil h.live ⟨h.fits_of_get hid value _, fun _ ↦ .inl rfl, trivial⟩
  | replaceValueLocked key value =>
    rcases hid : s.live.get key with _ | id
    · simp only [Race.enter, writes, hid]
      exact h
    · simp only [Race.enter, writes, hid]
      exact h.begin_todo hnil h.live ⟨h.fits_of_get hid value _, trivial⟩
  | insertNegativeTombstoneLocked key expireAt =>
    rcases hid : s.live.get key with _ | id
    · simp only [Race.enter, hid]
      exact h.begin_insert hnil (l := []) [] nofun
    · simp only [Race.enter, hid]
      -- the zero value comes first, the flag is still to come
      exact h.begin_todo hnil (l := []) h.live ⟨by simp, by simp, trivial⟩
  | expiryFix key expireAt =>
    rcases hid : s.live.get key with _ | id
    · simp only [Race.enter, hid]
      exact h
    · simp only [Race.enter, hid]
      exact h.begin_todo hnil (l := []) h.live trivial
  | removeLocked key =>
    rcases hid : s.live.get key with _ | id
    · simp only [Race.enter, hid]
      exact h
    · simp only [Race.enter, hid]
      refine h.begin_todo hnil (l := []) (fun k i hi ↦ ?_) trivial
      rw [KeyMap.get_erase] at hi
      split_ifs at hi
      exact h.live k i hi
  | applySnapshot key value expireAt sliding =>
    exact h.begin_insert hnil _ fun _ ↦ List.mem_singleton.2 rfl
  | promoteReadMapLocked => exact h.begin_todo hnil (l := []) h.live ⟨h.live, trivial⟩
  | clear =>
    exact h.begin_todo hnil (l := []) nofun ((safe_invalidate _).2 ⟨nofun, trivial⟩)

end Equiv

/-- One reader moves on. -/
theorem setReader [DecidableEq R] (h : s.Ok) {r : R} (hg : s.ReaderOk g) :
    Ok { s with readers := Function.update s.readers r g } := by
  have hk : Keeps s { s with readers := Function.update s.readers r g } :=
    ⟨fun _ c hc ↦ ⟨c, hc, rfl⟩, List.Subset.refl _⟩
  refine ⟨h.live, h.read, hk.safe (fun _ hi ↦ hi) h.safe, h.shown, fun r' ↦ ?_⟩
  have hr' : s.ReaderOk (Function.update s.readers r g r') := by
    rcases eq_or_ne r' r with rfl | hne
    · rwa [Function.update_self]
    · rw [Function.update_of_ne hne]
      exact h.readers r'
  exact hr'.mono hk fun _ _ hs ↦ hs

/-- **One load of a reader.** Only the load of the flag makes it trust an object. -/
theorem look (h : s.Ok) (declines : Bool) (hg : s.ReaderOk g)
    (hapart : ∀ key id, g = .negative key id → s.Blanking id → s.Fits id default) :
    s.ReaderOk (s.look declines g) := by
  cases g with
  | load key now =>
    simp only [Race.look]
    split
    · split_ifs <;> exact ⟨nofun, nofun, nofun⟩
    · next id hid => exact ⟨by rintro _ _ ⟨rfl, rfl⟩; exact h.read key id hid, nofun, nofun⟩
  | invalidated key now id =>
    simp only [Race.look]
    split_ifs
    · exact ⟨hg.points, nofun, nofun⟩
    · exact ⟨nofun, nofun, nofun⟩
  | expired key now id =>
    simp only [Race.look]
    split_ifs
    · exact ⟨hg.points, nofun, nofun⟩
    · exact ⟨nofun, nofun, nofun⟩
  | negative key id =>
    simp only [Race.look]
    split_ifs with hn
    · refine ⟨hg.points, ?_, nofun⟩
      rintro _ rfl
      obtain ⟨c, hc, hneg⟩ := (Option.any_eq_true _ _).1 hn
      rcases h.shown id c hc (by simpa using hneg) with hs | ⟨hb, hv⟩
      · exact ⟨c, hc, hs⟩
      · exact ⟨c, hc, hv ▸ (hapart key id rfl hb).under hc⟩
    · exact ⟨nofun, nofun, nofun⟩
  | sliding key id =>
    simp only [Race.look]
    split_ifs
    · exact ⟨hg.points, hg.trusted, nofun⟩
    · exact ⟨nofun, nofun, nofun⟩
  | promotion key id =>
    cases declines
    · exact ⟨hg.points, hg.trusted, nofun⟩
    · exact ⟨nofun, nofun, nofun⟩
  | value key id =>
    simp only [Race.look]
    split
    · next c hc =>
      refine ⟨nofun, nofun, ?_⟩
      rintro _ _ ⟨rfl, rfl⟩
      obtain ⟨c₁, hc₁, hk⟩ := hg.points key id ⟨rfl, rfl⟩
      obtain ⟨c₂, hc₂, hs⟩ := hg.trusted id rfl
      obtain rfl : c₁ = c := Option.some.inj (hc₁.symm.trans hc)
      obtain rfl : c₂ = c₁ := Option.some.inj (hc₂.symm.trans hc)
      exact hs key hk
    · exact ⟨nofun, nofun, nofun⟩
  | idle | hit | miss | fallThrough => exact hg

end Ok

theorem ok_start : Ok (start : Race R K V) :=
  ⟨nofun, nofun, trivial, nofun, fun _ ↦ ⟨nofun, nofun, nofun⟩⟩

variable [PartialEquivBEq K] [DecidableEq R]

theorem Ok.step {a : Act R K V} (h : s.Ok) (ha : s.Apart a) : (s.step a).Ok := by
  cases a with
  | enter sec =>
    rcases hnil : s.todo with _ | ⟨st, rest⟩
    · simp only [Race.step, hnil]
      exact h.enter hnil sec
    · simp only [Race.step, hnil]
      exact h
  | store =>
    rcases hst : s.todo with _ | ⟨st, rest⟩
    · simp only [Race.step, hst]
      exact h
    · simp only [Race.step, hst]
      refine h.store hst ?_
      rintro id rfl
      exact ha id rest hst
  | get r key now => exact h.setReader ⟨nofun, nofun, nofun⟩
  | look r declines => exact h.setReader (h.look declines (h.readers r) ha)

/-- **A lock-free hit returns a value that was stored under its key**, in whatever order the loads of
any number of readers fall among the stores of the writers, as long as no entry is blanked for a
tombstone between a reader's load of its flag and of its value, nor between the tombstone's stores. -/
theorem hitsStored_of_apart {l : List (Act R K V)} (hl : Runs.Along Race.step Apart start l) :
    (l.foldl Race.step start).HitsStored :=
  fun r ↦ ((hl.invariant (I := Ok) (fun _ _ ha h ↦ h.step ha) ok_start).readers r).hit

end Race

/-- A reader that runs before the key's entry becomes a tombstone. -/
def readThenBlank : List (Race.Act Unit ℕ ℕ) :=
  [.enter (.upsertLocked 1 7 0 false), .store, .enter .promoteReadMapLocked, .store,
    .get () 1 5, .look () false, .look () false, .look () false, .look () false, .look () false,
    .look () false, .look () false,
    .enter (.insertNegativeTombstoneLocked 1 9), .store, .store, .store]

theorem hitsStored_of_apart_seven :
    ((readThenBlank.foldl Race.step .start).readers () = .hit 1 7) ∧
      (readThenBlank.foldl Race.step .start).HitsStored := by
  refine ⟨by decide +kernel, Race.hitsStored_of_apart ?_⟩
  exact ⟨trivial, nofun, trivial, nofun, trivial, nofun, nofun, nofun, nofun, nofun, nofun, nofun,
    trivial, fun _ _ _ ↦ .inr nofun, nofun, nofun, trivial⟩

/-- The same steps with the reader's last load after the tombstone's first store. -/
def blankWhileReading : List (Race.Act Unit ℕ ℕ) :=
  [.enter (.upsertLocked 1 7 0 false), .store, .enter .promoteReadMapLocked, .store,
    .get () 1 5, .look () false, .look () false, .look () false, .look () false, .look () false,
    .look () false,
    .enter (.insertNegativeTombstoneLocked 1 9), .store, .look () false, .store, .store]

theorem hit_zero_while_blanking :
    (blankWhileReading.foldl Race.step .start).readers () = .hit 1 0 ∧
      ¬ (blankWhileReading.foldl Race.step .start).HitsStored := by
  have hhit : (blankWhileReading.foldl Race.step .start).readers () = .hit 1 0 := by decide +kernel
  have hwritten : (blankWhileReading.foldl Race.step .start).written = [(1, 7)] := by decide +kernel
  refine ⟨hhit, fun h ↦ ?_⟩
  obtain ⟨k, -, hmem⟩ := h () 1 0 hhit
  rw [hwritten] at hmem
  simp at hmem

end Memcache

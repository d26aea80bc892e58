import Memcache.Policy.Recency
import Mathlib.Data.Nat.Log

/-!
# The `W-TinyLFU` policy

Three `LRU` lists. New entries enter `Window`; what falls out of it competes, by the frequencies a
count-min sketch remembers, with the tail of `Probationary`; a hit there moves an entry to
`Protected`. `Victim` works only while a list exceeds its budget, and `shed` is the way to give up
an entry when none does, in the order `Probationary`, `Window`, `Protected`.

The sketch is the source's: rows of 4-bit counters, two to a byte, updated conservatively.
-/

namespace Memcache

open NodeList (ident_of_lookup mem_of_lookup lookup unlink)

/-! ### The count-min sketch -/

/-- The finaliser that spreads a hash over a row. -/
def mixUint64 (x : UInt64) : UInt64 :=
  let x := (x ^^^ (x >>> 30)) * 0xbf58476d1ce4e5b9
  let x := (x ^^^ (x >>> 27)) * 0x94d049bb133111eb
  x ^^^ (x >>> 31)

/-- A count-min sketch with 4-bit counters. -/
structure CountMinSketch where
  rows : List (List UInt8)
  mask : UInt64
  seeds : List UInt64
deriving DecidableEq, Repr

namespace CountMinSketch

/-- Number of rows. -/
def depth : ℕ := 4

/-- The seeds used when the caller supplies too few. -/
def defaultSeeds : List UInt64 :=
  (List.range depth).map fun i ↦ mixUint64 (0xa3f7c1d2e8b95406 + i.toUInt64)

/-- Counters per row: the least power of two that is at least `64` and ten per expected key. -/
def widthFor (expected : ℕ) : ℕ :=
  2 ^ Nat.clog 2 (max (expected * 10) 64)

def new (expected : ℕ) (seeds : List UInt64) : CountMinSketch where
  rows := List.replicate depth (List.replicate (widthFor expected / 2) 0)
  mask := (widthFor expected - 1).toUInt64
  seeds := (if seeds.length < depth then defaultSeeds else seeds).take depth

/-- The counter at a column of a row. -/
def read (row : List UInt8) (col : UInt64) : UInt8 :=
  let b := row.getD (col / 2).toNat 0
  if col &&& 1 = 0 then b &&& 0x0f else (b >>> 4) &&& 0x0f

/-- The row with a counter replaced. -/
def write (row : List UInt8) (col : UInt64) (v : UInt8) : List UInt8 :=
  let b := row.getD (col / 2).toNat 0
  row.set (col / 2).toNat
    (if col &&& 1 = 0 then (b &&& (0xf0 : UInt8)) ||| (v &&& (0x0f : UInt8))
      else (b &&& (0x0f : UInt8)) ||| ((v &&& (0x0f : UInt8)) <<< 4))

/-- The columns of a hash, one per row. -/
def columns (c : CountMinSketch) (h : UInt64) : List UInt64 :=
  c.seeds.map fun seed ↦ mixUint64 (h ^^^ seed) &&& c.mask

def estimate (c : CountMinSketch) (h : UInt64) : UInt8 :=
  (List.zipWith read c.rows (c.columns h)).foldl min 15

def increment (c : CountMinSketch) (h : UInt64) : CountMinSketch :=
  if 15 ≤ c.estimate h then c
  else { c with
    rows := List.zipWith (fun row col ↦
      if read row col = c.estimate h then write row col (read row col + 1) else row)
      c.rows (c.columns h) }

/-- Halve both counters of a byte. -/
def halve (b : UInt8) : UInt8 :=
  ((b &&& (0xf0 : UInt8)) >>> 1 &&& (0xf0 : UInt8)) ||| ((b &&& (0x0f : UInt8)) >>> 1)

def reset (c : CountMinSketch) : CountMinSketch :=
  { c with rows := c.rows.map fun row ↦ row.map halve }

end CountMinSketch

/-! ### The policy -/

/-- The `W-TinyLFU` policy. The three lists have their most recently used entry first. -/
structure TinyLfu (K : Type*) where
  window : List (Ref K)
  windowBudget : ℕ
  protect : List (Ref K)
  protectedBudget : ℕ
  probationary : List (Ref K)
  probationaryBudget : ℕ
  sketch : CountMinSketch
  ops : ℕ
  ageThreshold : ℕ
deriving DecidableEq, Repr

/-- The budgets of `Window`, `Protected` and `Probationary` for a shard budget. -/
def tinyLFUSplitBudget (budget : ℕ) : ℕ × ℕ × ℕ :=
  if budget = 0 then (0, 0, 0)
  else
    let window := if budget ≤ max (budget / 100) 1 then 1 else max (budget / 100) 1
    let main := max (budget - window) 1
    let share := max (main * 80 / 100) 1
    let share := if main ≤ share then max (main - 1) 1 else share
    (window, share, max (main - share) 1)

/-- How many operations the sketch counts before it is aged. -/
def tinyLFUAgeThreshold (budget : ℕ) : ℕ :=
  if budget = 0 then 128 else 2 * budget

namespace TinyLfu

variable {K : Type*}

def new (budget : ℕ) : TinyLfu K where
  window := []
  windowBudget := (tinyLFUSplitBudget budget).1
  protect := []
  protectedBudget := (tinyLFUSplitBudget budget).2.1
  probationary := []
  probationaryBudget := (tinyLFUSplitBudget budget).2.2
  sketch := .new (max budget 64) []
  ops := 0
  ageThreshold := tinyLFUAgeThreshold budget

def tracked (p : TinyLfu K) : List (Ref K) :=
  p.window ++ (p.protect ++ p.probationary)

def setBudget (p : TinyLfu K) (budget : ℕ) : TinyLfu K :=
  { p with
    windowBudget := (tinyLFUSplitBudget budget).1
    protectedBudget := (tinyLFUSplitBudget budget).2.1
    probationaryBudget := (tinyLFUSplitBudget budget).2.2
    ageThreshold := tinyLFUAgeThreshold budget }

/-- Count an operation on a key, ageing the sketch when due. -/
def observe (p : TinyLfu K) (h : UInt64) : TinyLfu K :=
  if p.ageThreshold ≤ p.ops + 1 then
    { p with sketch := (p.sketch.increment h).reset, ops := 0 }
  else { p with sketch := p.sketch.increment h, ops := p.ops + 1 }

def onInsert (hash : K → UInt64) (p : TinyLfu K) (e : Ref K) : TinyLfu K :=
  observe { p with window := e :: p.window } (hash e.key)

/-- Move entries from the tail of `Protected` to the head of `Probationary` until `Protected` is
within its budget. -/
def demoteProtected (budget : ℕ) (l probationary : List (Ref K)) : List (Ref K) × List (Ref K) :=
  (l.take budget, l.drop budget ++ probationary)

/-- The moves of `OnAccess`, before the sketch is updated. -/
def touch (p : TinyLfu K) (id : ℕ) : TinyLfu K :=
  match lookup Ref.id id p.window with
  | some n => { p with window := n :: unlink Ref.id id p.window }
  | none =>
    match lookup Ref.id id p.protect with
    | some n => { p with protect := n :: unlink Ref.id id p.protect }
    | none =>
      match lookup Ref.id id p.probationary with
      | some n => { p with
          protect := (demoteProtected p.protectedBudget (n :: p.protect)
            (unlink Ref.id id p.probationary)).1
          probationary := (demoteProtected p.protectedBudget (n :: p.protect)
            (unlink Ref.id id p.probationary)).2 }
      | none => p

def onAccess (hash : K → UInt64) (p : TinyLfu K) (id : ℕ) : TinyLfu K :=
  match lookup Ref.id id p.tracked with
  | none => p
  | some n => (p.touch id).observe (hash n.key)

def onRemove (p : TinyLfu K) (id : ℕ) : TinyLfu K :=
  { p with
    window := unlink Ref.id id p.window
    protect := unlink Ref.id id p.protect
    probationary := unlink Ref.id id p.probationary }

/-- The admission step for an entry at the tail of an over-full `Window`: it enters `Probationary`
when there is room, and otherwise competes with that list's tail by frequency. -/
def handleWindowDemotion (hash : K → UInt64) (p : TinyLfu K) (candidate : Ref K) :
    Option (Ref K) × TinyLfu K :=
  if p.probationary.length < p.probationaryBudget then
    (none, { p with window := p.window.dropLast, probationary := candidate :: p.probationary })
  else
    match p.probationary.getLast? with
    | none => (some candidate, { p with window := p.window.dropLast })
    | some v =>
      if p.sketch.estimate (hash v.key) < p.sketch.estimate (hash candidate.key) then
        (some v, { p with
          window := p.window.dropLast, probationary := candidate :: p.probationary.dropLast })
      else (some candidate, { p with window := p.window.dropLast })

/-- The tail of the first non-empty list, in the order `Probationary`, `Window`, `Protected`. -/
def shed (p : TinyLfu K) : Option (Ref K) × TinyLfu K :=
  match p.probationary.getLast?, p.window.getLast?, p.protect.getLast? with
  | some n, _, _ => (some n, { p with probationary := p.probationary.dropLast })
  | none, some n, _ => (some n, { p with window := p.window.dropLast })
  | none, none, some n => (some n, { p with protect := p.protect.dropLast })
  | none, none, none => (none, p)

/-- The loop of `Victim`, for at most `passes` passes; running out falls back to `shed`. -/
def settle (hash : K → UInt64) : ℕ → TinyLfu K → Option (Ref K) × TinyLfu K
  | 0, p => p.shed
  | passes + 1, p =>
    match (if p.windowBudget < p.window.length then p.window.getLast? else none) with
    | some candidate =>
      match p.handleWindowDemotion hash candidate with
      | (some v, q) => (some v, q)
      | (none, q) => settle hash passes q
    | none =>
      match (if p.probationaryBudget < p.probationary.length then p.probationary.getLast?
        else none) with
      | some n => (some n, { p with probationary := p.probationary.dropLast })
      | none =>
        match (if p.protectedBudget < p.protect.length then p.protect.getLast? else none) with
        | some n => settle hash passes
            { p with protect := p.protect.dropLast, probationary := n :: p.probationary }
        | none => (none, p)

def victim (hash : K → UInt64) (p : TinyLfu K) : Option (Ref K) × TinyLfu K :=
  p.settle hash (p.window.length + p.protect.length + p.probationary.length + 1)

/-- Clearing the policy halves the sketch; it does not empty it. -/
def reset (p : TinyLfu K) : TinyLfu K :=
  { p with window := [], protect := [], probationary := [], sketch := p.sketch.reset, ops := 0 }

/-! ### What does not depend on the entries seen -/

/-- The policy without its entries and with an empty sketch: its budgets. -/
def blank (p : TinyLfu K) : TinyLfu K :=
  { p.reset with sketch := .new 0 [] }

@[simp] theorem blank_observe (p : TinyLfu K) (h : UInt64) : (p.observe h).blank = p.blank := by
  unfold observe
  split <;> rfl

theorem blank_onInsert (hash : K → UInt64) (p : TinyLfu K) (e : Ref K) :
    (p.onInsert hash e).blank = p.blank := by
  rw [onInsert, blank_observe]
  rfl

theorem blank_onAccess (hash : K → UInt64) (p : TinyLfu K) (id : ℕ) :
    (p.onAccess hash id).blank = p.blank := by
  have ht : (p.touch id).blank = p.blank := by
    unfold touch
    split
    · rfl
    · split
      · rfl
      · split <;> rfl
  unfold onAccess
  split
  · rfl
  · rw [blank_observe, ht]

theorem blank_shed (p : TinyLfu K) : p.shed.2.blank = p.blank := by
  unfold shed
  split <;> rfl

theorem blank_handleWindowDemotion (hash : K → UInt64) (p : TinyLfu K) (candidate : Ref K) :
    (p.handleWindowDemotion hash candidate).2.blank = p.blank := by
  unfold handleWindowDemotion
  split
  · rfl
  · split
    · rfl
    · split <;> rfl

theorem blank_settle (hash : K → UInt64) (passes : ℕ) (p : TinyLfu K) :
    (p.settle hash passes).2.blank = p.blank := by
  induction passes generalizing p with
  | zero => exact p.blank_shed
  | succ passes ih =>
    unfold settle
    split
    · next candidate _ =>
      have hq := p.blank_handleWindowDemotion hash candidate
      split
      · next h => rwa [h] at hq
      · next h =>
        rw [h] at hq
        exact (ih _).trans hq
    · split
      · rfl
      · split
        · exact ih _
        · rfl

/-! ### Budgets -/

/-- The lists' budgets are the shares of a shard budget. -/
def Fitted (budget : ℕ) (p : TinyLfu K) : Prop :=
  p.windowBudget = (tinyLFUSplitBudget budget).1 ∧
    p.protectedBudget = (tinyLFUSplitBudget budget).2.1 ∧
    p.probationaryBudget = (tinyLFUSplitBudget budget).2.2

section

variable {budget : ℕ} {p : TinyLfu K} (hp : p.Fitted budget)
include hp

theorem Fitted.observe (h : UInt64) : (p.observe h).Fitted budget := by
  unfold TinyLfu.observe
  split <;> exact hp

theorem Fitted.onAccess (hash : K → UInt64) (id : ℕ) : (p.onAccess hash id).Fitted budget := by
  have ht : (p.touch id).Fitted budget := by
    unfold touch
    split
    · exact hp
    · split
      · exact hp
      · split <;> exact hp
  unfold TinyLfu.onAccess
  split
  · exact hp
  · exact ht.observe _

theorem Fitted.shed : p.shed.2.Fitted budget := by
  unfold TinyLfu.shed
  split <;> exact hp

theorem Fitted.handleWindowDemotion (hash : K → UInt64) (candidate : Ref K) :
    (p.handleWindowDemotion hash candidate).2.Fitted budget := by
  unfold TinyLfu.handleWindowDemotion
  split
  · exact hp
  · split
    · exact hp
    · split <;> exact hp

theorem Fitted.settle (hash : K → UInt64) (passes : ℕ) : (p.settle hash passes).2.Fitted budget := by
  induction passes generalizing p with
  | zero => exact hp.shed
  | succ passes ih =>
    unfold TinyLfu.settle
    split
    · next candidate _ =>
      have hq := hp.handleWindowDemotion hash candidate
      split
      · next h => rwa [h] at hq
      · next h =>
        rw [h] at hq
        exact ih hq
    · split
      · exact hp
      · split
        · exact ih hp
        · exact hp

end

/-! ### What it tracks -/

variable {p : TinyLfu K} {hash : K → UInt64}

@[simp] theorem tracked_observe (p : TinyLfu K) (h : UInt64) :
    (p.observe h).tracked = p.tracked := by
  unfold observe
  split <;> rfl

@[simp] theorem tracked_onInsert (p : TinyLfu K) (e : Ref K) :
    (p.onInsert hash e).tracked = e :: p.tracked := by
  rw [onInsert, tracked_observe]
  rfl

theorem tracked_touch (id : ℕ) (hp : NodeList.Distinct Ref.id p.tracked) :
    (p.touch id).tracked.Perm p.tracked := by
  have hw := hp.of_append_left
  have hr := hp.of_append_right.of_append_left
  have hb := hp.of_append_right.of_append_right
  unfold touch
  split
  · next n hn =>
    obtain rfl := ident_of_lookup hn
    exact (hw.perm_cons_unlink (mem_of_lookup hn)).symm.append_right _
  · split
    · next n hn =>
      obtain rfl := ident_of_lookup hn
      have := (hr.perm_cons_unlink (mem_of_lookup hn)).symm
      exact (this.append_right _).append_left _
    · split
      · next n hn =>
        obtain rfl := ident_of_lookup hn
        have := (hb.perm_cons_unlink (mem_of_lookup hn)).symm
        simp only [tracked, demoteProtected, ← List.append_assoc, List.take_append_drop]
        simp only [List.append_assoc, List.cons_append]
        exact ((List.perm_middle.symm).trans (this.append_left _)).append_left _
      · exact .refl _

theorem tracked_onAccess (id : ℕ) (hp : NodeList.Distinct Ref.id p.tracked) :
    (p.onAccess hash id).tracked.Perm p.tracked := by
  unfold onAccess
  split
  · exact .refl _
  · simpa using tracked_touch id hp

theorem tracked_onRemove (p : TinyLfu K) (id : ℕ) :
    (p.onRemove id).tracked = unlink Ref.id id p.tracked := by
  simp [tracked, onRemove]

/-! ### Choosing a victim -/

theorem perm_dropLast {l : List (Ref K)} {n : Ref K} (h : l.getLast? = some n) :
    l.Perm (n :: l.dropLast) := by
  conv_lhs => rw [← List.dropLast_append_getLast? n h]
  exact List.perm_append_singleton ..

theorem tracked_perm_window {n : Ref K} (h : p.window.getLast? = some n) :
    p.tracked.Perm (n :: (p.window.dropLast ++ (p.protect ++ p.probationary))) :=
  (perm_dropLast h).append_right _

theorem tracked_perm_protected {n : Ref K} (h : p.protect.getLast? = some n) :
    p.tracked.Perm (n :: (p.window ++ (p.protect.dropLast ++ p.probationary))) :=
  (((perm_dropLast h).append_right _).append_left _).trans List.perm_middle

theorem tracked_perm_probationary {n : Ref K} (h : p.probationary.getLast? = some n) :
    p.tracked.Perm (n :: (p.window ++ (p.protect ++ p.probationary.dropLast))) := by
  have := ((perm_dropLast h).append_left p.protect).trans List.perm_middle
  exact (this.append_left p.window).trans List.perm_middle

theorem picks_shed (p : TinyLfu K) : Picks p.tracked p.shed.2.tracked p.shed.1 := by
  unfold shed
  split
  · next n h => exact .of_perm_cons (tracked_perm_probationary h)
  · next n _ h => exact .of_perm_cons (tracked_perm_window h)
  · next n _ _ h => exact .of_perm_cons (tracked_perm_protected h)
  · exact .refl _

theorem shed_ne_none (h : p.tracked ≠ []) : p.shed.1 ≠ none := by
  unfold shed
  split
  · simp
  · simp
  · simp
  · next h₁ h₂ h₃ =>
    simp only [List.getLast?_eq_none_iff] at h₁ h₂ h₃
    simp [tracked, h₁, h₂, h₃] at h

theorem picks_handleWindowDemotion {candidate : Ref K} (h : p.window.getLast? = some candidate) :
    Picks p.tracked (p.handleWindowDemotion hash candidate).2.tracked
      (p.handleWindowDemotion hash candidate).1 := by
  have hw := tracked_perm_window h
  have hin : (p.window.dropLast ++ (p.protect ++ candidate :: p.probationary)).Perm p.tracked := by
    refine .trans ?_ hw.symm
    exact ((List.perm_middle).append_left _).trans List.perm_middle
  unfold handleWindowDemotion
  split
  · exact hin
  · split
    · exact .of_perm_cons hw
    · next v hv =>
      split
      · -- the tail leaves as the candidate enters
        refine .of_perm_cons (hin.symm.trans ?_)
        have := (((perm_dropLast hv).cons candidate).trans (.swap ..)).append_left p.protect
        exact ((this.trans List.perm_middle).append_left _).trans List.perm_middle
      · exact .of_perm_cons hw

theorem picks_settle (passes : ℕ) (p : TinyLfu K) :
    Picks p.tracked (p.settle hash passes).2.tracked (p.settle hash passes).1 := by
  induction passes generalizing p with
  | zero => exact p.picks_shed
  | succ passes ih =>
    unfold settle
    split
    · next candidate h =>
      split_ifs at h
      have hpick : Picks p.tracked (p.handleWindowDemotion hash candidate).2.tracked
          (p.handleWindowDemotion hash candidate).1 := picks_handleWindowDemotion h
      split
      · next v q hq => simpa only [hq] using hpick
      · next q hq =>
        rw [hq] at hpick
        exact .of_perm hpick (ih q)
    · split
      · next n h =>
        split_ifs at h
        exact .of_perm_cons (tracked_perm_probationary h)
      · split
        · next n h =>
          split_ifs at h
          refine .of_perm ((tracked_perm_protected h).trans ?_).symm (ih _)
          exact ((List.perm_middle.append_left _).trans List.perm_middle).symm
        · exact .refl _

theorem picks_victim (p : TinyLfu K) :
    Picks p.tracked (p.victim hash).2.tracked (p.victim hash).1 :=
  picks_settle _ p

end TinyLfu

end Memcache

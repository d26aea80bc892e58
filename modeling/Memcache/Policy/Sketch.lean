import Memcache.Lib.CountMin
import Memcache.Policy.TinyLfu
import Mathlib.Data.Fintype.Basic
import Mathlib.Data.List.GetD
import Mathlib.Tactic.IntervalCases

/-!
# What the sketch promises

`CountMinSketch` keeps two 4-bit counters to a byte. Reading it cell by cell (`cells`) gives a
count-min table with a counter of its own for every row and column, and the packed operations are the
table's: writing a counter leaves its neighbour in the byte alone (`read_write`), and halving a byte
halves each counter in it (`read_halve`). So the estimate is the table's, never below the aged count of
a hash and never above `15`.
-/

namespace Memcache.CountMinSketch

open CountMin (Op)

/-! ### The two counters of a byte -/

section Byte

variable (b v : UInt8)

theorem low_setLow : (b &&& (0xf0 : UInt8) ||| (v &&& (0x0f : UInt8))) &&& (0x0f : UInt8) =
    v &&& (0x0f : UInt8) := by
  apply UInt8.toBitVec_inj.1
  ext i hi
  interval_cases i <;> simp

theorem high_setLow : (b &&& (0xf0 : UInt8) ||| (v &&& (0x0f : UInt8))) >>> 4 &&& (0x0f : UInt8) =
    b >>> 4 &&& (0x0f : UInt8) := by
  apply UInt8.toBitVec_inj.1
  ext i hi
  interval_cases i <;> simp

theorem low_setHigh :
    (b &&& (0x0f : UInt8) ||| ((v &&& (0x0f : UInt8)) <<< 4)) &&& (0x0f : UInt8) =
      b &&& (0x0f : UInt8) := by
  apply UInt8.toBitVec_inj.1
  ext i hi
  interval_cases i <;> simp

theorem high_setHigh :
    (b &&& (0x0f : UInt8) ||| ((v &&& (0x0f : UInt8)) <<< 4)) >>> 4 &&& (0x0f : UInt8) =
      v &&& (0x0f : UInt8) := by
  apply UInt8.toBitVec_inj.1
  ext i hi
  interval_cases i <;> simp

theorem low_halve : halve b &&& (0x0f : UInt8) = (b &&& (0x0f : UInt8)) >>> 1 := by
  rw [halve]
  apply UInt8.toBitVec_inj.1
  ext i hi
  interval_cases i <;> simp

theorem high_halve : halve b >>> 4 &&& (0x0f : UInt8) = (b >>> 4 &&& (0x0f : UInt8)) >>> 1 := by
  rw [halve]
  apply UInt8.toBitVec_inj.1
  ext i hi
  interval_cases i <;> simp

theorem toNat_shiftRight_one : (b >>> 1).toNat = b.toNat / 2 := by
  simp [Nat.shiftRight_eq_div_pow]

theorem toNat_succ_of_lt {v : UInt8} (hv : v.toNat < 15) : (v + 1).toNat = v.toNat + 1 := by
  rw [UInt8.toNat_add]
  exact Nat.mod_eq_of_lt (Nat.lt_of_le_of_lt (Nat.succ_le_of_lt hv) (by decide))

/-- A counter that fits in four bits is stored as it is. -/
theorem and_low_of_le (hv : v.toNat ≤ 15) : v &&& (0x0f : UInt8) = v := by
  apply UInt8.toNat_inj.1
  rw [UInt8.toNat_and]
  exact (Nat.and_two_pow_sub_one_eq_mod v.toNat 4).trans (Nat.mod_eq_of_lt (by omega))

end Byte

/-- Columns of one byte and of one parity are the same column. -/
theorem col_ext {col col' : UInt64} (hbyte : col / 2 = col' / 2)
    (hpar : col &&& 1 = 0 ↔ col' &&& 1 = 0) : col = col' := by
  apply UInt64.toNat_inj.1
  have hbyte := congrArg UInt64.toNat hbyte
  simp only [← UInt64.toNat_inj, UInt64.toNat_and, UInt64.toNat_div] at hbyte hpar
  simp [Nat.and_one_is_mod] at hbyte hpar
  omega

/-! ### A row -/

section Row

variable {row : List UInt8} {col col' : UInt64} {v : UInt8}

/-- **Writing a counter is writing a cell**: the counter it shares its byte with keeps its value. -/
theorem read_write (hcol : (col / 2).toNat < row.length) (col' : UInt64) (v : UInt8) :
    read (write row col v) col' = if col' = col then v &&& 0x0f else read row col' := by
  by_cases hbyte : col' / 2 = col / 2
  · -- the byte that was written
    rw [read, write, hbyte, List.getD_eq_getElem?_getD, List.getElem?_set_self hcol, Option.getD_some]
    by_cases hpar : col &&& 1 = 0 <;> by_cases hpar' : col' &&& 1 = 0
    · rw [if_pos (col_ext hbyte (iff_of_true hpar' hpar)), if_pos hpar, if_pos hpar', low_setLow]
    · have hne : col' ≠ col := by rintro rfl; exact hpar' hpar
      rw [if_neg hne, if_pos hpar, if_neg hpar', high_setLow, read, hbyte, if_neg hpar']
    · have hne : col' ≠ col := by rintro rfl; exact hpar hpar'
      rw [if_neg hne, if_neg hpar, if_pos hpar', low_setHigh, read, hbyte, if_pos hpar']
    · rw [if_pos (col_ext hbyte (iff_of_false hpar' hpar)), if_neg hpar, if_neg hpar', high_setHigh]
  · have hne : col' ≠ col := by rintro rfl; exact hbyte rfl
    have hoff : (col / 2).toNat ≠ (col' / 2).toNat := fun h ↦ hbyte (UInt64.toNat_inj.1 h).symm
    rw [if_neg hne, read, write, List.getD_eq_getElem?_getD, List.getElem?_set_ne hoff,
      ← List.getD_eq_getElem?_getD, read]

/-- **Halving a row halves every cell.** -/
theorem read_halve (row : List UInt8) (col : UInt64) :
    (read (row.map halve) col).toNat = (read row col).toNat / 2 := by
  have hbyte : (row.map halve).getD (col / 2).toNat 0 = halve (row.getD (col / 2).toNat 0) := by
    rw [List.getD_eq_getElem?_getD, List.getD_eq_getElem?_getD, List.getElem?_map]
    cases row[(col / 2).toNat]? with
    | none => rfl
    | some b => rfl
  rw [read, read, hbyte]
  split_ifs
  · rw [low_halve, toNat_shiftRight_one]
  · rw [high_halve, toNat_shiftRight_one]

end Row

/-! ### The sketch as a table -/

/-- The counters of a sketch, one to a cell. -/
def cells (c : CountMinSketch) (i : Fin depth) (col : UInt64) : ℕ :=
  (read (c.rows.getD i []) col).toNat

/-- The column of a hash in a row. -/
def column (c : CountMinSketch) (i : Fin depth) (h : UInt64) : UInt64 :=
  mixUint64 (h ^^^ c.seeds.getD i 0) &&& c.mask

/-- A sketch with a row for each seed and a byte for every column. -/
structure Fits (c : CountMinSketch) : Prop where
  rows : c.rows.length = depth
  seeds : c.seeds.length = depth
  wide : ∀ row ∈ c.rows, c.mask.toNat / 2 < row.length

variable {c : CountMinSketch} {h : UInt64}

namespace Fits

theorem getD_mem (hc : c.Fits) (i : Fin depth) : c.rows.getD i [] ∈ c.rows := by
  have hi : (i : ℕ) < c.rows.length := i.2.trans_eq hc.rows.symm
  rw [List.getD_eq_getElem _ _ hi]
  exact List.getElem_mem hi

theorem column_lt (hc : c.Fits) (i : Fin depth) (h : UInt64) :
    (c.column i h / 2).toNat < (c.rows.getD i []).length := by
  have hle : (c.column i h).toNat ≤ c.mask.toNat := by
    rw [column, UInt64.toNat_and]
    exact Nat.and_le_right
  rw [UInt64.toNat_div]
  exact (Nat.div_le_div_right hle).trans_lt (hc.wide _ (hc.getD_mem i))

theorem getElem?_columns (hc : c.Fits) (i : Fin depth) (h : UInt64) :
    (c.columns h)[(i : ℕ)]? = some (c.column i h) := by
  have hi : (i : ℕ) < c.seeds.length := i.2.trans_eq hc.seeds.symm
  rw [columns, List.getElem?_map, List.getElem?_eq_getElem hi, column, List.getD_eq_getElem _ _ hi]
  rfl

theorem getElem?_rows (hc : c.Fits) (i : Fin depth) :
    c.rows[(i : ℕ)]? = some (c.rows.getD i []) := by
  have hi : (i : ℕ) < c.rows.length := i.2.trans_eq hc.rows.symm
  rw [List.getElem?_eq_getElem hi, List.getD_eq_getElem _ _ hi]

end Fits

theorem le_toNat_foldl_min {n : ℕ} (l : List UInt8) (b : UInt8) :
    n ≤ (l.foldl min b).toNat ↔ n ≤ b.toNat ∧ ∀ v ∈ l, n ≤ v.toNat := by
  induction l generalizing b with
  | nil => simp
  | cons v l ih =>
    have hmin : n ≤ (min b v).toNat ↔ n ≤ b.toNat ∧ n ≤ v.toNat := by
      change n ≤ (if b ≤ v then b else v).toNat ↔ _
      split_ifs with hbv <;> rw [UInt8.le_iff_toNat_le] at hbv
      · omega
      · omega
    rw [List.foldl_cons, ih, hmin, List.forall_mem_cons, and_assoc]

/-- **The estimate of a sketch is its table's.** -/
theorem toNat_estimate (hc : c.Fits) (h : UInt64) :
    (c.estimate h).toNat = CountMin.estimate 15 c.column c.cells h := by
  refine eq_of_forall_le_iff fun n ↦ ?_
  rw [estimate, le_toNat_foldl_min, CountMin.le_estimate]
  refine and_congr Iff.rfl ⟨fun hn i ↦ ?_, fun hn v hv ↦ ?_⟩
  · refine hn _ (List.mem_iff_getElem?.2 ⟨i, ?_⟩)
    rw [List.getElem?_zipWith, hc.getElem?_rows i, hc.getElem?_columns i h]
  · obtain ⟨i, hi⟩ := List.mem_iff_getElem?.1 hv
    have hlt : i < depth := by
      by_contra hge
      rw [List.getElem?_zipWith, List.getElem?_eq_none (hc.rows ▸ Nat.le_of_not_lt hge)] at hi
      cases hi
    rw [List.getElem?_zipWith, hc.getElem?_rows ⟨i, hlt⟩, hc.getElem?_columns ⟨i, hlt⟩ h] at hi
    exact Option.some.inj hi ▸ hn ⟨i, hlt⟩

theorem getElem?_increment (hc : c.Fits) (hlt : ¬ 15 ≤ c.estimate h) (i : Fin depth) :
    (c.increment h).rows[(i : ℕ)]? = some
      (if read (c.rows.getD i []) (c.column i h) = c.estimate h then
        write (c.rows.getD i []) (c.column i h) (read (c.rows.getD i []) (c.column i h) + 1)
      else c.rows.getD i []) := by
  rw [increment, if_neg hlt, List.getElem?_zipWith, hc.getElem?_rows i, hc.getElem?_columns i h]

/-- **An increment of the sketch is one of its table.** The columns of different rows are different
cells, so the order in which the rows are updated does not matter. -/
theorem cells_increment (hc : c.Fits) (h : UInt64) :
    (c.increment h).cells = CountMin.increment 15 c.column c.cells h := by
  have hest := toNat_estimate hc h
  by_cases hfull : 15 ≤ c.estimate h
  · have hfull' : 15 ≤ CountMin.estimate 15 c.column c.cells h :=
      hest ▸ UInt8.le_iff_toNat_le.1 hfull
    rw [increment, if_pos hfull, CountMin.increment, if_pos hfull']
  · have hfull' : ¬ 15 ≤ CountMin.estimate 15 c.column c.cells h :=
      fun hle ↦ hfull (UInt8.le_iff_toNat_le.2 (hest ▸ hle))
    rw [CountMin.increment, if_neg hfull']
    funext i col
    have hrow := getElem?_increment hc hfull i
    rw [cells, List.getD_eq_getElem?_getD, hrow, Option.getD_some]
    change _ = if col = c.column i h ∧ (read (c.rows.getD i []) col).toNat = _ then
      (read (c.rows.getD i []) col).toNat + 1 else (read (c.rows.getD i []) col).toNat
    rw [← hest]
    split_ifs with hread hcol hcol
    · -- the counter that is raised
      have hlt : (read (c.rows.getD i []) col).toNat < 15 := by
        rw [hcol.2]
        exact Nat.lt_of_not_le fun hle ↦ hfull (UInt8.le_iff_toNat_le.2 hle)
      rw [read_write (hc.column_lt i h), if_pos hcol.1, ← hcol.1]
      have hsucc := toNat_succ_of_lt hlt
      rw [and_low_of_le _ (by omega), hsucc]
    · have hne : col ≠ c.column i h := by
        rintro rfl
        exact hcol ⟨rfl, congrArg _ hread⟩
      rw [read_write (hc.column_lt i h), if_neg hne]
    · rw [hcol.1] at hcol
      exact absurd (UInt8.toNat_inj.1 hcol.2) hread
    · rfl

theorem cells_reset (c : CountMinSketch) : c.reset.cells = CountMin.age c.cells := by
  funext i col
  have hrow : c.reset.rows.getD i [] = (c.rows.getD i []).map halve := by
    rw [reset, List.getD_eq_getElem?_getD, List.getD_eq_getElem?_getD, List.getElem?_map]
    cases c.rows[(i : ℕ)]? with
    | none => rfl
    | some row => rfl
  rw [cells, hrow]
  exact read_halve _ _

/-! ### Histories -/

/-- One operation on the sketch. -/
def step (c : CountMinSketch) : Op UInt64 → CountMinSketch
  | .increment h => c.increment h
  | .age => c.reset

/-- The sketch after a history. -/
def run (c : CountMinSketch) (ops : List (Op UInt64)) : CountMinSketch :=
  ops.foldl step c

@[simp] theorem mask_step (c : CountMinSketch) (op : Op UInt64) : (c.step op).mask = c.mask := by
  cases op with
  | increment h =>
    rw [step, increment]
    split <;> rfl
  | age => rfl

@[simp] theorem seeds_step (c : CountMinSketch) (op : Op UInt64) : (c.step op).seeds = c.seeds := by
  cases op with
  | increment h =>
    rw [step, increment]
    split <;> rfl
  | age => rfl

theorem column_step (c : CountMinSketch) (op : Op UInt64) : (c.step op).column = c.column := by
  funext i h
  rw [column, column, mask_step, seeds_step]

theorem cells_step (hc : c.Fits) (op : Op UInt64) :
    (c.step op).cells = CountMin.step 15 c.column c.cells op := by
  cases op with
  | increment h => exact cells_increment hc h
  | age => exact cells_reset c

theorem length_write (row : List UInt8) (col : UInt64) (v : UInt8) :
    (write row col v).length = row.length := List.length_set

theorem Fits.step (hc : c.Fits) (op : Op UInt64) : (c.step op).Fits := by
  cases op with
  | increment h =>
    rw [CountMinSketch.step]
    by_cases hfull : 15 ≤ c.estimate h
    · rwa [increment, if_pos hfull]
    · have hcols : (c.columns h).length = depth := by rw [columns, List.length_map, hc.seeds]
      have hrows : (c.increment h).rows.length = depth := by
        rw [increment, if_neg hfull, List.length_zipWith, hc.rows, hcols, Nat.min_self]
      have hshape : (c.increment h).mask = c.mask ∧ (c.increment h).seeds = c.seeds :=
        ⟨mask_step c (.increment h), seeds_step c (.increment h)⟩
      refine ⟨hrows, hshape.2 ▸ hc.seeds, fun row hrow ↦ ?_⟩
      obtain ⟨i, hi, rfl⟩ := List.mem_iff_getElem.1 hrow
      have hget := getElem?_increment hc hfull ⟨i, hi.trans_eq hrows⟩
      rw [List.getElem?_eq_getElem hi] at hget
      rw [hshape.1, Option.some.inj hget]
      split
      · exact (hc.wide _ (hc.getD_mem _)).trans_eq (length_write _ _ _).symm
      · exact hc.wide _ (hc.getD_mem _)
  | age =>
    refine ⟨(List.length_map _).trans hc.rows, hc.seeds, ?_⟩
    intro row hrow
    obtain ⟨old, hold, rfl⟩ := List.mem_map.1 hrow
    exact (hc.wide old hold).trans_eq (List.length_map _).symm

/-- **The sketch runs as its table does**, after any history. -/
theorem cells_run (hc : c.Fits) (ops : List (Op UInt64)) :
    (c.run ops).Fits ∧ (c.run ops).column = c.column ∧
      (c.run ops).cells = ops.foldl (CountMin.step 15 c.column) c.cells := by
  induction ops generalizing c with
  | nil => exact ⟨hc, rfl, rfl⟩
  | cons op ops ih =>
    obtain ⟨hfits, hcol, hcells⟩ := ih (hc.step op)
    refine ⟨hfits, hcol.trans (column_step c op), hcells.trans ?_⟩
    rw [column_step, cells_step hc, List.foldl_cons]

theorem fits_new (expected : ℕ) (seeds : List UInt64) : (new expected seeds).Fits where
  rows := List.length_replicate
  seeds := by
    rw [new, List.length_take]
    split
    · rfl
    · omega
  wide := by
    intro row hrow
    rw [List.eq_of_mem_replicate hrow, List.length_replicate]
    have hmask : (new expected seeds).mask.toNat ≤ widthFor expected - 1 := by
      change (widthFor expected - 1) % 2 ^ 64 ≤ _
      exact Nat.mod_le _ _
    have hwide : 64 ≤ widthFor expected :=
      (le_max_right _ _).trans (Nat.le_pow_clog one_lt_two _)
    have heven : widthFor expected % 2 = 0 := by
      rw [widthFor]
      have hclog : 0 < Nat.clog 2 (max (expected * 10) 64) :=
        Nat.clog_pos one_lt_two (by omega)
      exact Nat.mod_eq_zero_of_dvd (dvd_pow_self 2 hclog.ne')
    omega

/-- The sketch that `new` builds, after any history of increments and resets. -/
theorem estimate_run (expected : ℕ) (seeds : List UInt64) (ops : List (Op UInt64)) :
    -- an estimate is at least the aged count of the hash, and a 4-bit number
    (∀ h, ops.foldl (CountMin.agedCount 15 h) 0 ≤ (((new expected seeds).run ops).estimate h).toNat ∧
      (((new expected seeds).run ops).estimate h).toNat ≤ 15) ∧
    -- an increment lowers no counter
    (∀ h i col, ((new expected seeds).run ops).cells i col ≤
      (((new expected seeds).run ops).increment h).cells i col) ∧
    -- a counter is written, and a byte halved, as if every counter had a cell to itself
    (∀ row ∈ ((new expected seeds).run ops).rows, ∀ col ≤ ((new expected seeds).run ops).mask,
      ∀ col' v, read (write row col v) col' = if col' = col then v &&& 0x0f else read row col') ∧
    (∀ row ∈ ((new expected seeds).run ops).rows, ∀ col,
      (read (row.map halve) col).toNat = (read row col).toNat / 2) := by
  obtain ⟨hfits, hcol, hcells⟩ := cells_run (fits_new expected seeds) ops
  refine ⟨fun h ↦ ?_, fun h i col ↦ ?_, fun row hrow col hle col' v ↦ ?_, fun row _ col ↦ ?_⟩
  · rw [toNat_estimate hfits, hcol, hcells]
    exact ⟨CountMin.agedCount_le_estimate (Nat.zero_le _) ops, CountMin.estimate_le_cap⟩
  · rw [cells_increment hfits]
    exact CountMin.le_increment i col
  · refine read_write ?_ col' v
    rw [UInt64.toNat_div]
    exact (Nat.div_le_div_right hle).trans_lt (hfits.wide row hrow)
  · exact read_halve row col

end Memcache.CountMinSketch

import Pasifika.NippyJar.Rows

/-! # Healing a jar

A writer that stops between two changes of its files leaves a jar whose data, offsets and
configuration do not agree. `ensure_consistency` compares the size of the offsets file
with the number of rows, and the last offset with the size of the data, and cuts what is
too long. An offsets file that was cut to nothing is not healed. -/

namespace NippyJar

open Layout Option Nat Bool
open List (append_assoc append_nil flatten_append length_append length_cons length_map length_nil
  length_singleton length_take map_take take_append take_left take_length take_nil take_zero)

/-- `OFFSET_SIZE_BYTES`. -/
def offsetSizeBytes : ℕ := 8

/-- The size of the offsets file with a number of offsets. -/
def offsetsFileSize (count : ℕ) : ℕ := 1 + offsetSizeBytes * count

/-- `reverse_offset`: an offset counted from the end; there is none before the first one. -/
def reverseOffset (files : Files) (index : ℕ) : Option ℕ :=
  if 1 < offsetsFileSize files.offsets.length then
    if index < files.offsets.length then files.offsets[files.offsets.length - 1 - index]? else none
  else some 0

/-- The loop for an offset that is not past the data, from an index on. -/
def searchOffset (files : Files) : ℕ → ℕ → Option (Option ℕ)
  | 0, _ => some none
  | count + 1, index => do
      let offset ← reverseOffset files (index + 1)
      if offset ≤ files.data.length then some (some index)
      else searchOffset files count (index + 1)

/-- The size of the offsets file that the configuration makes expect. -/
def expectedOffsetsFileSize (columns : ℕ) (config : Config) : ℕ :=
  1 + offsetSizeBytes * config.rows * columns + offsetSizeBytes

/-- The first half of `handle_consistency`: too many offsets are cut, and too many rows are
    forgotten. -/
def healOffsets (columns : ℕ) (files : Files) : Option Files :=
  let expected := expectedOffsetsFileSize columns files.config
  let actual := offsetsFileSize files.offsets.length
  match compare expected actual with
  | .lt => some { files with offsets := setLen 0 ((expected - 1) / offsetSizeBytes) files.offsets }
  | .gt =>
    if columns = 0 then none
    else
      let rows := (actual - 1 - offsetSizeBytes) / columns / offsetSizeBytes
      some { files with config := { files.config with rows } }
  | .eq => some files

/-- `handle_consistency`, to heal or only to check. Each call of itself is on fewer offsets. -/
def handleConsistency (columns : ℕ) : ℕ → Bool → Files → Option Files
  | 0, _, _ => none
  | fuel + 1, heal, files => do
      if !heal && expectedOffsetsFileSize columns files.config !=
          offsetsFileSize files.offsets.length then none
      else
        let files ← healOffsets columns files
        let lastOffset ← reverseOffset files 0
        if !heal && lastOffset != files.data.length then none
        else
          match compare lastOffset files.data.length with
          | .lt => some { files with data := setLen 0 lastOffset files.data }
          | .gt => do
              match ← searchOffset files files.offsets.length 0 with
              | some index =>
                let count := files.offsets.length - (index + 1)
                handleConsistency columns fuel true
                  { files with offsets := setLen 0 count files.offsets }
              | none => some files
          | .eq => some files

def ensureConsistency (columns fuel : ℕ) (files : Files) : Option Files :=
  handleConsistency columns fuel true files

def checkConsistency (columns fuel : ℕ) (files : Files) : Option Files :=
  handleConsistency columns fuel false files

/-! ## What healing does -/

variable {files : Files} {rows newRows : List Row} {columns : ℕ} {op : CutOp} {w : NippyJarWriter}

/-- Too many offsets, or too many rows. -/
theorem healOffsets_eq {columns count : ℕ} {all extra : List ℕ}
    (hall : all.length = count * columns + 1) (hoffsets : files.offsets = all ++ extra)
    (hcount : files.config.rows = count ∨ extra = [] ∧ 0 < columns ∧ count ≤ files.config.rows) :
    healOffsets columns files =
      some { files with offsets := all, config := { files.config with rows := count } } := by
  obtain ⟨data, fileOffsets, rows, maxRowSize⟩ := files
  dsimp only at hoffsets hcount
  subst hoffsets
  rw [healOffsets, expectedOffsetsFileSize, offsetsFileSize, offsetSizeBytes]
  dsimp only
  rcases hcount with rfl | ⟨rfl, hcolumns, hle⟩
  · -- as many rows as configured, and perhaps more offsets
    have hexpected : 1 + 8 * rows * columns + 8 = 1 + 8 * all.length := by
      rw [hall, mul_assoc]
      omega
    rw [hexpected, length_append]
    cases hextra : extra with
    | nil =>
      rw [length_nil, add_zero, Nat.compare_eq_eq.mpr rfl, append_nil]
    | cons offset extra' =>
      rw [Nat.compare_eq_lt.mpr (by rw [length_cons]; omega)]
      dsimp only
      rw [show (1 + 8 * all.length - 1) / 8 = all.length by omega,
        setLen_of_le (by rw [length_append]; omega), take_left]
  · -- more rows configured than there are offsets
    rw [append_nil]
    rcases eq_or_lt_of_le hle with rfl | hlt
    · rw [Nat.compare_eq_eq.mpr (by rw [hall, Nat.mul_assoc]; omega)]
    · have hmul : count * columns < rows * columns := mul_lt_mul_of_pos_right hlt hcolumns
      rw [Nat.compare_eq_gt.mpr (by rw [hall, Nat.mul_assoc]; omega)]
      rw [if_neg (by omega), hall,
        show 1 + 8 * (count * columns + 1) - 1 - 8 = count * 8 * columns by
          rw [mul_right_comm]; omega,
        Nat.mul_div_cancel _ hcolumns, Nat.mul_div_cancel _ (by decide)]

variable {more : Bytes}

/-- **HEALING**: the rows that all three files have are kept, if what is too much is in the data and
    in one of the others. -/
theorem ensureConsistency_eq (hwidth : ∀ row ∈ rows, row.length = columns) {extra : List ℕ}
    (hoffsets : files.offsets = offsets (lengths rows.flatten) ++ extra)
    (hdata : files.data = rows.flatten.flatten ++ more)
    (hcount : files.config.rows = rows.length ∨
      extra = [] ∧ 0 < columns ∧ rows.length ≤ files.config.rows) (fuel : ℕ) :
    ensureConsistency columns (fuel + 1) files =
      some ⟨rows.flatten.flatten, offsets (lengths rows.flatten),
        { files.config with rows := rows.length }⟩ := by
  have hlen : (offsets (lengths rows.flatten)).length = rows.length * columns + 1 := by
    rw [length_offsets, length_map, length_flatten_rows hwidth]
  have hsize : rows.flatten.flatten.length = (lengths rows.flatten).sum := List.length_flatten
  have hlast : ∀ config, reverseOffset ⟨files.data, offsets (lengths rows.flatten), config⟩ 0 =
      some rows.flatten.flatten.length := by
    intro config
    have hget := getLast?_offsets (lengths rows.flatten)
    rw [List.getLast?_eq_getElem?] at hget
    rw [reverseOffset, offsetsFileSize, hlen, if_pos (by rw [offsetSizeBytes]; omega),
      if_pos (Nat.succ_pos _), Nat.sub_zero, ← hlen, hget, hsize]
  rw [ensureConsistency, handleConsistency, Bool.not_true, Bool.false_and,
    if_neg Bool.false_ne_true, healOffsets_eq hlen hoffsets hcount]
  simp only [bind_eq_bind, bind_some, hlast, Bool.false_and, if_neg Bool.false_ne_true]
  rw [hdata, length_append]
  cases more with
  | nil =>
    rw [length_nil, add_zero, Nat.compare_eq_eq.mpr rfl, append_nil]
  | cons byte more =>
    rw [Nat.compare_eq_lt.mpr (by rw [length_cons]; omega)]
    rw [setLen_of_le (by rw [length_append]; omega), take_left]

/-! ## Rows appended to a jar -/

/-- Rows, one after another. -/
def NippyJarWriter.appendRows (w : NippyJarWriter) (rows : List Row) : NippyJarWriter :=
  rows.foldl NippyJarWriter.appendRow w

/-- A writer that has appended rows to a jar and not committed them. -/
structure Appended (columns : ℕ) (rows newRows : List Row) (w : NippyJarWriter) : Prop where
  columns_eq : w.columns = columns
  column : w.column = 0
  stores : Stores columns rows w.files
  width : ∀ row ∈ newRows, row.length = columns
  keeps : Keeps (rows ++ newRows).flatten w
  count : w.jar.rows = rows.length + newRows.length

theorem files_appendRow :
    ∀ (row : Row) (w : NippyJarWriter), (w.appendRow row).files = w.files := by
  intro row
  induction row with
  | nil => intro w; rfl
  | cons value row ih =>
    intro w
    refine (ih (w.appendColumn value)).trans ?_
    rw [NippyJarWriter.appendColumn, NippyJarWriter.writeColumn]
    split <;> rfl

theorem files_appendRows : ∀ (rows : List Row) (w : NippyJarWriter),
    (w.appendRows rows).files = w.files := by
  intro rows
  induction rows with
  | nil => intro w; rfl
  | cons row rows ih => intro w; exact (ih (w.appendRow row)).trans (files_appendRow row w)

namespace Appended

variable {columns : ℕ} {rows newRows : List Row} {w : NippyJarWriter}

theorem opened (h : Stores columns rows files) :
    Appended columns rows [] (.opened columns files) := by
  refine ⟨rfl, rfl, h, fun _ hrow => absurd hrow List.not_mem_nil, ⟨?_, ?_, ?_⟩, h.count⟩
  · show files.data ++ [] = _
    rw [append_nil, append_nil, h.data]
  · show Joined _ files.offsets []
    rw [append_nil, h.offsets]
    exact .disk
  · show files.config.rows * columns + 0 = _
    rw [append_nil, h.count, length_flatten_rows h.width, add_zero]

theorem appendRow (h : Appended columns rows newRows w) (hcolumns : 0 < columns)
    (hrow : row.length = columns) : Appended columns rows (newRows ++ [row]) (w.appendRow row) := by
  obtain ⟨hkeeps, hcolumn, hcolumns', hrows⟩ := appendRow_keeps h.keeps h.column
    (h.columns_eq ▸ hcolumns) (hrow.trans h.columns_eq.symm)
  refine ⟨hcolumns'.trans h.columns_eq, hcolumn, ?_, ?_, ?_, ?_⟩
  · rw [files_appendRow]
    exact h.stores
  · intro row' hmem
    rcases List.mem_append.mp hmem with hmem | hmem
    · exact h.width row' hmem
    · rw [List.mem_singleton.mp hmem, hrow]
  · rw [← append_assoc, flatten_append, List.flatten_singleton]
    exact hkeeps
  · rw [hrows, h.count, length_append, length_singleton, add_assoc]

/-- Appending rows of no column does nothing, and otherwise all are appended. -/
theorem appendRows (h : Appended columns rows newRows w) : ∀ {more},
    (∀ row ∈ more, row.length = columns) →
      Appended columns rows (if columns = 0 then newRows else newRows ++ more)
        (w.appendRows more) := by
  intro more
  induction more generalizing newRows w with
  | nil =>
    intro _
    rw [append_nil, ite_self]
    exact h
  | cons row more ih =>
    intro hmore
    have hrow := hmore row List.mem_cons_self
    have hrest : ∀ row ∈ more, row.length = columns :=
      fun row hmem => hmore row (List.mem_cons_of_mem _ hmem)
    by_cases hzero : columns = 0
    · rw [if_pos hzero]
      have hnil : row = [] := List.length_eq_zero_iff.mp (hrow.trans hzero)
      have := ih h hrest
      rw [if_pos hzero] at this
      rw [hnil]
      exact this
    · rw [if_neg hzero]
      have := ih (h.appendRow (pos_of_ne_zero hzero) hrow) hrest
      rw [if_neg hzero, append_assoc, List.singleton_append] at this
      exact this

theorem length_offsets (h : Appended columns rows newRows w) :
    w.offsets.length - 1 = newRows.flatten.length := by
  have hjoined := h.keeps.offsets
  have hlen : (offsets (lengths (rows ++ newRows).flatten)).length =
      (offsets (lengths rows.flatten)).length + newRows.flatten.length := by
    rw [Layout.length_offsets, Layout.length_offsets, length_map, length_map,
      flatten_append, length_append]
    omega
  have hne := offsets_ne_nil (lengths rows.flatten)
  rw [h.stores.offsets] at hjoined
  generalize offsets (lengths rows.flatten) = disk at hjoined hlen hne
  generalize offsets (lengths (rows ++ newRows).flatten) = all at hjoined hlen
  generalize w.offsets = memory at hjoined
  cases hjoined with
  | disk => rw [length_nil]; omega
  | both hall =>
    rw [← hall, length_append, length_append, length_cons, length_singleton] at hlen
    rw [length_cons]
    omega
  | memory | none => exact absurd rfl hne

theorem good (h : Appended columns rows newRows w) : Jar.Good columns (w, rows ++ newRows) := by
  refine ⟨h.columns_eq, h.column, fun row hmem => ?_, h.keeps, ?_⟩
  · rcases List.mem_append.mp hmem with hmem | hmem
    · exact h.stores.width row hmem
    · exact h.width row hmem
  · rw [h.count, length_append]

end Appended

/-! ## Interrupted operations -/

/-- An operation that is cut off. -/
inductive CutOp
  | commit
  | pruneRows (numRows : ℕ)

namespace NippyJarWriter

/-- The changes of the operation. -/
def cutOps (w : NippyJarWriter) : CutOp → List FileOp
  | .commit => w.commitOps
  | .pruneRows numRows => w.pruneOps numRows

/-- A removal that leaves no row was cut off after the offsets file was cut to nothing, that is
    after the changes of the data before it. -/
def emptied (w : NippyJarWriter) : CutOp → ℕ → Prop
  | .commit, _ => False
  | .pruneRows numRows, done =>
    let remaining := numRows * w.columns - (w.offsets.length - 1)
    0 < remaining ∧ w.files.offsets.length ≤ remaining + 1 ∧
      remaining ≤ w.files.offsets.length ∧
      w.pending.length + (if w.offsets.length ≤ 1 then 0 else 1) < done

end NippyJarWriter

/-- The rows on disk before an operation and after it have these in common, and no others are
    in either. -/
def between (rows newRows : List Row) (w : NippyJarWriter) : CutOp → List Row → Prop
  | .commit, healed => rows <+: healed ∧ healed <+: rows ++ newRows
  | .pruneRows numRows, healed => rows.take (w.jar.rows - numRows) <+: healed ∧ healed <+: rows

/-- **HEALED**: opening the jar succeeds, and its files store rows that the operation should
    leave. -/
def Healed (columns : ℕ) (rows newRows : List Row) (w : NippyJarWriter) (op : CutOp)
    (files : Files) : Prop :=
  ∃ healed kept, (∀ fuel, ensureConsistency columns (fuel + 1) files = some healed) ∧
    Stores columns kept healed ∧ between rows newRows w op kept

theorem healed_of (kept : List Row) (extra : List ℕ) (more : Bytes)
    (hbetween : between rows newRows w op kept) (hwidth : ∀ row ∈ kept, row.length = columns)
    (hoffsets : files.offsets = offsets (lengths kept.flatten) ++ extra)
    (hdata : files.data = kept.flatten.flatten ++ more)
    (hcount : files.config.rows = kept.length ∨
      extra = [] ∧ 0 < columns ∧ kept.length ≤ files.config.rows) :
    Healed columns rows newRows w op files :=
  ⟨_, kept, ensureConsistency_eq hwidth hoffsets hdata hcount, ⟨hwidth, rfl, rfl, rfl⟩, hbetween⟩

/-- Without any offset, healing leaves none. -/
theorem not_healed_of_emptied (hcolumns : 0 < columns) (hoffsets : files.offsets = []) :
    ¬ Healed columns rows newRows w op files := by
  rintro ⟨healed, kept, hheal, hstores, -⟩
  have hnone : ensureConsistency columns 1 files =
      some ⟨[], [], { files.config with rows := 0 }⟩ := by
    have hfix : healOffsets columns files =
        some { files with config := { files.config with rows := 0 } } := by
      rw [healOffsets, expectedOffsetsFileSize, offsetsFileSize, offsetSizeBytes, hoffsets]
      rw [length_nil, Nat.compare_eq_gt.mpr (by omega)]
      rw [if_neg (by omega)]
      simp
    rw [ensureConsistency, handleConsistency, Bool.not_true, Bool.false_and,
      if_neg Bool.false_ne_true, hfix]
    simp only [bind_eq_bind, bind_some, reverseOffset, hoffsets, length_nil,
      offsetsFileSize, Nat.mul_zero, add_zero, lt_irrefl, if_false, Bool.false_and,
      if_neg Bool.false_ne_true]
    cases hdata : files.data with
    | nil => rfl
    | cons byte data =>
      rw [length_cons, Nat.compare_eq_lt.mpr (Nat.succ_pos _), setLen_of_le (Nat.zero_le _)]
      rfl
  cases hnone.symm.trans (hheal 0)
  exact offsets_ne_nil _ hstores.offsets.symm

/-- **AN INTERRUPTED COMMIT** is healed. -/
theorem commit_healed (h : Appended columns rows newRows w) (done : ℕ) :
    Healed columns rows newRows w .commit (runOps (w.commitOps.take done) w.files) := by
  have hstores := h.good.stores_commit (.inl (h.stores.offsets ▸ offsets_ne_nil _))
  have hcommit : w.commit.files = runOps w.commitOps w.files := rfl
  generalize hnew : NippyJarWriter.newOffsets w.files.offsets.getLast? w.offsets = newOffsets
  have hops : w.commitOps =
      w.pending.map .writeData ++ (newOffsets.map .writeOffset ++ [.freezeConfig w.jar]) := by
    rw [NippyJarWriter.commitOps, hnew]
  by_cases hall : w.commitOps.length ≤ done
  · -- nothing was cut off
    rw [List.take_of_length_le hall, ← hcommit]
    refine healed_of (rows ++ newRows) [] []
      ⟨List.prefix_append _ _, List.prefix_rfl⟩ hstores.width ?_ ?_ (.inl hstores.count)
    · rw [append_nil]
      exact hstores.offsets
    · rw [append_nil]
      exact hstores.data
  · -- the configuration is the old one
    have hcut : w.commitOps.take done = (w.pending.take done).map .writeData ++
        (newOffsets.take (done - w.pending.length)).map .writeOffset := by
      rw [hops, length_append, length_append, length_map, length_map, length_singleton] at hall
      rw [hops, take_append, take_append, length_map, length_map,
        show done - w.pending.length - newOffsets.length = 0 by omega, take_zero,
        append_nil, map_take, map_take]
    rw [hcut, runOps_append, runOps_writeData, runOps_writeOffset]
    refine healed_of rows (newOffsets.take (done - w.pending.length)) (w.pending.take done)
      ⟨List.prefix_rfl, List.prefix_append _ _⟩ h.stores.width ?_ ?_ (.inl h.stores.count)
    · exact congrArg (· ++ _) h.stores.offsets
    · exact congrArg (· ++ _) h.stores.data

/-- The values that stay in the data when rows are removed begin with those of the rows that
    stay on disk. -/
theorem take_values (newRows : List Row) (hwidth : ∀ row ∈ rows, row.length = columns)
    {kept count : ℕ} (hkept : kept ≤ rows.length) (hle : kept * columns ≤ count) :
    ∃ more, ((rows ++ newRows).flatten.take count).flatten =
      (rows.take kept).flatten.flatten ++ more := by
  have hrows : (rows ++ newRows).flatten.take (kept * columns) = (rows.take kept).flatten := by
    rw [flatten_append, List.take_append_of_le_length, Jar.take_flatten_rows hwidth]
    rw [length_flatten_rows hwidth]
    exact Nat.mul_le_mul_right columns hkept
  rw [← Nat.add_sub_cancel' hle, List.take_add, hrows, flatten_append]
  exact ⟨_, rfl⟩

section

variable {columns : ℕ} {rows newRows : List Row} {w : NippyJarWriter}

/-- Before the offsets file is cut, all rows on disk are there. -/
theorem healed_of_data (h : Appended columns rows newRows w) (more : Bytes) :
    Healed columns rows newRows w (.pruneRows numRows)
      { w.files with data := rows.flatten.flatten ++ more } := by
  refine healed_of rows [] more ⟨List.take_prefix _ _, List.prefix_rfl⟩ h.stores.width ?_ rfl
    (.inl h.stores.count)
  rw [append_nil]
  exact h.stores.offsets

/-- Only rows in memory are removed: the rows on disk stay. -/
theorem healed_of_memory (h : Appended columns rows newRows w) (hnone : columns = 0 → newRows = [])
    (hmemory : numRows * columns ≤ newRows.length * columns) (more : Bytes) :
    Healed columns rows newRows w (.pruneRows numRows)
      ⟨rows.flatten.flatten ++ more, w.files.offsets,
        NippyJarWriter.prunedConfig w.jar numRows⟩ := by
  have hwidth := h.stores.width
  have hpruned : (NippyJarWriter.prunedConfig w.jar numRows).rows =
      rows.length + newRows.length - numRows := congrArg (· - numRows) h.count
  by_cases hzero : columns = 0
  · -- rows without columns have no data
    have hempty : ∀ n, (rows.take n).flatten = [] := by
      intro n
      refine List.flatten_eq_nil_iff.mpr fun row hrow => List.length_eq_zero_iff.mp ?_
      rw [hwidth row (List.mem_of_mem_take hrow), hzero]
    have hrows : rows.flatten = [] := by
      have := hempty rows.length
      rwa [take_length] at this
    have hjar := h.count
    rw [hnone hzero, length_nil, add_zero] at hpruned hjar
    refine healed_of (rows.take (rows.length - numRows)) [] more
      ⟨hjar ▸ List.prefix_rfl, List.take_prefix _ _⟩
      (fun row hrow => hwidth row (List.mem_of_mem_take hrow)) ?_ ?_ (.inl ?_)
    · rw [hempty, append_nil, h.stores.offsets, hrows]
    · rw [hempty, hrows]
    · rw [hpruned, length_take, min_eq_left (sub_le _ _)]
  · have hle := le_of_mul_le_mul_right hmemory (pos_of_ne_zero hzero)
    refine healed_of rows [] more ⟨List.take_prefix _ _, List.prefix_rfl⟩ hwidth ?_ rfl
      (.inr ⟨rfl, pos_of_ne_zero hzero, ?_⟩)
    · rw [append_nil]
      exact h.stores.offsets
    · rw [hpruned]
      omega

theorem healed_of_disk (h : Appended columns rows newRows w) (hcolumns : 0 < columns)
    (hlt : w.jar.rows - numRows < rows.length) (hpos : 0 < w.jar.rows - numRows)
    (hoffsets : files.offsets = setLen 0 (keptOffsets ((w.jar.rows - numRows) * columns))
      w.files.offsets)
    (hdata : files.data = (rows.take (w.jar.rows - numRows)).flatten.flatten ++ more)
    (hcount : w.jar.rows - numRows ≤ files.config.rows) :
    Healed columns rows newRows w (.pruneRows numRows) files := by
  have hwidth := h.stores.width
  refine healed_of (rows.take (w.jar.rows - numRows)) [] more
    ⟨List.prefix_rfl, List.take_prefix _ _⟩
    (fun row hrow => hwidth row (List.mem_of_mem_take hrow)) ?_ hdata (.inr ⟨rfl, hcolumns, ?_⟩)
  · have hle : (w.jar.rows - numRows) * columns ≤ (lengths rows.flatten).length := by
      rw [length_map, length_flatten_rows hwidth]
      exact Nat.mul_le_mul_right columns hlt.le
    rw [hoffsets, append_nil, h.stores.offsets, keptOffsets,
      if_neg (mul_ne_zero (by omega) (by omega)), setLen_of_le (by rw [length_offsets]; omega),
      take_offsets hle, ← map_take, Jar.take_flatten_rows hwidth]
  · rwa [length_take, min_eq_left hlt.le]

theorem not_healed_take (hcolumns : 0 < columns) (len : ℕ) (config : Config) (files : Files)
    (i : ℕ) : ¬ Healed columns rows newRows w (.pruneRows numRows)
      (runOps (([.setOffsetsLen 0, .setDataLen len, .freezeConfig config] : List FileOp).take
        (i + 1)) files) := by
  refine not_healed_of_emptied hcolumns ?_
  have hnil : setLen 0 0 files.offsets = [] := setLen_of_le (zero_le _)
  rcases i with _ | _ | i <;> simp [FileOp.apply, hnil]

/-- The changes of the disk, cut off anywhere after the first. -/
theorem removal_healed_iff (h : Appended columns rows newRows w) (hcolumns : 0 < columns)
    (hlt : w.jar.rows - numRows < rows.length)
    (hdata : data = (rows.take (w.jar.rows - numRows)).flatten.flatten ++ more)
    (hlen : len = (rows.take (w.jar.rows - numRows)).flatten.flatten.length) (i : ℕ) :
    Healed columns rows newRows w (.pruneRows numRows)
      (runOps (([.setOffsetsLen (keptOffsets ((w.jar.rows - numRows) * columns)), .setDataLen len,
        .freezeConfig (NippyJarWriter.prunedConfig w.jar numRows)] : List FileOp).take (i + 1))
        { w.files with data }) ↔ 0 < w.jar.rows - numRows := by
  have hset : setLen 0 len data = (rows.take (w.jar.rows - numRows)).flatten.flatten ++ [] := by
    rw [hdata, setLen_of_le (by rw [length_append]; omega), hlen, take_left, append_nil]
  have hconfig : w.jar.rows - numRows ≤ w.files.config.rows := by
    rw [h.stores.count]
    exact hlt.le
  constructor
  · intro hhealed
    by_contra hno
    rw [Nat.le_zero.mp (Nat.le_of_not_lt hno), zero_mul] at hhealed
    exact not_healed_take hcolumns _ _ _ i hhealed
  · intro hpos
    rcases i with _ | _ | i
    · exact healed_of_disk h hcolumns hlt hpos rfl hdata hconfig
    · exact healed_of_disk h hcolumns hlt hpos rfl hset hconfig
    · simp only [List.take_succ_cons, take_nil]
      exact healed_of_disk h hcolumns hlt hpos rfl hset le_rfl

/-- The changes of `prune_rows` before the offsets file: the data is flushed, and cut for memory. -/
def dataOps (w : NippyJarWriter) (values : List Bytes) (numRows : ℕ) : List FileOp :=
  w.pending.map .writeData ++ (if w.pruneCount numRows = 0 then []
    else [.setDataLen (start (lengths values) (values.length - w.pruneCount numRows))])

theorem runOps_dataOps (h : Appended columns rows newRows w) (numRows : ℕ) :
    runOps (dataOps w (rows ++ newRows).flatten numRows) w.files = { w.files with
      data := ((rows ++ newRows).flatten.take
        ((rows ++ newRows).flatten.length - w.pruneCount numRows)).flatten } := by
  rw [dataOps, runOps_append, runOps_writeData, h.keeps.data]
  by_cases hzero : w.pruneCount numRows = 0
  · rw [if_pos hzero, hzero, Nat.sub_zero, take_length]
    rfl
  · have hset := setLen_flatten (rows ++ newRows).flatten
      (sub_le (rows ++ newRows).flatten.length (w.pruneCount numRows))
    rw [take_length] at hset
    rw [if_neg hzero, runOps_cons, runOps_nil, FileOp.apply, hset]

theorem length_dataOps (w : NippyJarWriter) (values : List Bytes) (numRows : ℕ) :
    (dataOps w values numRows).length =
      w.pending.length + if w.pruneCount numRows = 0 then 0 else 1 := by
  rw [dataOps, length_append, length_map]
  by_cases hzero : w.pruneCount numRows = 0
  · rw [if_pos hzero, if_pos hzero, length_nil]
  · rw [if_neg hzero, if_neg hzero, length_singleton]

/-- The values that stay in the data for the memory are at least those on disk. -/
theorem le_length_sub_pruneCount (h : Appended columns rows newRows w) (numRows : ℕ) :
    rows.length * columns ≤ (rows ++ newRows).flatten.length - w.pruneCount numRows := by
  have hcount : w.pruneCount numRows ≤ newRows.flatten.length := by
    rw [← h.length_offsets]
    exact min_le_right _ _
  rw [flatten_append, length_append, length_flatten_rows h.stores.width]
  omega

/-- **CUT OFF BEFORE THE OFFSETS**: all rows on disk stay. -/
theorem healed_of_take_dataOps (h : Appended columns rows newRows w)
    (hdone : done ≤ (dataOps w (rows ++ newRows).flatten numRows).length) :
    Healed columns rows newRows w (.pruneRows numRows)
      (runOps ((dataOps w (rows ++ newRows).flatten numRows).take done) w.files) := by
  rcases eq_or_lt_of_le hdone with heq | hlt
  · obtain ⟨more, hmore⟩ := take_values newRows h.stores.width le_rfl
      (le_length_sub_pruneCount h numRows)
    rw [heq, take_length, runOps_dataOps h, hmore, take_length]
    exact healed_of_data h more
  · -- not all of the data has been flushed, or nothing has been cut
    have hle : done ≤ w.pending.length := by
      rw [length_dataOps] at hlt
      split at hlt <;> omega
    rw [dataOps, List.take_append_of_le_length (by rwa [length_map]), ← map_take,
      runOps_writeData, h.stores.data]
    exact healed_of_data h _

/-- When offsets are removed from disk, all offsets of the memory are removed. -/
theorem pruneCount_of_remaining (hmore : w.offsets.length - 1 < numRows * w.columns) :
    w.pruneCount numRows = w.offsets.length - 1 ∧
      (if w.pruneCount numRows = 0 then 0 else 1) = if w.offsets.length ≤ 1 then 0 else 1 := by
  have hcount : w.pruneCount numRows = w.offsets.length - 1 := min_eq_right hmore.le
  refine ⟨hcount, ?_⟩
  by_cases hone : w.offsets.length ≤ 1
  · rw [if_pos (by omega), if_pos hone]
  · rw [if_neg (by omega), if_neg hone]

theorem Appended.length_memory (h : Appended columns rows newRows w) :
    w.offsets.length - 1 = newRows.length * columns := by
  rw [h.length_offsets, length_flatten_rows h.width]

/-- A removal is healed where it is cut off before the offsets file is cut; what is left is a cut
    behind that. -/
theorem pruneRows_healed_iff_of_after (h : Appended columns rows newRows w)
    (hafter : ∀ i, done = (dataOps w (rows ++ newRows).flatten numRows).length + (i + 1) → (Healed
      columns rows newRows w (.pruneRows numRows) (runOps (ops.take (i + 1)) (runOps (dataOps w
      (rows ++ newRows).flatten numRows) w.files)) ↔ ¬ w.emptied (.pruneRows numRows) done)) :
    Healed columns rows newRows w (.pruneRows numRows)
        (runOps ((dataOps w (rows ++ newRows).flatten numRows ++ ops).take done) w.files) ↔
      ¬ w.emptied (.pruneRows numRows) done := by
  rw [take_append, runOps_append]
  by_cases hbefore : done ≤ (dataOps w (rows ++ newRows).flatten numRows).length
  · rw [Nat.sub_eq_zero_of_le hbefore, take_zero, runOps_nil]
    refine iff_of_true (healed_of_take_dataOps h hbefore) ?_
    rintro ⟨hpos, -, -, hlt⟩
    rw [length_dataOps, (pruneCount_of_remaining (by omega)).2] at hbefore
    omega
  · obtain ⟨i, rfl⟩ := Nat.exists_eq_add_of_lt (Nat.lt_of_not_le hbefore)
    rw [List.take_of_length_le (Nat.le_of_not_le hbefore), Nat.add_assoc, Nat.add_sub_cancel_left]
    exact hafter i (add_assoc _ _ _)

/-- **REMOVING ROWS THAT ARE THERE**, cut off anywhere. -/
theorem pruneRows_healed_iff (h : Appended columns rows newRows w)
    (hnone : columns = 0 → newRows = []) (hle : 0 < columns → numRows ≤ w.jar.rows) (done : ℕ) :
    Healed columns rows newRows w (.pruneRows numRows)
        (runOps ((w.pruneOps numRows).take done) w.files) ↔
      ¬ w.emptied (.pruneRows numRows) done := by
  have hlen : (rows ++ newRows).flatten.length = w.jar.rows * columns := by
    rw [length_flatten_rows h.good.width, length_append, h.count]
  have hmemory := h.length_memory
  have hmul : numRows * columns ≤ w.jar.rows * columns := by
    rcases Nat.eq_zero_or_pos columns with hzero | hpos
    · rw [hzero]
      exact le_rfl
    · exact mul_le_mul_right columns (hle hpos)
  have hnum : numRows * w.columns ≤ (rows ++ newRows).flatten.length := by
    rwa [hlen, h.columns_eq]
  have hjar := h.count
  have hcolumns_eq := h.columns_eq
  rw [pruneOps_eq h.keeps hnum, ← append_assoc, ← dataOps, hcolumns_eq]
  refine pruneRows_healed_iff_of_after h fun i hi => ?_
  rw [runOps_dataOps h numRows]
  by_cases hmem : numRows * columns ≤ newRows.length * columns
  · -- only rows in memory are removed
    obtain ⟨more, hmore⟩ := take_values newRows h.stores.width le_rfl
      (le_length_sub_pruneCount h numRows)
    rw [take_length] at hmore
    rw [if_pos (hmemory ▸ hmem), List.nil_append, hmore]
    refine iff_of_true ?_ ?_
    · simp only [List.take_succ_cons, take_nil, runOps_cons, runOps_nil, FileOp.apply]
      exact healed_of_memory h hnone hmem more
    · rintro ⟨hpos, -⟩
      rw [hcolumns_eq, hmemory] at hpos
      omega
  · have hcolumns : 0 < columns := by
      refine Nat.pos_of_ne_zero fun hzero => hmem ?_
      rw [hzero, Nat.mul_zero, Nat.mul_zero]
    have hgt : newRows.length < numRows := by
      by_contra hno
      exact hmem (Nat.mul_le_mul_right columns (Nat.le_of_not_lt hno))
    have hlt : w.jar.rows - numRows < rows.length := by omega
    obtain ⟨more, hmore⟩ := take_values newRows h.stores.width hlt.le
      (le_trans (Nat.mul_le_mul_right columns hlt.le) (le_length_sub_pruneCount h numRows))
    have hsize : start (lengths (rows ++ newRows).flatten) ((w.jar.rows - numRows) * columns) =
        (rows.take (w.jar.rows - numRows)).flatten.flatten.length := by
      have htake := take_flatten (rows ++ newRows).flatten ((w.jar.rows - numRows) * columns)
      rw [Jar.take_flatten_rows h.good.width, List.take_append_of_le_length hlt.le] at htake
      rw [← htake, length_take, Nat.min_eq_left]
      rw [List.length_flatten]
      exact start_le_sum _ _
    rw [hlen] at hmore
    rw [if_neg (hmemory ▸ hmem), hlen, ← Nat.sub_mul]
    refine (removal_healed_iff h hcolumns hlt hmore hsize i).trans ?_
    -- no row stays when as many offsets are removed from disk as there are rows' values
    have hdisk : w.files.offsets.length = rows.length * columns + 1 := h.stores.length_offsets
    have hsplit : w.jar.rows * columns = rows.length * columns + newRows.length * columns := by
      rw [hjar, add_mul]
    rw [NippyJarWriter.emptied, hcolumns_eq, hmemory, hdisk]
    constructor
    · rintro hpos ⟨-, hge, -, -⟩
      have hless : numRows * columns < w.jar.rows * columns :=
        mul_lt_mul_of_pos_right (by omega) hcolumns
      omega
    · intro hno
      by_contra hzero
      have heq : numRows * columns = w.jar.rows * columns := by
        rw [show numRows = w.jar.rows by have := hle hcolumns; omega]
      have hmore' : w.offsets.length - 1 < numRows * w.columns := by
        rw [hcolumns_eq, hmemory]
        omega
      refine hno ⟨by omega, by omega, by omega, ?_⟩
      rw [← (pruneCount_of_remaining hmore').2, ← length_dataOps w (rows ++ newRows).flatten]
      omega

/-- **REMOVING MORE ROWS THAN THERE ARE** is an error, unless it removes one offset more than there
    are values. -/
theorem pruneRows_healed_iff_of_lt (h : Appended columns rows newRows w)
    (hlt : w.jar.rows < numRows) (hcolumns : 0 < columns) (done : ℕ) :
    Healed columns rows newRows w (.pruneRows numRows)
        (runOps ((w.pruneOps numRows).take done) w.files) ↔
      ¬ w.emptied (.pruneRows numRows) done := by
  have hjar := h.count
  have hcolumns_eq := h.columns_eq
  have hmemory := h.length_memory
  have hdisk : w.files.offsets.length = rows.length * columns + 1 := h.stores.length_offsets
  have hmul : (rows.length + newRows.length) * columns < numRows * columns :=
    mul_lt_mul_of_pos_right (by omega) hcolumns
  rw [add_mul] at hmul
  have hmore : w.offsets.length - 1 < numRows * w.columns := by
    rw [hcolumns_eq, hmemory]
    omega
  have hremaining : w.pruneRemaining numRows =
      numRows * columns - newRows.length * columns := by
    rw [NippyJarWriter.pruneRemaining, (pruneCount_of_remaining hmore).1, hcolumns_eq, hmemory]
  rw [NippyJarWriter.pruneOps, pruneMemoryOps_keeps h.keeps, ← append_assoc, ← dataOps]
  refine pruneRows_healed_iff_of_after h fun i hi => ?_
  rw [NippyJarWriter.pruneDiskOps, hremaining, if_pos (by omega), hdisk]
  by_cases hone : numRows * columns - newRows.length * columns ≤ rows.length * columns + 1
  · rw [if_pos ⟨by omega, hone⟩, if_pos (by omega)]
    refine iff_of_false (not_healed_take hcolumns _ _ _ i) (not_not.mpr ?_)
    rw [NippyJarWriter.emptied, hcolumns_eq, hmemory, hdisk]
    refine ⟨by omega, by omega, hone, ?_⟩
    rw [← (pruneCount_of_remaining hmore).2, ← length_dataOps w (rows ++ newRows).flatten]
    omega
  · rw [if_neg (hone ·.2)]
    refine iff_of_true ?_ ?_
    · have hall : Healed columns rows newRows w (.pruneRows numRows) _ :=
        healed_of_take_dataOps h le_rfl
      rw [take_length] at hall
      exact hall
    · rintro ⟨-, -, hle, -⟩
      rw [hcolumns_eq, hmemory, hdisk] at hle
      exact hone hle

end

theorem Healed.mono (hbegins : newRows <+: newRows') (h : Healed columns rows newRows w op files) :
    Healed columns rows newRows' w op files := by
  obtain ⟨healed, kept, hheal, hstores, hbetween⟩ := h
  refine ⟨healed, kept, hheal, hstores, ?_⟩
  cases op with
  | commit => exact ⟨hbetween.1, hbetween.2.trans ((List.prefix_append_right_inj rows).mpr hbegins)⟩
  | pruneRows numRows => exact hbetween

/-- **CRASH HEALING**: rows are appended to a jar whose files agree, and a commit or a removal of
    rows is cut off after any change. Opening the jar heals it, unless the offsets file was already
    cut to nothing. -/
theorem healed_iff {columns : ℕ} {rows newRows : List Row} {files : Files}
    (hstores : Stores columns rows files) (hnew : ∀ row ∈ newRows, row.length = columns)
    (op : CutOp) (done : ℕ) :
    Healed columns rows newRows ((NippyJarWriter.opened columns files).appendRows newRows) op
        (runOps ((((NippyJarWriter.opened columns files).appendRows newRows).cutOps op).take done)
          files) ↔
      ¬ ((NippyJarWriter.opened columns files).appendRows newRows).emptied op done := by
  have happended := (Appended.opened hstores).appendRows hnew
  have hfiles : ((NippyJarWriter.opened columns files).appendRows newRows).files = files :=
    files_appendRows newRows _
  generalize (NippyJarWriter.opened columns files).appendRows newRows = w at happended hfiles ⊢
  rw [List.nil_append] at happended
  -- rows of no column are not appended at all
  generalize happ : (if columns = 0 then [] else newRows) = appended at happended
  have hnone : columns = 0 → appended = [] := by
    intro hzero
    rw [← happ, if_pos hzero]
  have hbegins : appended <+: newRows := by
    rw [← happ]
    split
    · exact List.nil_prefix
    · exact List.prefix_rfl
  rw [← hfiles]
  cases op with
  | commit => exact iff_of_true ((commit_healed happended done).mono hbegins) id
  | pruneRows numRows =>
    by_cases hlt : 0 < columns ∧ w.jar.rows < numRows
    · exact pruneRows_healed_iff_of_lt happended hlt.2 hlt.1 done
    · refine pruneRows_healed_iff happended hnone (fun hcolumns => ?_) done
      exact Nat.le_of_not_lt fun h => hlt ⟨hcolumns, h⟩

/-- A row is appended to two, and a removal of two rows is cut off between the offsets file and
    the data file. -/
theorem healed_iff_sample :
    Healed 1 [[[1]], [[2]]] [[[3]]]
      ((NippyJarWriter.opened 1 ⟨[1, 2], [0, 1, 2], ⟨2, 1⟩⟩).appendRows [[[3]]]) (.pruneRows 2)
      ⟨[1, 2], [0, 1], ⟨2, 1⟩⟩ := by
  have hstores : Stores 1 [[[1]], [[2]]] ⟨[1, 2], [0, 1, 2], ⟨2, 1⟩⟩ :=
    ⟨by decide, rfl, rfl, rfl⟩
  have hnew : ∀ row ∈ ([[[3]]] : List Row), row.length = 1 := by decide
  refine (healed_iff hstores hnew (.pruneRows 2) 3).mpr ?_
  rintro ⟨-, hle, -⟩
  exact absurd hle (by decide)

/-- The removal of the only row is cut off after the offsets file: the jar is opened without an
    offset, and fails the check. -/
theorem emptied_not_consistent : Stores 1 [[[1]]] ⟨[1], [0, 1], ⟨1, 1⟩⟩ ∧
    runOps (((NippyJarWriter.opened 1 ⟨[1], [0, 1], ⟨1, 1⟩⟩).pruneOps 1).take 1)
      ⟨[1], [0, 1], ⟨1, 1⟩⟩ = ⟨[1], [], ⟨1, 1⟩⟩ ∧
    ensureConsistency 1 9 ⟨[1], [], ⟨1, 1⟩⟩ = some ⟨[], [], ⟨0, 1⟩⟩ ∧
    checkConsistency 1 9 ⟨[], [], ⟨0, 1⟩⟩ = none ∧
    ¬ Healed 1 [[[1]]] [] (.opened 1 ⟨[1], [0, 1], ⟨1, 1⟩⟩) (.pruneRows 1) ⟨[1], [], ⟨1, 1⟩⟩ :=
  ⟨⟨by decide, rfl, rfl, rfl⟩, by decide +kernel, by decide +kernel, by decide +kernel,
    not_healed_of_emptied (by decide) rfl⟩

end NippyJar

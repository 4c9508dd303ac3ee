import Pasifika.NippyJar.Writer

/-! # A jar is a list of rows

Appending rows, removing rows at the end and committing, a writer should do what the
same operations do to a list of rows. `Keeps values w` says that it does: all column
values written are in the data, and their offsets are those on disk followed by those
in memory, of which the first is the last one on disk. Removing rows keeps this unless
rows on disk are removed while an offset stays in memory that is not the last one on
disk any more. -/

namespace NippyJar

open Layout List Option Nat Runs

/-- The sizes of values. -/
abbrev lengths (values : List Bytes) : List ℕ := values.map List.length

/-- The offsets of the disk and those of the memory make up all offsets. -/
inductive Joined (all : List ℕ) : List ℕ → List ℕ → Prop
  | disk : Joined all all []
  | both {disk rest : List ℕ} {first : ℕ} (hall : disk ++ first :: rest = all) :
      Joined all (disk ++ [first]) (first :: rest)
  | memory : Joined all [] all
  | none (hall : all = [0]) : Joined all [] []

/-- **THE WRITER KEEPS VALUES**: what it has written, and where. -/
structure Keeps (values : List Bytes) (w : NippyJarWriter) : Prop where
  data : w.files.data ++ w.pending = values.flatten
  offsets : Joined (offsets (lengths values)) w.files.offsets w.offsets
  count : w.jar.rows * w.columns + w.column = values.length

namespace Keeps

variable {values : List Bytes} {w : NippyJarWriter}

theorem create (columns : ℕ) : Keeps [] (.create columns) :=
  ⟨rfl, .disk, by simp [NippyJarWriter.create, NippyJarWriter.opened]⟩

theorem position_eq (h : Keeps values w) : w.position = (lengths values).sum := by
  rw [NippyJarWriter.position, ← length_append, h.data, length_flatten]

end Keeps

/-! ## Appending -/

variable {sizes disk memory : List ℕ} {w : NippyJarWriter} {values : List Bytes} {numRows : ℕ}

theorem Joined.concat (h : Joined (offsets sizes) disk memory) (n : ℕ) :
    Joined (offsets (sizes ++ [n])) disk
      ((if memory.isEmpty then [sizes.sum] else memory) ++
        [(if memory.isEmpty then [sizes.sum] else memory).getLastD 0 + n]) := by
  have hlast := getLast?_offsets sizes
  rw [offsets_concat]
  generalize hall : offsets sizes = all at h hlast ⊢
  cases h with
  | disk =>
    obtain ⟨disk, rfl⟩ := getLast?_eq_some_iff.mp hlast
    exact .both (by simp)
  | @both disk rest first heq =>
    have hmemory : (first :: rest).getLastD 0 = sizes.sum := by
      rw [← heq, getLast?_append_of_ne_nil _ (cons_ne_nil _ _)] at hlast
      rw [getLastD_eq_getLast?, hlast]
      rfl
    refine .both ?_
    rw [isEmpty_cons, if_neg Bool.false_ne_true, hmemory, ← heq]
    simp
  | memory =>
    rw [isEmpty_eq_false_iff.mpr (hall ▸ offsets_ne_nil sizes), if_neg Bool.false_ne_true,
      getLastD_eq_getLast?, hlast]
    exact .memory
  | none heq =>
    rw [heq] at hlast
    rw [heq, ← some.inj hlast]
    exact .memory

theorem appendColumn_keeps (h : Keeps values w) (hcolumn : w.column < w.columns) (value : Bytes) :
    Keeps (values ++ [value]) (w.appendColumn value) ∧
      (w.appendColumn value).column < (w.appendColumn value).columns ∧
      (w.appendColumn value).columns = w.columns := by
  have hoffsets := h.offsets.concat value.length
  rw [← h.position_eq] at hoffsets
  have hdata : w.files.data ++ (w.pending ++ value) = (values ++ [value]).flatten := by
    rw [← append_assoc, h.data, flatten_append, flatten_singleton]
  have hlengths : lengths values ++ [value.length] = lengths (values ++ [value]) := by simp
  rw [hlengths] at hoffsets
  have hcount := h.count
  by_cases hend : w.columns = w.column + 1
  · -- the last column of the row
    refine ⟨⟨?_, ?_, ?_⟩, ?_, ?_⟩ <;>
      simp only [NippyJarWriter.appendColumn, NippyJarWriter.writeColumn, if_pos hend,
        NippyJarWriter.finalizeRow]
    · exact hdata
    · exact hoffsets
    · rw [length_append, length_singleton, ← hcount, add_mul]
      omega
    · omega
  · refine ⟨⟨?_, ?_, ?_⟩, ?_, ?_⟩ <;>
      simp only [NippyJarWriter.appendColumn, NippyJarWriter.writeColumn, if_neg hend]
    · exact hdata
    · exact hoffsets
    · rw [length_append, length_singleton, ← hcount]
      omega
    · omega

theorem appendColumns_keeps (row : Row) (h : Keeps values w) (hcolumn : w.column < w.columns) :
    Keeps (values ++ row) (w.appendRow row) ∧ (w.appendRow row).column < (w.appendRow row).columns ∧
      (w.appendRow row).columns = w.columns := by
  induction row generalizing values w with
  | nil =>
    rw [append_nil]
    exact ⟨h, hcolumn, rfl⟩
  | cons value row ih =>
    obtain ⟨h', hcolumn', hcolumns⟩ := appendColumn_keeps h hcolumn value
    have hrest := ih h' hcolumn'
    rw [append_assoc, singleton_append, hcolumns] at hrest
    exact hrest

variable {row : Row}

/-- **APPENDING A ROW** of all columns. -/
theorem appendRow_keeps (h : Keeps values w) (hcolumn : w.column = 0) (hcolumns : 0 < w.columns)
    (hrow : row.length = w.columns) :
    Keeps (values ++ row) (w.appendRow row) ∧ (w.appendRow row).column = 0 ∧
      (w.appendRow row).columns = w.columns ∧ (w.appendRow row).jar.rows = w.jar.rows + 1 := by
  obtain ⟨h', hlt, hcolumns'⟩ := appendColumns_keeps row h (hcolumn ▸ hcolumns)
  have hcount := h.count
  have hcount' := h'.count
  rw [hcolumns', length_append, ← hcount, hcolumn, hrow, add_zero, ← succ_mul] at hcount'
  -- a column within the row is determined by the number of values
  have hcol : (w.appendRow row).column = 0 := by
    have := congrArg (· % w.columns) hcount'
    simp only [mul_comm _ w.columns, mul_add_mod, mul_mod_right] at this
    rwa [mod_eq_of_lt (hcolumns' ▸ hlt)] at this
  refine ⟨h', hcol, hcolumns', ?_⟩
  rw [hcol, add_zero] at hcount'
  exact eq_of_mul_eq_mul_right hcolumns hcount'

/-! ## Committing -/

theorem Joined.commit {all disk memory : List ℕ} (h : Joined all disk memory) :
    Joined all (disk ++ NippyJarWriter.newOffsets disk.getLast? memory) [] := by
  cases h with
  | disk =>
    rw [NippyJarWriter.newOffsets, append_nil]
    exact .disk
  | @both disk rest first hall =>
    rw [getLast?_concat, NippyJarWriter.newOffsets, if_pos rfl, append_assoc,
      singleton_append, hall]
    exact .disk
  | memory =>
    have hnew : NippyJarWriter.newOffsets ([] : List ℕ).getLast? all = all := by
      cases all with
      | nil => rfl
      | cons offset all =>
        rw [NippyJarWriter.newOffsets, getLast?_nil, if_neg (some_ne_none _).symm]
    rw [hnew, nil_append]
    exact .disk
  | none hall => exact .none hall

theorem files_commit (w : NippyJarWriter) :
    w.commit.files = ⟨w.files.data ++ w.pending,
      w.files.offsets ++ NippyJarWriter.newOffsets w.files.offsets.getLast? w.offsets, w.jar⟩ := by
  show runOps w.commitOps w.files = _
  rw [NippyJarWriter.commitOps, runOps_append, runOps_append, runOps_writeData, runOps_writeOffset]
  rfl

/-- **COMMITTING.** -/
theorem commit_keeps (h : Keeps values w) : Keeps values w.commit := by
  refine ⟨?_, ?_, h.count⟩
  · rw [files_commit]
    exact (append_nil _).trans h.data
  · rw [files_commit]
    exact h.offsets.commit

/-! ## Removing rows -/

namespace NippyJarWriter

/-- The last offset that stays on disk when `prune_rows` removes rows from there. -/
def keptOffset (w : NippyJarWriter) (numRows : ℕ) : ℕ :=
  let newNumOffsets := w.files.offsets.length - (numRows * w.columns - (w.offsets.length - 1))
  if newNumOffsets ≤ 1 then 0 else w.files.offsets.getD (newNumOffsets - 1) 0

/-- Rows are removed from memory only, or the offset that stays in memory is the last one that stays
    on disk. -/
def prunesClean (w : NippyJarWriter) (numRows : ℕ) : Bool :=
  decide (numRows * w.columns ≤ w.offsets.length - 1) ||
    w.offsets.head?.all (fun offset => offset == w.keptOffset numRows)

end NippyJarWriter

theorem Joined.prune_memory {first : ℕ} {rest : List ℕ}
    (h : Joined (offsets sizes) disk (first :: rest)) {count : ℕ} (hcount : count ≤ rest.length) :
    count ≤ sizes.length ∧
    (first :: rest).getD ((first :: rest).length - 1 - count) 0 =
      start sizes (sizes.length - count) ∧
    Joined (offsets (sizes.take (sizes.length - count))) disk
      ((first :: rest).take ((first :: rest).length - count)) := by
  have key : ∀ before : List ℕ, before ++ first :: rest = offsets sizes → count ≤ sizes.length ∧
      (first :: rest).getD ((first :: rest).length - 1 - count) 0 =
        start sizes (sizes.length - count) ∧
      before ++ (first :: rest).take ((first :: rest).length - count) =
        offsets (sizes.take (sizes.length - count)) := by
    intro before hall
    have hlen := congrArg length hall
    rw [length_append, length_cons, length_offsets] at hlen
    refine ⟨by omega, ?_, ?_⟩
    · have hget := getElem?_offsets (show sizes.length - count ≤ sizes.length by omega)
      rw [← hall, getElem?_append_right (by omega)] at hget
      rw [getD_eq_getElem?_getD, length_cons,
        show rest.length + 1 - 1 - count = sizes.length - count - before.length by omega, hget]
      rfl
    · have hbefore : before.take (sizes.length - count + 1) = before :=
        take_of_length_le (by omega)
      rw [← take_offsets (by omega), ← hall, take_append, hbefore, length_cons,
        show sizes.length - count + 1 - before.length = rest.length + 1 - count by omega]
  have hcons : (first :: rest).take ((first :: rest).length - count) =
      first :: rest.take (rest.length - count) := by
    rw [length_cons, show rest.length + 1 - count = rest.length - count + 1 by omega]
    rfl
  generalize hall : offsets sizes = all at h
  cases h with
  | @both disk _ _ heq =>
    obtain ⟨hle, hget, htake⟩ := key disk (heq.trans hall.symm)
    refine ⟨hle, hget, ?_⟩
    rw [hcons] at htake ⊢
    exact .both htake
  | memory =>
    obtain ⟨hle, hget, htake⟩ := key [] hall.symm
    refine ⟨hle, hget, ?_⟩
    rw [← htake]
    exact .memory

/-- When more offsets are removed than memory has, all others are on disk. -/
theorem Joined.disk_eq (h : Joined (offsets sizes) disk memory) (hnum : num ≤ sizes.length)
    (hmore : memory.length - 1 < num) :
    disk = offsets (sizes.take (sizes.length - (memory.length - 1))) := by
  have hlen := length_offsets sizes
  rw [← take_offsets (sub_le _ _)]
  generalize offsets sizes = all at h hlen ⊢
  cases h with
  | disk =>
    rw [take_of_length_le]
    simp [hlen]
  | @both disk rest first heq =>
    have hdisk : sizes.length - rest.length = disk.length := by
      rw [← heq, length_append, length_cons] at hlen
      omega
    rw [length_cons, Nat.add_sub_cancel, hdisk, ← heq, take_append,
      take_of_length_le (le_succ _), Nat.add_sub_cancel_left]
    rfl
  | memory => omega
  | none heq =>
    rw [heq, length_singleton] at hlen
    omega

/-- The offsets file's new length: no offset is left when there is no row left. -/
def keptOffsets (numValues : ℕ) : ℕ := if numValues = 0 then 0 else numValues + 1

theorem pruneDiskOps_eq (hdisk : w.files.offsets = offsets sizes) (hpos : 0 < remaining)
    (hle : remaining ≤ sizes.length) :
    w.pruneDiskOps remaining = some [.setOffsetsLen (keptOffsets (sizes.length - remaining)),
      .setDataLen (start sizes (sizes.length - remaining))] := by
  rw [NippyJarWriter.pruneDiskOps, if_pos hpos, hdisk]
  rw [length_offsets, if_pos ⟨succ_pos _, by omega⟩, keptOffsets]
  by_cases hnone : sizes.length - remaining = 0
  · rw [if_pos (by omega), if_pos hnone, hnone, start_zero]
  · rw [if_neg (by omega), if_neg hnone,
      show sizes.length + 1 - remaining = sizes.length - remaining + 1 by omega,
      Nat.add_sub_cancel, getD_eq_getElem?_getD, getElem?_offsets (sub_le _ _)]
    rfl

theorem pruneMemoryOps_keeps (h : Keeps values w) (numRows : ℕ) :
    w.pruneMemoryOps (w.pruneCount numRows) =
      if w.pruneCount numRows = 0 then []
      else [.setDataLen (start (lengths values) (values.length - w.pruneCount numRows))] := by
  rw [NippyJarWriter.pruneMemoryOps]
  by_cases hzero : w.pruneCount numRows = 0
  · rw [if_pos hzero, if_neg (by omega)]
  rw [if_neg hzero, if_pos (pos_of_ne_zero hzero)]
  have hcount : w.pruneCount numRows ≤ w.offsets.length - 1 := min_le_right _ _
  cases hoffsets : w.offsets with
  | nil =>
    rw [hoffsets] at hcount
    exact absurd (le_zero.mp hcount) hzero
  | cons first rest =>
    have hjoined := h.offsets
    rw [hoffsets] at hjoined hcount
    rw [(hjoined.prune_memory hcount).2.1, length_map]

theorem pruneDiskOps_keeps (h : Keeps values w) (hnum : numRows * w.columns ≤ values.length) :
    w.pruneDiskOps (w.pruneRemaining numRows) =
      some (if numRows * w.columns ≤ w.offsets.length - 1 then []
        else [.setOffsetsLen (keptOffsets (values.length - numRows * w.columns)),
          .setDataLen (start (lengths values) (values.length - numRows * w.columns))]) := by
  have hlengths : (lengths values).length = values.length := length_map _
  rw [NippyJarWriter.pruneRemaining, NippyJarWriter.pruneCount]
  by_cases hle : numRows * w.columns ≤ w.offsets.length - 1
  · rw [if_pos hle, min_eq_left hle, Nat.sub_self]
    rfl
  rw [if_neg hle, min_eq_right (by omega)]
  have heq := h.offsets.disk_eq (hlengths ▸ hnum) (by omega)
  have htake : ((lengths values).take (values.length - (w.offsets.length - 1))).length =
      values.length - (w.offsets.length - 1) := by
    rw [length_take, hlengths]
    omega
  rw [hlengths] at heq
  rw [pruneDiskOps_eq heq (by omega) (by omega), htake, start_take (by omega),
    show values.length - (w.offsets.length - 1) - (numRows * w.columns - (w.offsets.length - 1)) =
      values.length - numRows * w.columns by omega]

/-- The changes of `prune_rows`: values with offsets in memory are removed first, then those on
    disk. -/
theorem pruneOps_eq (h : Keeps values w) (hnum : numRows * w.columns ≤ values.length) :
    w.pruneOps numRows = w.pending.map .writeData ++
      ((if w.pruneCount numRows = 0 then []
        else [.setDataLen (start (lengths values) (values.length - w.pruneCount numRows))]) ++
      ((if numRows * w.columns ≤ w.offsets.length - 1 then []
        else [.setOffsetsLen (keptOffsets (values.length - numRows * w.columns)),
          .setDataLen (start (lengths values) (values.length - numRows * w.columns))]) ++
      [.freezeConfig (NippyJarWriter.prunedConfig w.jar numRows)])) := by
  rw [NippyJarWriter.pruneOps, pruneMemoryOps_keeps h, pruneDiskOps_keeps h hnum]

/-- The data after some of the changes that cut it. -/
theorem setLen_flatten (values : List Bytes) (h : i ≤ j) :
    setLen 0 (start (lengths values) i) (values.take j).flatten = (values.take i).flatten := by
  have htake : (lengths values).take j = lengths (values.take j) := (map_take).symm
  have hlen : start (lengths values) i ≤ (values.take j).flatten.length := by
    rw [length_flatten, ← start_take h, htake]
    exact start_le_sum _ _
  rw [setLen_of_le hlen, ← start_take h, htake, take_flatten, take_take, min_eq_left h]

theorem pruneRows_eq (h : Keeps values w) (hnum : numRows * w.columns ≤ values.length) :
    w.pruneRows numRows = some { w with
      jar := NippyJarWriter.prunedConfig w.jar numRows
      files := ⟨(values.take (values.length - numRows * w.columns)).flatten,
        if numRows * w.columns ≤ w.offsets.length - 1 then w.files.offsets
        else setLen 0 (keptOffsets (values.length - numRows * w.columns)) w.files.offsets,
        NippyJarWriter.prunedConfig w.jar numRows⟩
      pending := []
      offsets := w.offsets.take (w.offsets.length - w.pruneCount numRows) } := by
  have hcount : w.pruneCount numRows ≤ numRows * w.columns := min_le_left _ _
  have hmemory : setLen 0 (start (lengths values) (values.length - w.pruneCount numRows))
      values.flatten = (values.take (values.length - w.pruneCount numRows)).flatten := by
    have hset := setLen_flatten values (sub_le values.length (w.pruneCount numRows))
    rwa [take_length] at hset
  have hdisk := setLen_flatten values
    (show values.length - numRows * w.columns ≤ values.length - w.pruneCount numRows by omega)
  rw [NippyJarWriter.pruneRows, pruneDiskOps_keeps h hnum, pruneOps_eq h hnum]
  simp only [bind_eq_bind, bind_some, runOps_append, runOps_writeData, h.data]
  by_cases hle : numRows * w.columns ≤ w.offsets.length - 1
  · -- all removed values have their offsets in memory
    have heq : w.pruneCount numRows = numRows * w.columns := min_eq_left hle
    rw [if_pos hle, if_pos hle, heq]
    by_cases hzero : numRows * w.columns = 0
    · simp [hzero, FileOp.apply]
    · rw [heq] at hmemory
      simp [hzero, FileOp.apply, hmemory]
  · rw [if_neg hle, if_neg hle]
    by_cases hzero : w.pruneCount numRows = 0
    · rw [hzero, Nat.sub_zero, take_length] at hdisk
      simp [hzero, FileOp.apply, hdisk]
    · simp [hzero, FileOp.apply, hmemory, hdisk]

/-- The offsets that stay on disk, and the one that stays in memory. -/
theorem Joined.prune_disk (hi : i ≤ sizes.length)
    (hmemory : memory = [] ∨ memory = [start sizes i]) :
    Joined (offsets (sizes.take i)) (setLen 0 (keptOffsets i) (offsets sizes)) memory := by
  rw [keptOffsets]
  by_cases hzero : i = 0
  · subst hzero
    rw [if_pos rfl, setLen_of_le (zero_le _), take_zero, take_zero]
    rcases hmemory with rfl | rfl
    · exact .none rfl
    · exact .memory
  · rw [if_neg hzero, setLen_of_le (by rw [length_offsets]; omega), take_offsets hi]
    rcases hmemory with rfl | rfl
    · exact .disk
    · obtain ⟨disk, hdisk⟩ := getLast?_eq_some_iff.mp (getLast?_offsets (sizes.take i))
      rw [show start sizes i = (sizes.take i).sum from rfl, hdisk]
      exact .both rfl

theorem keptOffset_eq
    (hdisk : w.files.offsets =
      offsets ((lengths values).take (values.length - (w.offsets.length - 1))))
    (hnum : numRows * w.columns ≤ values.length)
    (hmore : w.offsets.length - 1 < numRows * w.columns) :
    w.keptOffset numRows = start (lengths values) (values.length - numRows * w.columns) := by
  have htake : ((lengths values).take (values.length - (w.offsets.length - 1))).length =
      values.length - (w.offsets.length - 1) := by
    rw [length_take, length_map]
    omega
  have hnew : values.length - (w.offsets.length - 1) + 1 -
      (numRows * w.columns - (w.offsets.length - 1)) =
      values.length - numRows * w.columns + 1 := by
    omega
  rw [NippyJarWriter.keptOffset, hdisk, length_offsets, htake]
  rw [hnew, Nat.add_sub_cancel, getD_eq_getElem?_getD,
    getElem?_offsets (by omega), start_take (by omega)]
  by_cases hnone : values.length - numRows * w.columns = 0
  · rw [if_pos (by omega), hnone, start_zero]
  · rw [if_neg (by omega)]
    rfl

/-- **REMOVING ROWS** with a clean memory. -/
theorem pruneRows_keeps (h : Keeps values w) (hcolumn : w.column = 0)
    (hrows : numRows ≤ w.jar.rows) (hclean : w.prunesClean numRows = true) :
    ∃ w', w.pruneRows numRows = some w' ∧
      Keeps (values.take ((w.jar.rows - numRows) * w.columns)) w' ∧ w'.column = 0 ∧
      w'.columns = w.columns ∧ w'.jar.rows = w.jar.rows - numRows := by
  have hlengths : (lengths values).length = values.length := length_map _
  have hcount := h.count
  rw [hcolumn, add_zero] at hcount
  have hnum : numRows * w.columns ≤ values.length :=
    hcount ▸ mul_le_mul_right w.columns hrows
  have hkept : (w.jar.rows - numRows) * w.columns = values.length - numRows * w.columns := by
    rw [Nat.sub_mul, hcount]
  refine ⟨_, pruneRows_eq h hnum, ⟨?_, ?_, ?_⟩, hcolumn, rfl, rfl⟩
  · show _ ++ [] = _
    rw [append_nil, hkept]
  · show Joined (offsets (lengths (values.take ((w.jar.rows - numRows) * w.columns))))
      (if numRows * w.columns ≤ w.offsets.length - 1 then w.files.offsets
        else setLen 0 (keptOffsets (values.length - numRows * w.columns)) w.files.offsets)
      (w.offsets.take (w.offsets.length - w.pruneCount numRows))
    rw [hkept, lengths, map_take, NippyJarWriter.pruneCount]
    by_cases hle : numRows * w.columns ≤ w.offsets.length - 1
    · rw [if_pos hle, min_eq_left hle]
      cases hoffsets : w.offsets with
      | nil =>
        rw [hoffsets] at hle
        have hzero : numRows * w.columns = 0 := le_zero.mp hle
        have hjoined := h.offsets
        rw [hoffsets] at hjoined
        rw [hzero, Nat.sub_zero, ← hlengths, take_length, take_nil]
        exact hjoined
      | cons first rest =>
        have hjoined := h.offsets
        rw [hoffsets] at hjoined hle
        have := (hjoined.prune_memory hle).2.2
        rwa [hlengths] at this
    · have hdisk := h.offsets.disk_eq (hlengths ▸ hnum) (by omega)
      rw [hlengths] at hdisk
      have hmemory : w.offsets.take (w.offsets.length - (w.offsets.length - 1)) = [] ∨
          w.offsets.take (w.offsets.length - (w.offsets.length - 1)) =
            [start (lengths values) (values.length - numRows * w.columns)] := by
        rw [← keptOffset_eq hdisk hnum (by omega)]
        rw [NippyJarWriter.prunesClean, decide_eq_false hle, Bool.false_or] at hclean
        cases hoffsets : w.offsets with
        | nil => exact .inl rfl
        | cons first rest =>
          rw [hoffsets] at hclean
          have hfirst : first = w.keptOffset numRows := beq_iff_eq.mp hclean
          right
          rw [← hfirst, length_cons, Nat.add_sub_cancel, Nat.add_sub_cancel_left]
          rfl
      rw [if_neg hle, min_eq_right (by omega), hdisk]
      have hin : values.length - numRows * w.columns ≤
          ((lengths values).take (values.length - (w.offsets.length - 1))).length := by
        rw [length_take, hlengths]
        omega
      rw [← start_take (show values.length - numRows * w.columns ≤
        values.length - (w.offsets.length - 1) by omega)] at hmemory
      have hkeep := Joined.prune_disk hin hmemory
      rwa [take_take, min_eq_left (by omega)] at hkeep
  · show (w.jar.rows - numRows) * w.columns + w.column = _
    rw [hcolumn, add_zero, hkept, length_take, min_eq_left (sub_le _ _)]

/-! ## Reading rows back -/

/-- **THE FILES STORE ROWS**: data, offsets and configuration agree. -/
structure Stores (columns : ℕ) (rows : List Row) (files : Files) : Prop where
  width : ∀ row ∈ rows, row.length = columns
  data : files.data = rows.flatten.flatten
  offsets : files.offsets = offsets (lengths rows.flatten)
  count : files.config.rows = rows.length

theorem length_flatten_rows {columns : ℕ} {rows : List Row}
    (h : ∀ row ∈ rows, row.length = columns) : rows.flatten.length = rows.length * columns := by
  induction rows with
  | nil => rw [length_nil, zero_mul]; rfl
  | cons row rows ih =>
    rw [flatten_cons, length_append, h row mem_cons_self,
      ih fun row hrow => h row (mem_cons_of_mem _ hrow), length_cons, succ_mul,
      add_comm]

theorem getElem?_flatten_rows {columns : ℕ} {rows : List Row} {i column : ℕ}
    (h : ∀ row ∈ rows, row.length = columns) (hrow : rows[i]? = some row) :
    row[column]? = some value → rows.flatten[i * columns + column]? = some value := by
  induction rows generalizing i column row value with
  | nil => nomatch hrow
  | cons first rows ih =>
    intro hvalue
    have hfirst := h first mem_cons_self
    cases i with
    | zero =>
      cases hrow
      rw [zero_mul, zero_add, flatten_cons,
        getElem?_append_left (List.getElem?_eq_some_iff.mp hvalue).1, hvalue]
    | succ i =>
      have hrest := ih (fun row hrow => h row (mem_cons_of_mem _ hrow)) hrow hvalue
      rw [flatten_cons, getElem?_append_right (by rw [hfirst, succ_mul]; omega),
        hfirst, show (i + 1) * columns + column - columns = i * columns + column by
          rw [succ_mul]; omega, hrest]

theorem mapM_range {B : Type} (f : ℕ → Option B) : ∀ l : List B,
    (∀ i v, l[i]? = some v → f i = some v) → (range l.length).mapM f = some l := by
  intro l
  induction l using reverseRecOn with
  | nil => intro _; rfl
  | append_singleton l v ih =>
    intro h
    have hinit : ∀ i v', l[i]? = some v' → f i = some v' := by
      intro i v' hi
      refine h i v' ?_
      rw [getElem?_append_left (List.getElem?_eq_some_iff.mp hi).1, hi]
    rw [length_append, length_singleton, range_succ, mapM_append, ih hinit,
      mapM_cons, mapM_nil, h l.length v getElem?_concat_length]
    rfl

namespace Stores

variable {columns : ℕ} {rows : List Row} {files : Files}

theorem length_offsets (h : Stores columns rows files) :
    files.offsets.length = rows.length * columns + 1 := by
  rw [h.offsets, Layout.length_offsets, length_map, length_flatten_rows h.width]

theorem readValue_eq (h : Stores columns rows files) {i column : ℕ} (hrow : rows[i]? = some row)
    (hvalue : row[column]? = some value) :
    readValue columns files i column = some value := by
  have hget := getElem?_flatten_rows h.width hrow hvalue
  generalize hpos : i * columns + column = pos at hget
  have hlt := (List.getElem?_eq_some_iff.mp hget).1
  have hlengths : (lengths rows.flatten).length = rows.flatten.length := length_map _
  have hsize : rows.flatten.flatten.length = (lengths rows.flatten).sum := length_flatten
  have hslice := slice_flatten hget
  have hle := start_mono (lengths rows.flatten) (le_succ pos)
  have hnext := start_le_sum (lengths rows.flatten) (pos + 1)
  have hend : slice rows.flatten.flatten (start (lengths rows.flatten) pos)
      (start (lengths rows.flatten) (pos + 1)) = some value := by
    rw [slice, if_pos ⟨hle, hsize ▸ hnext⟩, hslice]
  simp only [readValue, h.offsets, h.data, h.count, hpos,
    getElem?_offsets (hlengths ▸ hlt.le : pos ≤ (lengths rows.flatten).length),
    getElem?_offsets (hlengths ▸ hlt : pos + 1 ≤ (lengths rows.flatten).length),
    bind_eq_bind, bind_some]
  by_cases hlast : rows.length * columns = pos + 1
  · -- the value ends where the data ends
    have hstart : start (lengths rows.flatten) (pos + 1) = rows.flatten.flatten.length := by
      rw [hsize, ← start_length, hlengths, length_flatten_rows h.width, hlast]
    rw [if_pos hlast, ← hstart, hend]
  · rw [if_neg hlast, hend]

/-- **READING A ROW** back. -/
theorem rowByNumber_eq (h : Stores columns rows files) (hrow : rows[i]? = some row) :
    rowByNumber columns files i = some (some row) := by
  have hlt := (List.getElem?_eq_some_iff.mp hrow).1
  have hwidth := h.width row (mem_of_getElem? hrow)
  rw [rowByNumber, h.count, if_neg (by omega), ← hwidth, mapM_range _ row]
  · rfl
  · intro column value hvalue
    rw [hwidth]
    exact h.readValue_eq hrow hvalue

end Stores

/-! ## Runs -/

/-- An operation on a writer. -/
inductive JarOp
  | appendRow (row : Row)
  | pruneRows (numRows : ℕ)
  | commit

/-- The operation on the writer. -/
def NippyJarWriter.apply (w : NippyJarWriter) : JarOp → Option NippyJarWriter
  | .appendRow row => some (w.appendRow row)
  | .pruneRows numRows => w.pruneRows numRows
  | .commit => some w.commit

/-- The operation on a list of rows. -/
def replay (rows : List Row) : JarOp → List Row
  | .appendRow row => rows ++ [row]
  | .pruneRows numRows => rows.take (rows.length - numRows)
  | .commit => rows

/-- A writer, and the list of rows that the same operations make. -/
abbrev Jar := NippyJarWriter × List Row

namespace Jar

/-- One operation on both. -/
def apply (s : Jar) (op : JarOp) : Option Jar := (s.1.apply op).map (fun w => (w, replay s.2 op))

/-- Rows have all columns, and no more rows are removed than there are. -/
def valid (s : Jar) : JarOp → Bool
  | .appendRow row => row.length == s.1.columns
  | .pruneRows numRows => decide (numRows ≤ s.2.length)
  | .commit => true

/-- There are columns to append, and rows are removed with a clean memory. -/
def clean (s : Jar) : JarOp → Bool
  | .appendRow _ => decide (0 < s.1.columns)
  | .pruneRows numRows => s.1.prunesClean numRows
  | .commit => true

/-- What holds of the writer and the rows. -/
structure Good (columns : ℕ) (s : Jar) : Prop where
  columns_eq : s.1.columns = columns
  column : s.1.column = 0
  width : ∀ row ∈ s.2, row.length = columns
  keeps : Keeps s.2.flatten s.1
  rows : s.1.jar.rows = s.2.length

theorem good_create (columns : ℕ) : Good columns (.create columns, []) :=
  ⟨rfl, rfl, fun _ h => absurd h not_mem_nil, Keeps.create columns, rfl⟩

variable {columns : ℕ}

theorem take_flatten_rows {rows : List Row} (h : ∀ row ∈ rows, row.length = columns) (n : ℕ) :
    rows.flatten.take (n * columns) = (rows.take n).flatten := by
  induction rows generalizing n with
  | nil => simp
  | cons row rows ih =>
    cases n with
    | zero => simp
    | succ n =>
      have hrow := h row mem_cons_self
      have hrest := ih (fun row hrow => h row (mem_cons_of_mem _ hrow)) n
      rw [flatten_cons, take_append, take_of_length_le (by
          rw [hrow, succ_mul]; omega), hrow,
        show (n + 1) * columns - columns = n * columns by rw [succ_mul]; omega, hrest,
        take_succ_cons, flatten_cons]

/-- **A CLEAN STEP** succeeds and keeps the writer in step with the rows. -/
theorem Good.step (h : Good columns s) (hvalid : s.valid op = true) (hclean : s.clean op = true) :
    ∃ s', s.apply op = some s' ∧ Good columns s' := by
  obtain ⟨w, rows⟩ := s
  obtain ⟨hcolumns, hcolumn, hwidth, hkeeps, hrows⟩ := h
  subst hcolumns
  cases op with
  | appendRow row =>
    have hrow : row.length = w.columns := beq_iff_eq.mp hvalid
    obtain ⟨hkeeps', hcolumn', hcolumns', hrows'⟩ :=
      appendRow_keeps hkeeps hcolumn (of_decide_eq_true hclean) hrow
    refine ⟨_, rfl, hcolumns', hcolumn', ?_, ?_, ?_⟩
    · intro row' hmem
      rcases mem_append.mp hmem with hmem | hmem
      · exact hwidth row' hmem
      · rw [mem_singleton.mp hmem, hrow]
    · show Keeps (rows ++ [row]).flatten _
      rw [flatten_append, flatten_singleton]
      exact hkeeps'
    · show _ = (rows ++ [row]).length
      rw [hrows', hrows, length_append]
      rfl
  | pruneRows numRows =>
    have hle : numRows ≤ rows.length := of_decide_eq_true hvalid
    obtain ⟨w', hw', hkeeps', hcolumn', hcolumns', hrows'⟩ :=
      pruneRows_keeps hkeeps hcolumn (hrows ▸ hle) hclean
    refine ⟨(w', rows.take (rows.length - numRows)), ?_, hcolumns', hcolumn', ?_, ?_, ?_⟩
    · rw [apply, NippyJarWriter.apply, hw']
      rfl
    · intro row hmem
      exact hwidth row (mem_of_mem_take hmem)
    · rw [hrows, take_flatten_rows hwidth] at hkeeps'
      exact hkeeps'
    · rw [hrows', hrows]
      rw [length_take, min_eq_left (sub_le _ _)]
  | commit => exact ⟨_, rfl, rfl, hcolumn, hwidth, commit_keeps hkeeps, hrows⟩

/-- The writer's files after a commit hold the rows, if any offset was written. -/
theorem Good.stores_commit {s : Jar} (h : Good columns s)
    (hoffset : s.1.files.offsets ≠ [] ∨ s.1.offsets ≠ []) :
    Stores columns s.2 s.1.commit.files := by
  obtain ⟨w, rows⟩ := s
  have hall := offsets_ne_nil (lengths rows.flatten)
  have hkeeps : Keeps rows.flatten w.commit := commit_keeps h.keeps
  have hjoined := h.keeps.offsets.commit
  refine ⟨h.width, ?_, ?_, by rw [files_commit]; exact h.rows⟩
  · rw [← hkeeps.data]
    exact (append_nil _).symm
  rw [files_commit]
  -- an offset on disk or in memory is on disk after the commit
  have hne : w.files.offsets ++
      NippyJarWriter.newOffsets w.files.offsets.getLast? w.offsets ≠ [] := by
    intro hnil
    obtain ⟨hdisk, hnew⟩ := append_eq_nil_iff.mp hnil
    rcases hoffset with hoffset | hoffset
    · exact hoffset hdisk
    · obtain ⟨first, rest, hcons⟩ := exists_cons_of_ne_nil hoffset
      rw [hdisk, hcons, NippyJarWriter.newOffsets, getLast?_nil,
        if_neg (some_ne_none _).symm] at hnew
      nomatch hnew
  generalize w.files.offsets ++
    NippyJarWriter.newOffsets w.files.offsets.getLast? w.offsets = disk at hjoined hne
  generalize offsets (lengths rows.flatten) = all at hjoined hall
  cases hjoined with
  | disk => rfl
  | memory => exact absurd rfl hall
  | none => exact absurd rfl hne

end Jar

/-- The files read as a list of rows. -/
def ReadsAs (columns : ℕ) (rows : List Row) (files : Files) : Prop :=
  files.config.rows = rows.length ∧ files.offsets.length = rows.length * columns + 1 ∧
    ∀ (i : ℕ) (row : Row), rows[i]? = some row → rowByNumber columns files i = some (some row)

/-- **A JAR IS A LIST OF ROWS**: in every run that removes rows with a clean memory every operation
    succeeds, and after a commit the files read as the list of rows that the same operations make,
    iff there was an offset on disk or in memory. -/
theorem stored_of_clean_run {columns : ℕ} {s : Jar}
    (h : Runs.ReachedBy (fun s op s' => Jar.apply s op = some s')
      (fun s op => (s.valid op && s.clean op) = true) (.create columns, []) s) :
    (∀ op, (s.valid op && s.clean op) = true → ∃ s', s.apply op = some s') ∧
    (ReadsAs columns s.2 s.1.commit.files ↔ s.1.files.offsets ≠ [] ∨ s.1.offsets ≠ []) := by
  have hgood : Jar.Good columns s := by
    refine ReachedBy.invariant (I := Jar.Good columns) (Jar.good_create columns) ?_ h
    intro s op s' _ hgood hguard hstep
    obtain ⟨hvalid, hclean⟩ := Bool.and_eq_true_iff.mp hguard
    obtain ⟨s1, hs1, hgood'⟩ := hgood.step hvalid hclean
    cases hs1.symm.trans hstep
    exact hgood'
  refine ⟨fun op hguard => ?_, fun hreads => ?_, fun hoffset => ?_⟩
  · obtain ⟨hvalid, hclean⟩ := Bool.and_eq_true_iff.mp hguard
    obtain ⟨s', hs', -⟩ := hgood.step hvalid hclean
    exact ⟨s', hs'⟩
  · -- without any offset the offsets file stays empty
    by_contra hno
    rw [not_or, not_not, not_not] at hno
    have hlen := hreads.2.1
    rw [files_commit, hno.1, hno.2] at hlen
    nomatch hlen
  · have hstores := hgood.stores_commit hoffset
    exact ⟨hstores.count, hstores.length_offsets, fun i row => hstores.rowByNumber_eq⟩

/-- Rows removed from memory and from disk, and appended again. -/
theorem stored_of_clean_run_sample :
    ∃ s : Jar, Runs.ReachedBy (fun s op s' => Jar.apply s op = some s')
        (fun s op => (s.valid op && s.clean op) = true) (.create 2, []) s ∧
      s.2 = [[[1], [2, 3]], [[8], [9]]] ∧ ReadsAs 2 s.2 s.1.commit.files := by
  obtain ⟨s, hs, hcheck⟩ := exists_of_next Jar.apply (fun s op => s.valid op && s.clean op)
    [.appendRow [[1], [2, 3]], .appendRow [[4], []], .commit, .pruneRows 1, .appendRow [[5], [6]],
      .appendRow [[7], []], .pruneRows 2, .appendRow [[8], [9]]] (.create 2, [])
    (fun s => decide (s.2 = [[[1], [2, 3]], [[8], [9]]] ∧ s.1.files.offsets ≠ []))
    (by decide +kernel)
  obtain ⟨hrows, hoffset⟩ := of_decide_eq_true hcheck
  exact ⟨s, hs, hrows, (stored_of_clean_run hs).2.mpr (.inl hoffset)⟩

/-- Two rows, one of them committed, are removed and a third is appended. The offset that stayed in
    memory is past the data, and the row is read back as empty. -/
theorem row_lost_after_prune :
    ∃ s : Jar, Runs.ReachedBy (fun s op s' => Jar.apply s op = some s')
        (fun s op => s.valid op = true) (.create 1, []) s ∧
      s.2 = [[[3]]] ∧ rowByNumber 1 s.1.commit.files 0 = some (some [[]]) := by
  obtain ⟨s, hs, hcheck⟩ := exists_of_next Jar.apply Jar.valid
    [.appendRow [[1]], .commit, .appendRow [[2]], .pruneRows 2, .appendRow [[3]]] (.create 1, [])
    (fun s => decide (s.2 = [[[3]]] ∧ rowByNumber 1 s.1.commit.files 0 = some (some [[]])))
    (by decide +kernel)
  exact ⟨s, hs, of_decide_eq_true hcheck⟩

end NippyJar

import Pasifika.Layout
import Pasifika.Runs

/-! # The jar writer

A jar stores rows of columns in a data file, with the offsets of all columns in an
offsets file, whose last offset is the size of the data, and a configuration with the
number of rows. `NippyJarWriter` appends columns to the data and keeps their offsets
in memory until `commit`.

* `FileOp` — one change of a file. `commitOps` and `pruneOps` list the changes that
  `commit` and `prune_rows` make, in their order.
* `NippyJarWriter.appendColumn`, `pruneRows`, `commit` — the writer.
* `rowByNumber` — reading a row through the cursor. -/

namespace NippyJar

/-- A column value. -/
abbrev Bytes := List UInt8

/-- The columns of a row. -/
abbrev Row := List Bytes

/-- What of the configuration changes: the number of rows, and the maximum uncompressed size
    of a row. -/
structure Config where
  rows : ℕ
  maxRowSize : ℕ
  deriving DecidableEq

/-- The three files of a jar. The offsets file has a first byte with the size of an offset,
    and then the offsets. -/
structure Files where
  data : Bytes
  offsets : List ℕ
  config : Config
  deriving DecidableEq

/-- `set_len`: cut a file, or fill it up. -/
def setLen {B : Type} (fill : B) (len : ℕ) (file : List B) : List B :=
  file.take len ++ List.replicate (len - file.length) fill

theorem setLen_of_le (h : len ≤ file.length) :
    setLen fill len file = file.take len := by
  rw [setLen, Nat.sub_eq_zero_of_le h, List.replicate_zero, List.append_nil]

/-- A change of a file; the buffered data may reach it in any portions, so it is written byte by
    byte. -/
inductive FileOp
  | writeData (byte : UInt8)
  | setDataLen (len : ℕ)
  | writeOffset (offset : ℕ)
  | setOffsetsLen (count : ℕ)
  | freezeConfig (config : Config)
  deriving DecidableEq

/-- The files after a change. -/
def FileOp.apply (files : Files) : FileOp → Files
  | writeData byte => { files with data := files.data ++ [byte] }
  | setDataLen len => { files with data := setLen 0 len files.data }
  | writeOffset offset => { files with offsets := files.offsets ++ [offset] }
  | setOffsetsLen count => { files with offsets := setLen 0 count files.offsets }
  | freezeConfig config => { files with config }

/-- The files after some changes. -/
def runOps (ops : List FileOp) (files : Files) : Files := ops.foldl FileOp.apply files

@[simp] theorem runOps_nil (files : Files) : runOps [] files = files := rfl

@[simp] theorem runOps_cons (op : FileOp) (ops : List FileOp) (files : Files) :
    runOps (op :: ops) files = runOps ops (op.apply files) := rfl

theorem runOps_append (ops ops' : List FileOp) (files : Files) :
    runOps (ops ++ ops') files = runOps ops' (runOps ops files) :=
  List.foldl_append

theorem runOps_writeData (bytes : Bytes) (files : Files) :
    runOps (bytes.map .writeData) files = { files with data := files.data ++ bytes } := by
  induction bytes generalizing files with
  | nil =>
    rw [List.append_nil]
    rfl
  | cons byte bytes ih =>
    rw [List.map_cons, runOps_cons, ih]
    simp [FileOp.apply]

theorem runOps_writeOffset (offsets : List ℕ) (files : Files) :
    runOps (offsets.map .writeOffset) files =
      { files with offsets := files.offsets ++ offsets } := by
  induction offsets generalizing files with
  | nil =>
    rw [List.append_nil]
    rfl
  | cons offset offsets ih =>
    rw [List.map_cons, runOps_cons, ih]
    simp [FileOp.apply]

/-! ## The writer -/

/-- `NippyJarWriter`, without compression: `pending` is the data file's buffer, `offsets` are not
    yet in the file. -/
structure NippyJarWriter where
  columns : ℕ
  jar : Config
  files : Files
  pending : Bytes
  offsets : List ℕ
  column : ℕ
  uncompressedRowSize : ℕ
  deriving DecidableEq

namespace NippyJarWriter

/-- The writer of files that were opened or created. -/
def opened (columns : ℕ) (files : Files) : NippyJarWriter :=
  ⟨columns, files.config, files, [], [], 0, 0⟩

/-- `create_or_open_files` for a new jar: the only offset is the size of the empty data. -/
def create (columns : ℕ) : NippyJarWriter := opened columns ⟨[], [0], ⟨0, 0⟩⟩

/-- `stream_position` of the data file. -/
def position (w : NippyJarWriter) : ℕ := w.files.data.length + w.pending.length

def finalizeRow (w : NippyJarWriter) : NippyJarWriter :=
  { w with
    jar := ⟨w.jar.rows + 1, max w.jar.maxRowSize w.uncompressedRowSize⟩
    uncompressedRowSize := 0
    column := 0 }

def writeColumn (w : NippyJarWriter) (value : Bytes) : NippyJarWriter :=
  let w := { w with
    uncompressedRowSize := w.uncompressedRowSize + value.length
    pending := w.pending ++ value
    column := w.column + 1 }
  if w.columns = w.column then w.finalizeRow else w

/-- `append_column`: the first offset in memory is where the data was to go. -/
def appendColumn (w : NippyJarWriter) (value : Bytes) : NippyJarWriter :=
  let offsets := if w.offsets.isEmpty then [w.position] else w.offsets
  { w.writeColumn value with offsets := offsets ++ [offsets.getLastD 0 + value.length] }

/-- The columns of a row, one after another. -/
def appendRow (w : NippyJarWriter) (row : Row) : NippyJarWriter := row.foldl appendColumn w

/-- What `commit_offsets_inner` writes: the first offset in memory is skipped if it is the last on
    disk. -/
def newOffsets (onDisk : Option ℕ) : List ℕ → List ℕ
  | [] => []
  | offset :: offsets => if onDisk = some offset then offsets else offset :: offsets

/-- The changes of `commit`. -/
def commitOps (w : NippyJarWriter) : List FileOp :=
  w.pending.map .writeData ++
    ((newOffsets w.files.offsets.getLast? w.offsets).map .writeOffset ++ [.freezeConfig w.jar])

def commit (w : NippyJarWriter) : NippyJarWriter :=
  { w with files := runOps w.commitOps w.files, pending := [], offsets := [] }

/-- The number of offsets `prune_rows` removes from memory. -/
def pruneCount (w : NippyJarWriter) (numRows : ℕ) : ℕ :=
  min (numRows * w.columns) (w.offsets.length - 1)

/-- The changes for the offsets removed from memory. -/
def pruneMemoryOps (w : NippyJarWriter) (count : ℕ) : List FileOp :=
  if 0 < count then [.setDataLen (w.offsets.getD (w.offsets.length - 1 - count) 0)] else []

/-- The changes for the offsets removed from disk; it is an error to remove more than there are. -/
def pruneDiskOps (w : NippyJarWriter) (remaining : ℕ) : Option (List FileOp) :=
  if 0 < remaining then
    let numOffsets := w.files.offsets.length
    if 0 < numOffsets ∧ remaining ≤ numOffsets then
      let newNumOffsets := numOffsets - remaining
      if newNumOffsets ≤ 1 then some [.setOffsetsLen 0, .setDataLen 0]
      else
        let lastOffset := w.files.offsets.getD (newNumOffsets - 1) 0
        some [.setOffsetsLen newNumOffsets, .setDataLen lastOffset]
    else none
  else some []

/-- The configuration after `prune_rows`. -/
def prunedConfig (jar : Config) (numRows : ℕ) : Config :=
  ⟨jar.rows - numRows, if jar.rows - numRows = 0 then 0 else jar.maxRowSize⟩

/-- The number of offsets `prune_rows` removes from disk. -/
def pruneRemaining (w : NippyJarWriter) (numRows : ℕ) : ℕ :=
  numRows * w.columns - w.pruneCount numRows

/-- The changes of `prune_rows`, up to the error if there is one. -/
def pruneOps (w : NippyJarWriter) (numRows : ℕ) : List FileOp :=
  w.pending.map .writeData ++ (w.pruneMemoryOps (w.pruneCount numRows) ++
    match w.pruneDiskOps (w.pruneRemaining numRows) with
    | some ops => ops ++ [.freezeConfig (prunedConfig w.jar numRows)]
    | none => [])

def pruneRows (w : NippyJarWriter) (numRows : ℕ) : Option NippyJarWriter := do
  let _ ← w.pruneDiskOps (w.pruneRemaining numRows)
  some { w with
    jar := prunedConfig w.jar numRows
    files := runOps (w.pruneOps numRows) w.files
    pending := []
    offsets := w.offsets.take (w.offsets.length - w.pruneCount numRows) }

end NippyJarWriter

/-! ## The cursor -/

/-- The bytes of a range of the data; a range outside of it is a panic. -/
def slice (data : Bytes) (first last : ℕ) : Option Bytes :=
  if first ≤ last ∧ last ≤ data.length then some ((data.take last).drop first) else none

def readValue (columns : ℕ) (files : Files) (row column : ℕ) : Option Bytes := do
  let offsetPos := row * columns + column
  let valueOffset ← files.offsets[offsetPos]?
  if files.config.rows * columns = offsetPos + 1 then
    -- the last column of the last row
    slice files.data valueOffset files.data.length
  else
    let nextValueOffset ← files.offsets[offsetPos + 1]?
    slice files.data valueOffset nextValueOffset

/-- `row_by_number`: there is no row after the last one. -/
def rowByNumber (columns : ℕ) (files : Files) (row : ℕ) : Option (Option Row) :=
  if files.config.rows ≤ row then some none
  else ((List.range columns).mapM (readValue columns files row)).map some

end NippyJar

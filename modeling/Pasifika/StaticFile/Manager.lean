import Pasifika.StaticFile.Writer
import Pasifika.Storage.Bodies

/-! # The check at startup

`check_consistency` compares each segment with the database: the table of the segment, the
body indices, and the checkpoint of the stage that writes it. A segment that is ahead of
the checkpoint is cut back; where rows are missing an unwind is requested. -/

namespace StaticFile

open Std OrderedMap Storage

variable {T : Type}

namespace StaticFiles

/-- `iter_static_files`: the ranges of the files that have blocks. -/
def ranges (s : StaticFiles T) : List (SegmentRangeInclusive × Option SegmentRangeInclusive) :=
  s.jars.toList.filterMap (fun (_, jar) =>
    jar.header.blockRange.map (fun blockRange => (blockRange, jar.header.txRange)))

/-- The files by their last transaction. -/
def txIndexOf (ranges : List (SegmentRangeInclusive × Option SegmentRangeInclusive)) :
    ExtTreeMap ℕ SegmentRangeInclusive :=
  (ranges.filterMap (fun (blockRange, txRange) =>
    txRange.map (fun txRange => (txRange.stop, blockRange)))).foldl
      (fun index entry => index.insert entry.1 entry.2) ∅

/-- `initialize_index`. The ranges are sorted by their ends, so the last one has the highest. -/
def initializeIndex (s : StaticFiles T) : StaticFiles T :=
  { s with
    maxBlock := (s.ranges.map (fun entry => entry.1.stop)).max?
    txIndex := txIndexOf s.ranges }

/-- `get_highest_static_file_tx`. -/
def highestTx (s : StaticFiles T) : Option ℕ := (last s.txIndex).map Prod.fst

end StaticFiles

/-- What the check reads of the database: the table of the segment, the body indices and the
    checkpoint of its stage. -/
structure Database (T : Type) where
  table : ExtTreeMap ℕ T
  blockBodyIndices : ExtTreeMap ℕ StoredBlockBodyIndices
  checkpoint : Option ℕ

/-- What decides which segments are checked. -/
structure CheckConfig where
  hasReceiptPruning : Bool
  gnosisOrChiado : Bool
  ovmImport : Bool

/-- The segments that are not checked. -/
def CheckConfig.skips (config : CheckConfig) (segment : StaticFileSegment) : Bool :=
  config.ovmImport ||
    (segment == .receipts && (config.hasReceiptPruning || config.gnosisOrChiado))

/-- `ensure_invariants` for a table that is not empty: an unwind for a gap, nothing to do if the
    table is ahead, else the check goes on. -/
def tableCheck (table : ExtTreeMap ℕ T) (highestEntry highestBlock : Option ℕ) :
    Option (Option ℕ) :=
  match table.toList.head?, last table with
  | some (firstEntry, _), some (lastEntry, _) =>
    match highestEntry, highestBlock with
    | some entry, some block =>
      if ¬ (firstEntry ≤ entry ∨ entry + 1 = firstEntry) then some (some block)
      else if entry < lastEntry then some none
      else none
    | some entry, none => if entry < lastEntry then some none else none
    | none, _ => some none
  | _, _ => none

/-- The rows ahead of the checkpoint are to be pruned: none without its body indices, and their
    number must not underflow. -/
def queueHealing (w : StaticFileProviderRW T) (db : Database T)
    (highestEntry highestBlock checkpoint : ℕ) : Option (StaticFileProviderRW T) :=
  if w.segment.isHeaders then w.queuePrune (highestBlock - checkpoint) none
  else
    match db.blockBodyIndices[checkpoint]? with
    | some block =>
      if block.lastTxNum ≤ highestEntry then
        w.queuePrune (highestEntry - block.lastTxNum) (some checkpoint)
      else none
    | none => some w

/-- `ensure_invariants`: the block to unwind to, and the writer. -/
def ensureInvariants (w : StaticFileProviderRW T) (db : Database T)
    (highestEntry highestBlock : Option ℕ) : Option (Option ℕ × StaticFileProviderRW T) :=
  match tableCheck db.table highestEntry highestBlock with
  | some target => some (target, w)
  | none =>
    if highestBlock.getD 0 < db.checkpoint.getD 0 then some (some (highestBlock.getD 0), w)
    else if db.checkpoint.getD 0 < highestBlock.getD 0 then do
      let w ← queueHealing w db (highestEntry.getD 0) (highestBlock.getD 0)
        (db.checkpoint.getD 0)
      let w ← w.commit
      some (none, w)
    else some (none, w)

def updateUnwindTarget (target : Option ℕ) (block : ℕ) : Option ℕ :=
  some (target.elim block (min · block))

/-- `check_consistency` over the blocks whose transactions are missing: the highest block and the
    unwind target. -/
def lastBlockLoop (blockBodyIndices : ExtTreeMap ℕ StoredBlockBodyIndices) (highestTx : ℕ) :
    ℕ → Option ℕ → Option ℕ → Option ℕ × Option ℕ
  | lastBlock, highestBlock, target =>
    match blockBodyIndices[lastBlock]? with
    | none => (highestBlock, target)
    | some indices =>
      if indices.lastTxNum ≤ highestTx then (highestBlock, target)
      else
        match lastBlock with
        | 0 => (highestBlock, target)
        | previous + 1 =>
          lastBlockLoop blockBodyIndices highestTx previous (some previous)
            (updateUnwindTarget target previous)

/-- `check_consistency` for one segment of files that may be written: the unwind target and the
    files. -/
def checkConsistency (config : CheckConfig) (segment : StaticFileSegment) (s : StaticFiles T)
    (db : Database T) : Option (Option ℕ × StaticFiles T) :=
  if config.skips segment then some (none, s)
  else do
    -- fetching the writer heals the file
    let w ← s.writer segment (s.maxBlock.getD 0)
    let highestBlock := w.reader.maxBlock
    let target := if s.maxBlock = highestBlock then none else some (highestBlock.getD 0)
    let highestTx := w.reader.highestTx
    let (highestBlock, target) :=
      highestTx.elim (highestBlock, target) (fun highestTx =>
        lastBlockLoop db.blockBodyIndices highestTx (highestBlock.getD 0) highestBlock target)
    let highestEntry := if segment.isHeaders then highestBlock else highestTx
    let (unwind, w) ← ensureInvariants w db highestEntry highestBlock
    some (unwind.elim target (updateUnwindTarget target), w.reader)

end StaticFile

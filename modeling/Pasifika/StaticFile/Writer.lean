import Pasifika.OrderedMap.Basic

/-! # Static file segments

A segment keeps the rows of consecutive blocks in files of a fixed number of blocks. Each
file is a jar with a header: the blocks it is for, the blocks it has, and the transactions
it has. `StaticFileProviderRW` appends to the last file and truncates the segment across
files; `StaticFiles` is what is on disk and the index over it.

A jar is taken as its header and its list of rows. -/

namespace StaticFile

open Std

inductive StaticFileSegment
  | headers
  | transactions
  | receipts
  deriving DecidableEq

namespace StaticFileSegment

def isHeaders (segment : StaticFileSegment) : Bool := segment == headers

def isTxBased (segment : StaticFileSegment) : Bool := segment == receipts || segment == transactions

def isBlockBased (segment : StaticFileSegment) : Bool := segment == headers

end StaticFileSegment

structure SegmentRangeInclusive where
  start : ℕ
  stop : ℕ
  deriving DecidableEq

/-- `find_fixed_range`: the range of the file of a block. -/
def findFixedRange (block blocksPerFile : ℕ) : SegmentRangeInclusive :=
  let start := block / blocksPerFile * blocksPerFile
  ⟨start, start + blocksPerFile - 1⟩

structure SegmentHeader where
  expectedBlockRange : SegmentRangeInclusive
  blockRange : Option SegmentRangeInclusive
  txRange : Option SegmentRangeInclusive
  segment : StaticFileSegment
  deriving DecidableEq

namespace SegmentHeader

def expectedBlockStart (h : SegmentHeader) : ℕ := h.expectedBlockRange.start

def expectedBlockEnd (h : SegmentHeader) : ℕ := h.expectedBlockRange.stop

def blockEnd (h : SegmentHeader) : Option ℕ := h.blockRange.map (·.stop)

def txEnd (h : SegmentHeader) : Option ℕ := h.txRange.map (·.stop)

def txLen (h : SegmentHeader) : Option ℕ := h.txRange.map (fun r => r.stop + 1 - r.start)

def blockLen (h : SegmentHeader) : Option ℕ := h.blockRange.map (fun r => r.stop + 1 - r.start)

def incrementBlock (h : SegmentHeader) : SegmentHeader :=
  match h.blockRange with
  | some range => { h with blockRange := some { range with stop := range.stop + 1 } }
  | none => { h with blockRange := some ⟨h.expectedBlockStart, h.expectedBlockStart⟩ }

def incrementTx (h : SegmentHeader) : SegmentHeader :=
  if h.segment.isTxBased then
    match h.txRange with
    | some range => { h with txRange := some { range with stop := range.stop + 1 } }
    | none => { h with txRange := some ⟨0, 0⟩ }
  else h

/-- A range without its last elements. -/
def pruneRange (range : SegmentRangeInclusive) (num : ℕ) : Option SegmentRangeInclusive :=
  if range.stop - range.start < num then none else some { range with stop := range.stop - num }

def prune (h : SegmentHeader) (num : ℕ) : SegmentHeader :=
  if h.segment.isBlockBased then { h with blockRange := h.blockRange.bind (pruneRange · num) }
  else { h with txRange := h.txRange.bind (pruneRange · num) }

def setBlockRange (h : SegmentHeader) (blockStart blockEnd : ℕ) : SegmentHeader :=
  { h with blockRange := some ⟨blockStart, blockEnd⟩ }

def setTxRange (h : SegmentHeader) (txStart txEnd : ℕ) : SegmentHeader :=
  { h with txRange := some ⟨txStart, txEnd⟩ }

end SegmentHeader

/-- A jar: its header and its rows. -/
structure Jar (T : Type) where
  header : SegmentHeader
  rows : List T
  deriving DecidableEq

/-- The files of a segment by their first block, the highest block, and the files by their last
    transaction. -/
structure StaticFiles (T : Type) where
  blocksPerFile : ℕ
  jars : ExtTreeMap ℕ (Jar T)
  maxBlock : Option ℕ
  txIndex : ExtTreeMap ℕ SegmentRangeInclusive

variable {T : Type}

def createJar (segment : StaticFileSegment) (range : SegmentRangeInclusive) : Jar T :=
  ⟨⟨range, none, none, segment⟩, []⟩

namespace StaticFiles

/-- `find_fixed_range` with the size of the files. -/
def fixedRange (s : StaticFiles T) (block : ℕ) : SegmentRangeInclusive :=
  findFixedRange block s.blocksPerFile

/-- `open`: the file of a block is loaded if the index reaches it, and created otherwise. -/
def openJar (s : StaticFiles T) (segment : StaticFileSegment) (block : ℕ) :
    Option (Jar T × StaticFiles T) :=
  let range := s.fixedRange block
  if s.maxBlock.any (fun m => decide (range.start ≤ m)) then
    s.jars[range.start]?.map (fun jar => (jar, s))
  else
    let jar := createJar segment range
    some (jar, { s with jars := s.jars.insert range.start jar })

def updateIndex (s : StaticFiles T) (segment : StaticFileSegment) :
    Option ℕ → Option (StaticFiles T)
  | some segmentMaxBlock => do
      let range := s.fixedRange segmentMaxBlock
      let jar ← s.jars[range.start]?
      -- entries of this file and later ones are dropped
      let retained := s.txIndex.filter (fun _ blockRange => blockRange.start < range.start)
      let txIndex :=
        match jar.header.txRange, jar.header.blockRange with
        | some txRange, some blockRange => retained.insert txRange.stop blockRange
        | some _, none => s.txIndex
        | none, _ => if segment.isTxBased then retained else s.txIndex
      some { s with maxBlock := some segmentMaxBlock, txIndex }
  | none => some { s with maxBlock := none, txIndex := ∅ }

end StaticFiles

structure StaticFileProviderRW (T : Type) where
  reader : StaticFiles T
  jar : Jar T
  dirty : Bool
  pruneOnCommit : Option (ℕ × Option ℕ)

namespace StaticFileProviderRW

/-- The segment written to. -/
def segment (w : StaticFileProviderRW T) : StaticFileSegment := w.jar.header.segment

/-- The first block the current file is for. -/
def expectedBlockStart (w : StaticFileProviderRW T) : ℕ := w.jar.header.expectedBlockStart

/-- The highest block of the segment, for `update_index`. -/
def segmentMaxBlock (header : SegmentHeader) : Option ℕ :=
  match header.blockRange with
  | some range => some range.stop
  | none => if 0 < header.expectedBlockStart then some (header.expectedBlockStart - 1) else none

/-- `commit` without a queued prune: the file is written and the index updated. -/
def commitJar (w : StaticFileProviderRW T) : Option (StaticFileProviderRW T) :=
  if w.dirty then do
    let reader := { w.reader with jars := w.reader.jars.insert w.expectedBlockStart w.jar }
    let reader ← reader.updateIndex w.segment (segmentMaxBlock w.jar.header)
    some { w with reader, dirty := false }
  else some w

def deleteCurrentAndOpenPrevious (w : StaticFileProviderRW T) :
    Option (StaticFileProviderRW T) := do
  let (jar, reader) ← w.reader.openJar w.segment (w.expectedBlockStart - 1)
  let _ ← reader.jars[w.expectedBlockStart]?
  let reader := { reader with jars := reader.jars.erase w.expectedBlockStart }
  some { w with jar, reader, dirty := true }

/-- The header and the rows lose their last elements; no more rows may go than there are. -/
def pruneJar (w : StaticFileProviderRW T) (num : ℕ) : Option (StaticFileProviderRW T) :=
  if num ≤ w.jar.rows.length then
    some { w with
      jar := ⟨w.jar.header.prune num, w.jar.rows.take (w.jar.rows.length - num)⟩
      dirty := true }
  else none

/-- The number of elements the current file counts in rows. -/
def len (w : StaticFileProviderRW T) : ℕ :=
  if w.segment.isBlockBased then w.jar.header.blockLen.getD 0 else w.jar.header.txLen.getD 0

/-- The first loop of `truncate`, over the rows to remove. -/
def truncateRows (lastBlock : Option ℕ) :
    ℕ → ℕ → StaticFileProviderRW T → Option (StaticFileProviderRW T)
  | 0, _, _ => none
  | fuel + 1, remainingRows, w =>
    if remainingRows = 0 then some w
    else if w.len ≤ remainingRows then
      if w.expectedBlockStart ≠ 0 ∧ (w.segment.isHeaders ∨
          lastBlock.any (fun b => decide (b < w.expectedBlockStart)) = true) then do
        let previous ← w.deleteCurrentAndOpenPrevious
        truncateRows lastBlock fuel (remainingRows - w.len) previous
      else w.pruneJar w.len
    else w.pruneJar remainingRows

/-- The second loop of `truncate`, over files of empty blocks. -/
def truncateEmpty (lastBlock : ℕ) : ℕ → StaticFileProviderRW T → Option (StaticFileProviderRW T)
  | 0, _ => none
  | fuel + 1, w =>
    if lastBlock < w.expectedBlockStart then do
      let previous ← w.deleteCurrentAndOpenPrevious
      truncateEmpty lastBlock fuel previous
    else some w

/-- The part of `truncate` for transactions and receipts: the current file ends at the last
    block. -/
def setLastBlock (w : StaticFileProviderRW T) (numRows lastBlock : ℕ) :
    Option (StaticFileProviderRW T) := do
  let w ← if numRows = 0 then truncateEmpty lastBlock (w.expectedBlockStart + 1) w else some w
  some { w with
    jar := { w.jar with header := w.jar.header.setBlockRange w.expectedBlockStart lastBlock }
    dirty := true }

/-- `truncate`. A loop passes at most one file for each block. -/
def truncate (w : StaticFileProviderRW T) (numRows : ℕ) (lastBlock : Option ℕ) :
    Option (StaticFileProviderRW T) := do
  let w ← truncateRows lastBlock (w.expectedBlockStart + 1) numRows w
  let w ← lastBlock.elim (some w) (w.setLastBlock numRows)
  w.commitJar

/-- The prune that was queued. -/
def pruneData (w : StaticFileProviderRW T) (toDelete : ℕ) (lastBlock : Option ℕ) :
    Option (StaticFileProviderRW T) :=
  match w.segment, lastBlock with
  | .headers, _ => w.truncate toDelete none
  | _, some lastBlock => w.truncate toDelete (some lastBlock)
  | _, none => none

def commit (w : StaticFileProviderRW T) : Option (StaticFileProviderRW T) :=
  match w.pruneOnCommit with
  | some (toDelete, lastBlock) => do
      let w ← pruneData { w with pruneOnCommit := none } toDelete lastBlock
      w.commitJar
  | none => w.commitJar

def nextBlockNumber (w : StaticFileProviderRW T) : ℕ :=
  match w.jar.header.blockEnd with
  | some b => b + 1
  | none => w.expectedBlockStart

/-- The part of `increment_block` that opens the next file when the current one is full. -/
def openNext (w : StaticFileProviderRW T) : Option (StaticFileProviderRW T) :=
  match w.jar.header.blockEnd with
  | some lastBlock =>
    if lastBlock = w.jar.header.expectedBlockEnd then do
      let w ← w.commit
      let (jar, reader) ← w.reader.openJar w.segment (lastBlock + 1)
      let header : SegmentHeader := ⟨reader.fixedRange (lastBlock + 1), none, none, w.segment⟩
      some { w with jar := { jar with header }, reader, dirty := true }
    else some w
  | none => some w

def incrementBlock (w : StaticFileProviderRW T) (expectedBlockNumber : ℕ) :
    Option (StaticFileProviderRW T) :=
  if expectedBlockNumber = w.nextBlockNumber then do
    let w ← w.openNext
    some { w with jar := { w.jar with header := w.jar.header.incrementBlock }, dirty := true }
  else none

/-- The header for one more transaction, which must be the next one. -/
def txHeader (header : SegmentHeader) (txNum : ℕ) : Option SegmentHeader :=
  match header.txRange with
  | some range => if range.stop + 1 = txNum then some header.incrementTx else none
  | none => some (header.setTxRange txNum txNum)

def appendWithTxNumber (w : StaticFileProviderRW T) (txNum : ℕ) (value : T) :
    Option (StaticFileProviderRW T) := do
  let header ← txHeader w.jar.header txNum
  some { w with jar := ⟨header, w.jar.rows ++ [value]⟩, dirty := true }

/-- `append_transaction`, or `append_receipt`. -/
def appendTransaction (w : StaticFileProviderRW T) (txNum : ℕ) (value : T) :
    Option (StaticFileProviderRW T) :=
  if w.pruneOnCommit.isSome then none else w.appendWithTxNumber txNum value

/-- The transactions of a block, from a number on. -/
def appendTransactions (w : StaticFileProviderRW T) :
    ℕ → List T → Option (StaticFileProviderRW T)
  | _, [] => some w
  | txNum, value :: values => do
      let w ← w.appendTransaction txNum value
      appendTransactions w (txNum + 1) values

/-- A block is appended with its transactions. -/
def appendBlock (w : StaticFileProviderRW T) (number txNum : ℕ) (values : List T) :
    Option (StaticFileProviderRW T) := do
  let w ← w.incrementBlock number
  w.appendTransactions txNum values

def queuePrune (w : StaticFileProviderRW T) (toDelete : ℕ) (lastBlock : Option ℕ) :
    Option (StaticFileProviderRW T) :=
  if w.pruneOnCommit.isSome then none else some { w with pruneOnCommit := some (toDelete, lastBlock) }

/-- `prune_transactions` or `prune_receipts`, and `commit`. -/
def unwind (w : StaticFileProviderRW T) (toDelete lastBlock : ℕ) :
    Option (StaticFileProviderRW T) := do
  let w ← w.queuePrune toDelete (some lastBlock)
  w.commit

end StaticFileProviderRW

/-- `ensure_end_range_consistency`: rows that were lost are pruned from the header. -/
def StaticFileProviderRW.ensureEndRangeConsistency (w : StaticFileProviderRW T) :
    Option (StaticFileProviderRW T) := do
  let prunedRows := w.len - w.jar.rows.length
  let jar :=
    if 0 < prunedRows then { w.jar with header := w.jar.header.prune prunedRows } else w.jar
  let reader := { w.reader with jars := w.reader.jars.insert w.expectedBlockStart jar }
  let reader ← reader.updateIndex w.segment (segmentMaxBlock jar.header)
  some { w with jar, reader, dirty := false }

/-- `StaticFileProviderRW::new`: the writer of the file of a block. -/
def StaticFiles.writer (s : StaticFiles T) (segment : StaticFileSegment) (block : ℕ) :
    Option (StaticFileProviderRW T) := do
  let (jar, reader) ← s.openJar segment block
  StaticFileProviderRW.ensureEndRangeConsistency ⟨reader, jar, false, none⟩

end StaticFile

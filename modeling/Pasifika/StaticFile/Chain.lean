import Pasifika.Layout
import Pasifika.Runs
import Pasifika.StaticFile.Writer

/-! # A segment of a chain of blocks

The files of a transaction-based segment hold the transactions of the blocks from 0 on.
`Holds blocks w` says so of a writer: its file is the one of the last block, the files
before it are complete and there is none after it. -/

namespace StaticFile

open Std (ExtTreeMap)
open OrderedMap Layout List Option Nat

variable {T : Type}

/-! ## The files of a chain -/

/-- The number of transactions of the blocks below one. -/
def txsBelow (blocks : List (List T)) (block : ℕ) : ℕ := start (blocks.map List.length) block

/-- The blocks of a file. -/
def fileBlocks (size : ℕ) (blocks : List (List T)) (file : ℕ) : List (List T) :=
  (blocks.drop (file * size)).take size

/-- The blocks a file has, as the range in its header. -/
def blockRangeOf (size : ℕ) (blocks : List (List T)) (file : ℕ) : Option SegmentRangeInclusive :=
  if file * size < blocks.length then
    some ⟨file * size, min blocks.length ((file + 1) * size) - 1⟩
  else none

/-- The transactions a file has, as the range in its header. -/
def txRangeOf (size : ℕ) (blocks : List (List T)) (file : ℕ) : Option SegmentRangeInclusive :=
  if txsBelow blocks (file * size) < txsBelow blocks ((file + 1) * size) then
    some ⟨txsBelow blocks (file * size), txsBelow blocks ((file + 1) * size) - 1⟩
  else none

/-- The blocks a file is for. -/
def expectedRangeOf (size file : ℕ) : SegmentRangeInclusive :=
  ⟨file * size, file * size + size - 1⟩

/-- The file of a chain. -/
def jarOf (segment : StaticFileSegment) (size : ℕ) (blocks : List (List T)) (file : ℕ) : Jar T :=
  ⟨⟨expectedRangeOf size file, blockRangeOf size blocks file, txRangeOf size blocks file, segment⟩,
    (fileBlocks size blocks file).flatten⟩

/-- The file of the last block. -/
def lastFile (size : ℕ) (blocks : List (List T)) : ℕ := (blocks.length - 1) / size

variable {segment : StaticFileSegment} {size : ℕ} {blocks : List (List T)} {file : ℕ}
  {b : ℕ} {s : StaticFiles T} {w : StaticFileProviderRW T}

theorem txsBelow_append (more : List (List T)) (h : b ≤ blocks.length) :
    txsBelow (blocks ++ more) b = txsBelow blocks b := by
  rw [txsBelow, txsBelow, map_append, start_append]
  rwa [length_map]

theorem txsBelow_take (h : b ≤ n) : txsBelow (blocks.take n) b = txsBelow blocks b := by
  rw [txsBelow, txsBelow, map_take, start_take h]

theorem txsBelow_mono (blocks : List (List T)) (h : b ≤ b') :
    txsBelow blocks b ≤ txsBelow blocks b' := start_mono _ h

/-- Past the last block the number of transactions is that of all blocks. -/
theorem txsBelow_of_le (h : blocks.length ≤ b) :
    txsBelow blocks b = txsBelow blocks blocks.length := by
  rw [txsBelow, txsBelow, start, start, take_of_length_le (by rwa [length_map]),
    take_of_length_le (by rw [length_map])]

theorem length_flatten_take (blocks : List (List T)) (n : ℕ) :
    (blocks.take n).flatten.length = txsBelow blocks n := by
  rw [length_flatten, map_take, txsBelow, start]

theorem length_rows (size : ℕ) (blocks : List (List T)) (file : ℕ) :
    (fileBlocks size blocks file).flatten.length + txsBelow blocks (file * size) =
      txsBelow blocks ((file + 1) * size) := by
  rw [← length_flatten_take, ← length_flatten_take, succ_mul, take_add,
    flatten_append, length_append, fileBlocks, add_comm]

theorem jarOf_congr (hsize : 0 < size)
    (h : blocks.take ((file + 1) * size) = blocks'.take ((file + 1) * size)) :
    jarOf segment size blocks file = jarOf segment size blocks' file := by
  have htxs : ∀ b ≤ (file + 1) * size, txsBelow blocks b = txsBelow blocks' b := by
    intro b hb
    rw [← txsBelow_take hb, h, txsBelow_take hb]
  have hmul : (file + 1) * size = file * size + size := succ_mul file size
  have hlen := congrArg length h
  rw [length_take, length_take] at hlen
  have hblocks : fileBlocks size blocks file = fileBlocks size blocks' file := by
    have hdrop := congrArg (drop (file * size)) h
    rwa [drop_take, drop_take, hmul, Nat.add_sub_cancel_left] at hdrop
  have hrange : blockRangeOf size blocks file = blockRangeOf size blocks' file := by
    rw [blockRangeOf, blockRangeOf]
    by_cases hin : file * size < blocks.length
    · rw [if_pos hin, if_pos (by omega), min_comm, hlen, min_comm]
    · rw [if_neg hin, if_neg (by omega)]
  rw [jarOf, jarOf, hblocks, hrange, txRangeOf, txRangeOf, htxs _ (by omega), htxs _ le_rfl]

theorem lastFile_bounds (hsize : 0 < size) (hne : blocks ≠ []) :
    lastFile size blocks * size < blocks.length ∧
      blocks.length ≤ lastFile size blocks * size + size := by
  have hpos := length_pos_iff.mpr hne
  have hdiv := div_add_mod (blocks.length - 1) size
  have hmod := mod_lt (blocks.length - 1) hsize
  rw [mul_comm] at hdiv
  rw [lastFile]
  omega

/-- The last file has all blocks from its first one on. -/
theorem fileBlocks_eq_drop (hle : blocks.length ≤ file * size + size) :
    fileBlocks size blocks file = blocks.drop (file * size) := by
  rw [fileBlocks, take_of_length_le]
  rw [length_drop]
  omega

theorem findFixedRange_eq (file : ℕ) (hle : file * size ≤ b) (hlt : b < file * size + size) :
    findFixedRange b size = expectedRangeOf size file := by
  have hdiv : b / size = file := by
    refine Nat.div_eq_of_lt_le hle ?_
    rw [succ_mul]
    exact hlt
  rw [findFixedRange, hdiv, expectedRangeOf]

variable {range : SegmentRangeInclusive}

theorem openJar_create (segment : StaticFileSegment) (hrange : s.fixedRange block = range)
    (h : ∀ m ∈ s.maxBlock, m < range.start) :
    s.openJar segment block = some (createJar segment range,
      { s with jars := s.jars.insert range.start (createJar segment range) }) := by
  rw [StaticFiles.openJar, hrange]
  rw [if_neg]
  intro hany
  obtain ⟨m, hm, hle⟩ := (any_eq_true _ _).mp hany
  exact absurd (of_decide_eq_true hle) (Nat.not_le_of_lt (h m hm))

theorem openJar_load (hrange : s.fixedRange block = range) (hmax : s.maxBlock = some m)
    (hle : range.start ≤ m) (hjar : s.jars[range.start]? = some jar) :
    s.openJar segment block = some (jar, s) := by
  rw [StaticFiles.openJar, hrange]
  rw [if_pos, hjar]
  · rfl
  · rw [hmax]
    exact decide_eq_true hle

/-- Updating the index succeeds if the file of the highest block is there. -/
theorem updateIndex_eq (segment : StaticFileSegment)
    (h : ∀ m ∈ segmentMaxBlock, s.jars[(s.fixedRange m).start]? ≠ none) :
    ∃ txIndex, s.updateIndex segment segmentMaxBlock =
      some { s with maxBlock := segmentMaxBlock, txIndex } := by
  cases segmentMaxBlock with
  | none => exact ⟨∅, rfl⟩
  | some m =>
    obtain ⟨jar, hjar⟩ := ne_none_iff_exists'.mp (h m rfl)
    rw [StaticFiles.updateIndex]
    rw [hjar]
    exact ⟨_, rfl⟩

/-! ## The writer of a chain -/

/-- The writer is at a file, and the files before it are there. A writer without changes has
    written its file. -/
structure HoldsAt (segment : StaticFileSegment) (size : ℕ) (blocks : List (List T)) (file : ℕ)
    (w : StaticFileProviderRW T) : Prop where
  size_eq : w.reader.blocksPerFile = size
  jar : w.jar = jarOf segment size blocks file
  below : ∀ file' < file, w.reader.jars[file' * size]? = some (jarOf segment size blocks file')
  present : w.reader.jars[file * size]? ≠ none
  only : ∀ (key : ℕ) (jar : Jar T), w.reader.jars[key]? = some jar → ∃ i ≤ file, key = i * size
  index : 0 < file → ∃ m, w.reader.maxBlock = some m ∧ file * size ≤ m + 1
  clean : w.dirty = false → w.reader.jars[file * size]? = some w.jar ∧
    w.reader.maxBlock = if blocks = [] then none else some (blocks.length - 1)
  queue : w.pruneOnCommit = none

/-- **THE SEGMENT HOLDS BLOCKS**: the writer is at the file of the last block. -/
abbrev Holds (segment : StaticFileSegment) (size : ℕ) (blocks : List (List T))
    (w : StaticFileProviderRW T) : Prop :=
  HoldsAt segment size blocks (lastFile size blocks) w

theorem HoldsAt.segment_eq (h : HoldsAt segment size blocks file w) : w.segment = segment := by
  rw [StaticFileProviderRW.segment, h.jar]
  rfl

theorem HoldsAt.expectedBlockStart_eq (h : HoldsAt segment size blocks file w) :
    w.expectedBlockStart = file * size := by
  rw [StaticFileProviderRW.expectedBlockStart, h.jar]
  rfl

namespace Holds

variable {w : StaticFileProviderRW T} (hsize : 0 < size) (h : Holds segment size blocks w)

include hsize h

theorem blockEnd_eq :
    w.jar.header.blockEnd = if blocks = [] then none else some (blocks.length - 1) := by
  rw [h.jar]
  show (blockRangeOf size blocks (lastFile size blocks)).map _ = _
  rw [blockRangeOf]
  by_cases hnil : blocks = []
  · rw [if_pos hnil, hnil, length_nil, if_neg (not_lt_zero _)]
    rfl
  · obtain ⟨hlt, hle⟩ := lastFile_bounds hsize hnil
    rw [if_neg hnil, if_pos hlt, map_some, succ_mul, min_eq_left hle]

theorem nextBlockNumber_eq :
    w.nextBlockNumber = blocks.length := by
  rw [StaticFileProviderRW.nextBlockNumber, h.blockEnd_eq hsize]
  by_cases hnil : blocks = []
  · rw [if_pos hnil, hnil]
    rw [h.expectedBlockStart_eq, hnil, lastFile, length_nil, Nat.zero_sub, Nat.zero_div, zero_mul]
  · have hpos := length_pos_iff.mpr hnil
    rw [if_neg hnil]
    show blocks.length - 1 + 1 = _
    omega

/-- The highest block, as `commit` and opening read it off the header. -/
theorem segmentMaxBlock_eq :
    StaticFileProviderRW.segmentMaxBlock w.jar.header =
      if blocks = [] then none else some (blocks.length - 1) := by
  have hend := h.blockEnd_eq hsize
  rw [SegmentHeader.blockEnd] at hend
  rw [StaticFileProviderRW.segmentMaxBlock]
  cases hrange : w.jar.header.blockRange with
  | some range =>
    rw [hrange] at hend
    exact hend
  | none =>
    rw [hrange] at hend
    by_cases hnil : blocks = []
    · rw [if_pos hnil]
      have hstart := h.expectedBlockStart_eq
      rw [hnil, lastFile, length_nil, Nat.zero_sub, Nat.zero_div, zero_mul] at hstart
      exact if_neg fun hpos => absurd hstart (ne_of_gt hpos)
    · rw [if_neg hnil] at hend
      nomatch hend

theorem written (dirty : Bool)
    (txIndex : ExtTreeMap ℕ SegmentRangeInclusive) :
    Holds segment size blocks { w with
      reader := { w.reader with
        jars := w.reader.jars.insert w.expectedBlockStart w.jar
        maxBlock := if blocks = [] then none else some (blocks.length - 1)
        txIndex }
      dirty } := by
  have hstart := h.expectedBlockStart_eq
  refine ⟨h.size_eq, h.jar, fun file hfile => ?_, ?_, fun key jar hjar => ?_, fun hpos => ?_,
    fun _ => ⟨?_, rfl⟩, h.queue⟩
  · have hne : w.expectedBlockStart ≠ file * size := by
      rw [hstart]
      exact fun heq => absurd (eq_of_mul_eq_mul_right hsize heq) (by omega)
    show (w.reader.jars.insert w.expectedBlockStart w.jar)[file * size]? = _
    rw [get_insert_ne hne, h.below file hfile]
  · show (w.reader.jars.insert w.expectedBlockStart w.jar)[lastFile size blocks * size]? ≠ none
    rw [hstart, get_insert_self]
    nofun
  · have hjar : (w.reader.jars.insert w.expectedBlockStart w.jar)[key]? = some jar := hjar
    by_cases hkey : w.expectedBlockStart = key
    · exact ⟨lastFile size blocks, le_rfl, hkey ▸ hstart⟩
    · rw [get_insert_ne hkey] at hjar
      exact h.only key jar hjar
  · have hnil : blocks ≠ [] := by
      rintro rfl
      rw [lastFile, length_nil, Nat.zero_sub, Nat.zero_div] at hpos
      exact absurd hpos (lt_irrefl 0)
    obtain ⟨hlt, -⟩ := lastFile_bounds hsize hnil
    exact ⟨blocks.length - 1, if_neg hnil, by omega⟩
  · show (w.reader.jars.insert w.expectedBlockStart w.jar)[lastFile size blocks * size]? = _
    rw [hstart, get_insert_self]

/-- **COMMITTING** writes the current file. -/
theorem commitJar :
    ∃ w', w.commitJar = some w' ∧ Holds segment size blocks w' ∧ w'.dirty = false := by
  cases hdirty : w.dirty with
  | false => exact ⟨w, by rw [StaticFileProviderRW.commitJar, hdirty]; rfl, h, hdirty⟩
  | true =>
    have hmax := h.segmentMaxBlock_eq hsize
    have hstart := h.expectedBlockStart_eq
    have hfound : ∀ m ∈ (if blocks = [] then none else some (blocks.length - 1)),
        (w.reader.jars.insert w.expectedBlockStart w.jar)[(w.reader.fixedRange m).start]? ≠
          none := by
      intro m hm
      by_cases hnil : blocks = []
      · rw [if_pos hnil] at hm
        nomatch hm
      · rw [if_neg hnil] at hm
        cases hm
        obtain ⟨hlt, hle⟩ := lastFile_bounds hsize hnil
        rw [StaticFiles.fixedRange, h.size_eq,
          findFixedRange_eq (lastFile size blocks) (by omega) (by omega),
          expectedRangeOf, hstart, get_insert_self]
        nofun
    obtain ⟨txIndex, hindex⟩ := updateIndex_eq w.segment
      (s := { w.reader with jars := w.reader.jars.insert w.expectedBlockStart w.jar }) hfound
    refine ⟨_, ?_, h.written hsize false txIndex, rfl⟩
    rw [StaticFileProviderRW.commitJar, hdirty, if_pos rfl, hmax]
    dsimp only
    rw [hindex]
    rfl

theorem commit :
    ∃ w', w.commit = some w' ∧ Holds segment size blocks w' ∧ w'.dirty = false := by
  rw [StaticFileProviderRW.commit, h.queue]
  exact h.commitJar hsize

end Holds

/-! ## Appending -/

theorem txsBelow_concat_nil (blocks : List (List T)) (b : ℕ) :
    txsBelow (blocks ++ [[]]) b = txsBelow blocks b := by
  rw [← length_flatten_take, ← length_flatten_take, take_append, flatten_append, length_append]
  cases b - blocks.length with
  | zero => rfl
  | succ n =>
    rw [take_succ_cons, take_nil]
    rfl

theorem jarOf_eq_createJar (h : blocks.length ≤ file * size) :
    jarOf segment size blocks file = createJar segment (expectedRangeOf size file) := by
  have htxs : txsBelow blocks ((file + 1) * size) = txsBelow blocks (file * size) := by
    rw [txsBelow_of_le h, txsBelow_of_le (by rw [succ_mul]; omega)]
  rw [jarOf, createJar, blockRangeOf, if_neg (by omega), txRangeOf, htxs,
    if_neg (lt_irrefl _), fileBlocks, drop_eq_nil_of_le h, take_nil]
  rfl

theorem jarOf_concat_nil (hle : file * size ≤ blocks.length)
    (hlt : blocks.length < file * size + size) :
    jarOf segment size (blocks ++ [[]]) file =
      { jarOf segment size blocks file with
        header := (jarOf segment size blocks file).header.incrementBlock } := by
  have hlen : (blocks ++ [([] : List T)]).length = blocks.length + 1 := by
    rw [length_append, length_singleton]
  have htxs : txRangeOf size (blocks ++ [[]]) file = txRangeOf size blocks file := by
    rw [txRangeOf, txRangeOf, txsBelow_concat_nil, txsBelow_concat_nil]
  have hrows : (fileBlocks size (blocks ++ [[]]) file).flatten =
      (fileBlocks size blocks file).flatten := by
    rw [fileBlocks_eq_drop (by omega), fileBlocks_eq_drop (by omega),
      drop_append_of_le_length hle, flatten_append]
    simp
  have hrange : blockRangeOf size (blocks ++ [[]]) file = some ⟨file * size, blocks.length⟩ := by
    rw [blockRangeOf, hlen, if_pos (by omega), succ_mul, min_eq_left (by omega)]
    rfl
  rw [jarOf, htxs, hrows, hrange, jarOf, SegmentHeader.incrementBlock, blockRangeOf]
  by_cases hin : file * size < blocks.length
  · rw [if_pos hin, succ_mul, min_eq_left (by omega)]
    dsimp only
    rw [Nat.sub_add_cancel (by omega)]
  · rw [if_neg hin]
    rw [SegmentHeader.expectedBlockStart, expectedRangeOf, show blocks.length = file * size by omega]

theorem Holds.created (hsize : 0 < size) (h : Holds segment size blocks w)
    (hdirty : w.dirty = false) (hnil : blocks ≠ [])
    (hfull : blocks.length = lastFile size blocks * size + size) :
    HoldsAt segment size blocks (lastFile size blocks + 1) { w with
      jar := createJar segment (expectedRangeOf size (lastFile size blocks + 1))
      reader := { w.reader with
        jars := w.reader.jars.insert ((lastFile size blocks + 1) * size)
          (createJar segment (expectedRangeOf size (lastFile size blocks + 1))) }
      dirty := true } := by
  obtain ⟨hwritten, hmax⟩ := h.clean hdirty
  rw [if_neg hnil] at hmax
  have hkey : (lastFile size blocks + 1) * size = blocks.length := by
    rw [succ_mul, hfull]
  refine ⟨h.size_eq, (jarOf_eq_createJar (by omega)).symm, fun file' hfile' => ?_, ?_,
    fun key jar hjar => ?_, fun _ => ⟨_, hmax, by omega⟩,
    fun hno => absurd hno.symm Bool.false_ne_true, h.queue⟩
  · show (w.reader.jars.insert _ _)[_]? = _
    rw [get_insert_ne fun heq => absurd (eq_of_mul_eq_mul_right hsize heq) (by omega)]
    rcases lt_or_eq_of_le (le_of_lt_succ hfile') with hlt | rfl
    · exact h.below file' hlt
    · rw [hwritten, h.jar]
  · show (w.reader.jars.insert _ _)[_]? ≠ none
    rw [get_insert_self]
    nofun
  · have hjar : (w.reader.jars.insert ((lastFile size blocks + 1) * size)
      (createJar segment _))[key]? = some jar := hjar
    by_cases heq : (lastFile size blocks + 1) * size = key
    · exact ⟨_, le_rfl, heq.symm⟩
    · rw [get_insert_ne heq] at hjar
      obtain ⟨i, hi, hkey'⟩ := h.only key jar hjar
      exact ⟨i, le_succ_of_le hi, hkey'⟩

/-- The next file is opened when the current one is full. -/
theorem Holds.openNext (hsize : 0 < size) (h : Holds segment size blocks w) :
    ∃ w', w.openNext = some w' ∧
      HoldsAt segment size blocks (blocks.length / size) w' := by
  have hend := h.blockEnd_eq hsize
  by_cases hnil : blocks = []
  · refine ⟨w, ?_, ?_⟩
    · rw [StaticFileProviderRW.openNext, hend, if_pos hnil]
    · have hlast : lastFile size blocks = blocks.length / size := by
        rw [lastFile, hnil, length_nil, Nat.zero_sub]
      exact hlast ▸ h
  · rw [if_neg hnil] at hend
    obtain ⟨hlt, hle⟩ := lastFile_bounds hsize hnil
    have hexpected : w.jar.header.expectedBlockEnd = lastFile size blocks * size + size - 1 := by
      rw [h.jar]
      rfl
    by_cases hfull : blocks.length = lastFile size blocks * size + size
    · -- the current file is full
      have hnext : blocks.length / size = lastFile size blocks + 1 := by
        rw [hfull, ← succ_mul, Nat.mul_div_cancel _ hsize]
      obtain ⟨w', hcommit, h', hdirty⟩ := h.commit hsize
      obtain ⟨hwritten, hmax⟩ := h'.clean hdirty
      rw [if_neg hnil] at hmax
      have hsucc : blocks.length - 1 + 1 = blocks.length := by omega
      have hkey : (lastFile size blocks + 1) * size = blocks.length := by
        rw [succ_mul, hfull]
      have hrange : w'.reader.fixedRange blocks.length =
          expectedRangeOf size (lastFile size blocks + 1) := by
        rw [StaticFiles.fixedRange, h'.size_eq]
        exact findFixedRange_eq _ (by omega) (by omega)
      have hopen := openJar_create w'.segment hrange (by
        intro m hm
        cases hmax.symm.trans hm
        show _ < (lastFile size blocks + 1) * size
        omega)
      have hstart : (expectedRangeOf size (lastFile size blocks + 1)).start =
          (lastFile size blocks + 1) * size := rfl
      rw [h'.segment_eq, hstart] at hopen
      rw [hnext]
      refine ⟨_, ?_, h'.created hsize hdirty hnil hfull⟩
      rw [StaticFileProviderRW.openNext, hend]
      dsimp only
      rw [if_pos (by omega), hcommit]
      dsimp only [bind_eq_bind, bind_some]
      rw [hsucc, h'.segment_eq, hopen]
      dsimp only [bind_some, StaticFiles.fixedRange] at hrange ⊢
      rw [hrange]
      rfl
    · have hsame : lastFile size blocks = blocks.length / size := by
        refine (Nat.div_eq_of_lt_le (by omega) ?_).symm
        rw [succ_mul]
        omega
      refine ⟨w, ?_, hsame ▸ h⟩
      rw [StaticFileProviderRW.openNext, hend]
      dsimp only
      rw [if_neg (by omega)]

/-- The current file was changed, and the files before it were not. -/
theorem HoldsAt.changed (h : HoldsAt segment size blocks file w) (blocks' : List (List T))
    (hsize : 0 < size) (hbelow : blocks'.take (file * size) = blocks.take (file * size)) :
    HoldsAt segment size blocks' file
      { w with jar := jarOf segment size blocks' file, dirty := true } := by
  refine ⟨h.size_eq, rfl, fun file' hfile' => ?_, h.present, h.only, h.index,
    fun hno => absurd hno.symm Bool.false_ne_true, h.queue⟩
  rw [show w.reader.jars[file' * size]? = _ from h.below file' hfile']
  have hle : (file' + 1) * size ≤ file * size := mul_le_mul_right size hfile'
  refine congrArg some (jarOf_congr hsize ?_)
  rw [← min_eq_left hle, ← take_take, ← take_take, hbelow]

theorem Holds.incrementBlock (hsize : 0 < size) (h : Holds segment size blocks w) :
    ∃ w', w.incrementBlock blocks.length = some w' ∧ Holds segment size (blocks ++ [[]]) w' := by
  obtain ⟨w1, hopen, h1⟩ := h.openNext hsize
  have hdiv := div_add_mod blocks.length size
  have hmod := mod_lt blocks.length hsize
  rw [mul_comm] at hdiv
  have hjar : jarOf segment size (blocks ++ [[]]) (blocks.length / size) = _ :=
    jarOf_concat_nil (by omega) (by omega)
  have hlast : lastFile size (blocks ++ [([] : List T)]) = blocks.length / size := by
    rw [lastFile, length_append]
    rfl
  have h2 := h1.changed (blocks ++ [[]]) hsize (take_append_of_le_length (by omega))
  rw [hjar, ← h1.jar] at h2
  refine ⟨_, ?_, hlast ▸ h2⟩
  rw [StaticFileProviderRW.incrementBlock, h.nextBlockNumber_eq hsize, if_pos rfl, hopen]
  rfl

theorem txsBelow_concat (blocks : List (List T)) (txs : List T) (h : blocks.length + 1 ≤ b) :
    txsBelow (blocks ++ [txs]) b = txsBelow blocks blocks.length + txs.length := by
  rw [txsBelow_of_le (by rwa [length_append]), ← length_flatten_take, ← length_flatten_take,
    take_length, take_length, flatten_append, length_append,
    flatten_singleton]

theorem txHeader_eq (hseg : segment.isTxBased = true) (txs : List T) (tx : T)
    (hle : file * size ≤ blocks.length) (hlt : blocks.length < file * size + size) :
    StaticFileProviderRW.txHeader (jarOf segment size (blocks ++ [txs]) file).header
        (txsBelow blocks blocks.length + txs.length) =
      some (jarOf segment size (blocks ++ [txs ++ [tx]]) file).header := by
  have hfirst := txsBelow_mono blocks hle
  have hend : blocks.length + 1 ≤ (file + 1) * size := by
    rw [succ_mul]
    omega
  have hrange : blockRangeOf size (blocks ++ [txs ++ [tx]]) file =
      blockRangeOf size (blocks ++ [txs]) file := by
    rw [blockRangeOf, blockRangeOf, length_append, length_append]
    rfl
  have hnew : txRangeOf size (blocks ++ [txs ++ [tx]]) file =
      some ⟨txsBelow blocks (file * size), txsBelow blocks blocks.length + txs.length⟩ := by
    rw [txRangeOf, txsBelow_append _ hle, txsBelow_concat _ _ hend, length_append,
      length_singleton, if_pos (by omega), ← add_assoc, Nat.add_sub_cancel]
  have hold : txRangeOf size (blocks ++ [txs]) file =
      if txsBelow blocks (file * size) < txsBelow blocks blocks.length + txs.length then
        some ⟨txsBelow blocks (file * size), txsBelow blocks blocks.length + txs.length - 1⟩
      else none := by
    rw [txRangeOf, txsBelow_append _ hle, txsBelow_concat _ _ hend]
  rw [StaticFileProviderRW.txHeader, jarOf, jarOf, hrange, hnew, hold]
  by_cases hsome : txsBelow blocks (file * size) < txsBelow blocks blocks.length + txs.length
  · rw [if_pos hsome]
    dsimp only
    rw [if_pos (by omega), SegmentHeader.incrementTx]
    dsimp only
    rw [if_pos hseg, Nat.sub_add_cancel (by omega)]
  · rw [if_neg hsome]
    rw [SegmentHeader.setTxRange,
      show txsBelow blocks blocks.length + txs.length = txsBelow blocks (file * size) by omega]

theorem Holds.appendTransaction (hsize : 0 < size) (hseg : segment.isTxBased = true)
    (h : Holds segment size (blocks ++ [txs]) w) (tx : T) :
    ∃ w', w.appendTransaction (txsBelow blocks blocks.length + txs.length) tx = some w' ∧
      Holds segment size (blocks ++ [txs ++ [tx]]) w' := by
  obtain ⟨hlt, hle⟩ := lastFile_bounds hsize (show blocks ++ [txs] ≠ [] by simp)
  have hlast : lastFile size (blocks ++ [txs ++ [tx]]) = lastFile size (blocks ++ [txs]) := by
    rw [lastFile, lastFile, length_append, length_append]
    rfl
  change HoldsAt segment size (blocks ++ [txs]) (lastFile size (blocks ++ [txs])) w at h
  generalize lastFile size (blocks ++ [txs]) = file at h hlt hle hlast
  rw [length_append, length_singleton] at hlt hle
  have hheader := txHeader_eq hseg txs tx (le_of_lt_succ hlt) (lt_of_succ_le hle)
  have hrows : (jarOf segment size (blocks ++ [txs ++ [tx]]) file).rows = w.jar.rows ++ [tx] := by
    rw [h.jar]
    show (fileBlocks size _ file).flatten = (fileBlocks size _ file).flatten ++ [tx]
    rw [fileBlocks_eq_drop (by rwa [length_append]), fileBlocks_eq_drop (by rwa [length_append]),
      drop_append_of_le_length (le_of_lt_succ hlt),
      drop_append_of_le_length (le_of_lt_succ hlt)]
    simp
  have h' := h.changed (blocks ++ [txs ++ [tx]]) hsize (by
    rw [take_append_of_le_length (le_of_lt_succ hlt), take_append_of_le_length (le_of_lt_succ hlt)])
  refine ⟨_, ?_, hlast.symm ▸ h'⟩
  rw [StaticFileProviderRW.appendTransaction, h.queue]
  show StaticFileProviderRW.appendWithTxNumber w _ tx = _
  rw [StaticFileProviderRW.appendWithTxNumber, ← hrows, h.jar, hheader, hlast, h.queue]
  rfl

theorem Holds.appendTransactions (hsize : 0 < size) (hseg : segment.isTxBased = true)
    (more txs : List T) (h : Holds segment size (blocks ++ [txs]) w) :
    ∃ w', w.appendTransactions (txsBelow blocks blocks.length + txs.length) more = some w' ∧
      Holds segment size (blocks ++ [txs ++ more]) w' := by
  induction more generalizing txs w with
  | nil => exact ⟨w, rfl, by rwa [append_nil]⟩
  | cons tx more ih =>
    obtain ⟨w1, happend, h1⟩ := h.appendTransaction hsize hseg tx
    obtain ⟨w', hrest, h'⟩ := ih (txs ++ [tx]) h1
    rw [length_append, length_singleton, ← add_assoc] at hrest
    rw [append_assoc, singleton_append] at h'
    refine ⟨w', ?_, h'⟩
    rw [StaticFileProviderRW.appendTransactions, happend]
    exact hrest

/-- **APPENDING A BLOCK** with its transactions. -/
theorem Holds.appendBlock (hsize : 0 < size) (hseg : segment.isTxBased = true)
    (h : Holds segment size blocks w) (txs : List T) :
    ∃ w', w.appendBlock blocks.length (txsBelow blocks blocks.length) txs = some w' ∧
      Holds segment size (blocks ++ [txs]) w' := by
  obtain ⟨w1, hinc, h1⟩ := h.incrementBlock hsize
  obtain ⟨w', happend, h'⟩ := Holds.appendTransactions hsize hseg txs [] h1
  refine ⟨w', ?_, h'⟩
  rw [StaticFileProviderRW.appendBlock, hinc]
  exact happend

end StaticFile

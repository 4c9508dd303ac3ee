import Pasifika.StaticFile.Chain

/-! # Unwinding a segment

`truncate` goes back from the last file to the file of the block the segment is unwound
to. Its first loop counts rows and ends as soon as all of them are removed; only if there
was none to remove does a second loop look at the blocks. -/

namespace StaticFile

open Std (ExtTreeMap)
open OrderedMap Layout List Option Nat Bool

variable {T : Type} {segment : StaticFileSegment} {size : ℕ} {blocks : List (List T)} {file : ℕ}
  {w : StaticFileProviderRW T}

theorem isHeaders_of_isTxBased (hseg : segment.isTxBased = true) : segment.isHeaders = false := by
  cases segment with
  | headers => nomatch hseg
  | transactions | receipts => rfl

theorem prune_of_isTxBased {header : SegmentHeader} (hseg : header.segment.isTxBased = true)
    (num : ℕ) : header.prune num =
      { header with txRange := header.txRange.bind (SegmentHeader.pruneRange · num) } := by
  rw [SegmentHeader.prune, if_neg]
  exact fun hno => false_ne_true ((isHeaders_of_isTxBased hseg).symm.trans hno)

/-! ## Going back by one file -/

/-- **GOING BACK** by one file. -/
theorem HoldsAt.deleteCurrent (hsize : 0 < size) (h : HoldsAt segment size blocks (file + 1) w) :
    ∃ w', w.deleteCurrentAndOpenPrevious = some w' ∧ HoldsAt segment size blocks file w' := by
  have hstart : w.expectedBlockStart = file * size + size := by
    rw [h.expectedBlockStart_eq, succ_mul]
  obtain ⟨m, hmax, hle⟩ := h.index (succ_pos file)
  rw [succ_mul] at hle
  have hrange : w.reader.fixedRange (w.expectedBlockStart - 1) = expectedRangeOf size file := by
    rw [StaticFiles.fixedRange, h.size_eq, hstart]
    exact findFixedRange_eq file (by omega) (by omega)
  have hopen : w.reader.openJar w.segment (w.expectedBlockStart - 1) =
      some (jarOf segment size blocks file, w.reader) :=
    openJar_load hrange hmax (show file * size ≤ m by omega) (h.below file (lt_succ_self file))
  obtain ⟨current, hcurrent⟩ := ne_none_iff_exists'.mp h.present
  rw [← h.expectedBlockStart_eq] at hcurrent
  refine ⟨{ w with
    jar := jarOf segment size blocks file
    reader := { w.reader with jars := w.reader.jars.erase w.expectedBlockStart }
    dirty := true }, ?_, ?_⟩
  · rw [StaticFileProviderRW.deleteCurrentAndOpenPrevious, hopen]
    show (w.reader.jars[w.expectedBlockStart]?).bind _ = _
    rw [hcurrent]
    rfl
  · have hkept : ∀ file' ≤ file,
        (w.reader.jars.erase w.expectedBlockStart)[file' * size]? =
          some (jarOf segment size blocks file') := by
      intro file' hfile'
      rw [get_erase_ne, h.below file' (lt_succ_of_le hfile')]
      have := mul_le_mul_right size hfile'
      omega
    refine ⟨h.size_eq, rfl, fun file' hfile' => hkept file' (le_of_lt hfile'), ?_,
      fun key jar hjar => ?_, fun _ => ⟨m, hmax, by omega⟩,
      fun hno => absurd hno.symm false_ne_true, h.queue⟩
    · show (w.reader.jars.erase w.expectedBlockStart)[file * size]? ≠ none
      rw [hkept file le_rfl]
      exact Option.some_ne_none _
    · have hjar : (w.reader.jars.erase w.expectedBlockStart)[key]? = some jar := hjar
      by_cases hkey : w.expectedBlockStart = key
      · rw [hkey, get_erase_self] at hjar
        cases hjar
      · rw [get_erase_ne hkey] at hjar
        obtain ⟨i, hi, rfl⟩ := h.only key jar hjar
        refine ⟨i, ?_, rfl⟩
        rcases lt_or_eq_of_le hi with hlt | rfl
        · exact le_of_lt_succ hlt
        · exact absurd h.expectedBlockStart_eq hkey

variable {lastBlock kept : ℕ}

theorem HoldsAt.truncateEmpty (hsize : 0 < size) :
    ∀ fuel file {w}, HoldsAt segment size blocks file w → lastBlock / size ≤ file → file < fuel →
      ∃ w', StaticFileProviderRW.truncateEmpty lastBlock fuel w = some w' ∧
        HoldsAt segment size blocks (lastBlock / size) w' := by
  have hdiv := div_add_mod lastBlock size
  have hmod := mod_lt lastBlock hsize
  rw [mul_comm] at hdiv
  intro fuel
  induction fuel with
  | zero => exact fun file w _ _ hfuel => absurd hfuel (not_lt_zero _)
  | succ fuel ih =>
    intro file w h hle hfuel
    rw [StaticFileProviderRW.truncateEmpty, h.expectedBlockStart_eq]
    rcases lt_or_eq_of_le hle with hlt | heq
    · obtain ⟨previous, rfl⟩ := exists_eq_add_one.mpr (zero_lt_of_lt hlt)
      have hbelow := mul_le_mul_right size (succ_le_of_lt hlt)
      rw [succ_mul] at hbelow
      rw [if_pos (by omega)]
      obtain ⟨w1, hdelete, h1⟩ := h.deleteCurrent hsize
      rw [hdelete]
      exact ih previous h1 (le_of_lt_succ hlt) (by omega)
    · rw [if_neg (by rw [← heq]; omega)]
      exact ⟨w, rfl, heq ▸ h⟩

/-! ## What stays of a file -/

/-- The range of the transactions of a file among the first ones of the segment. -/
def keptTxRange (size : ℕ) (blocks : List (List T)) (file kept : ℕ) :
    Option SegmentRangeInclusive :=
  if txsBelow blocks (file * size) < min kept (txsBelow blocks ((file + 1) * size)) then
    some ⟨txsBelow blocks (file * size), min kept (txsBelow blocks ((file + 1) * size)) - 1⟩
  else none

/-- A file with the first transactions of the segment only. -/
def keptJar (segment : StaticFileSegment) (size : ℕ) (blocks : List (List T)) (file kept : ℕ) :
    Jar T :=
  ⟨⟨expectedRangeOf size file, blockRangeOf size blocks file, keptTxRange size blocks file kept,
      segment⟩,
    (fileBlocks size blocks file).flatten.take (kept - txsBelow blocks (file * size))⟩

/-- A file that ends at a block. -/
def endJar (segment : StaticFileSegment) (size : ℕ) (blocks : List (List T))
    (file kept lastBlock : ℕ) : Jar T :=
  { keptJar segment size blocks file kept with
    header := (keptJar segment size blocks file kept).header.setBlockRange (file * size) lastBlock }

theorem keptJar_eq_jarOf (h : txsBelow blocks ((file + 1) * size) ≤ kept) :
    keptJar segment size blocks file kept = jarOf segment size blocks file := by
  have hrows := length_rows size blocks file
  rw [keptJar, jarOf, keptTxRange, min_eq_right h, txRangeOf, take_of_length_le (by omega)]

/-- The file of the block holds what the chain up to the block has in it. -/
theorem endJar_eq_jarOf (hsize : 0 < size) (h : lastBlock < blocks.length) :
    endJar segment size blocks (lastBlock / size) (txsBelow blocks (lastBlock + 1)) lastBlock =
      jarOf segment size (blocks.take (lastBlock + 1)) (lastBlock / size) := by
  have hdiv := div_add_mod lastBlock size
  have hmod := mod_lt lastBlock hsize
  rw [mul_comm] at hdiv
  generalize lastBlock / size = file at hdiv ⊢
  have hend : (file + 1) * size = file * size + size := succ_mul file size
  have hlen : (blocks.take (lastBlock + 1)).length = lastBlock + 1 := by
    rw [length_take, min_eq_left h]
  have hfirst : txsBelow (blocks.take (lastBlock + 1)) (file * size) =
      txsBelow blocks (file * size) := txsBelow_take (by omega)
  have hlast : txsBelow (blocks.take (lastBlock + 1)) ((file + 1) * size) =
      txsBelow blocks (lastBlock + 1) := by
    rw [txsBelow_of_le (by omega), hlen, txsBelow_take le_rfl]
  have hrange : blockRangeOf size (blocks.take (lastBlock + 1)) file =
      some ⟨file * size, lastBlock⟩ := by
    rw [blockRangeOf, hlen, if_pos (by omega), Nat.min_eq_left (by omega)]
    rfl
  have htxs : keptTxRange size blocks file (txsBelow blocks (lastBlock + 1)) =
      txRangeOf size (blocks.take (lastBlock + 1)) file := by
    rw [keptTxRange, txRangeOf, hfirst, hlast, min_eq_left (txsBelow_mono blocks (by omega))]
  have hrows : (fileBlocks size blocks file).flatten.take
        (txsBelow blocks (lastBlock + 1) - txsBelow blocks (file * size)) =
      (fileBlocks size (blocks.take (lastBlock + 1)) file).flatten := by
    have hsplit : fileBlocks size (blocks.take (lastBlock + 1)) file =
        (fileBlocks size blocks file).take (lastBlock + 1 - file * size) := by
      rw [fileBlocks, fileBlocks, drop_take, take_take, take_take, min_comm]
    have hcount : txsBelow (fileBlocks size blocks file) (lastBlock + 1 - file * size) =
        txsBelow blocks (lastBlock + 1) - txsBelow blocks (file * size) := by
      have hlength := length_rows size (blocks.take (lastBlock + 1)) file
      rw [hsplit, length_flatten_take, hfirst, hlast] at hlength
      omega
    rw [hsplit, ← hcount, txsBelow, ← take_flatten]
  rw [endJar, keptJar, jarOf, hrange, htxs, hrows]
  rfl

theorem HoldsAt.len_eq (hseg : segment.isTxBased = true) (h : HoldsAt segment size blocks file w) :
    w.len = txsBelow blocks ((file + 1) * size) - txsBelow blocks (file * size) := by
  have hblock : segment.isBlockBased = false := isHeaders_of_isTxBased hseg
  rw [StaticFileProviderRW.len, h.segment_eq, hblock, h.jar]
  show ((txRangeOf size blocks file).map _).getD 0 = _
  rw [txRangeOf]
  by_cases hsome : txsBelow blocks (file * size) < txsBelow blocks ((file + 1) * size)
  · rw [if_pos hsome]
    show _ - 1 + 1 - _ = _
    rw [Nat.sub_add_cancel (by omega)]
  · rw [if_neg hsome]
    show 0 = _
    omega

theorem HoldsAt.pruneJar (hseg : segment.isTxBased = true)
    (h : HoldsAt segment size blocks file w) (hfirst : txsBelow blocks (file * size) ≤ kept)
    (hkept : kept + num = txsBelow blocks ((file + 1) * size)) :
    w.pruneJar num =
      some { w with jar := keptJar segment size blocks file kept, dirty := true } := by
  have hrows := length_rows size blocks file
  have hlength : w.jar.rows.length =
      txsBelow blocks ((file + 1) * size) - txsBelow blocks (file * size) := by
    rw [h.jar]
    show (fileBlocks size blocks file).flatten.length = _
    omega
  have hheader : w.jar.header.prune num = (keptJar segment size blocks file kept).header := by
    rw [h.jar, prune_of_isTxBased hseg]
    dsimp only [jarOf, keptJar]
    rw [keptTxRange, min_eq_left (by omega), txRangeOf]
    by_cases hsome : txsBelow blocks (file * size) < txsBelow blocks ((file + 1) * size)
    · rw [if_pos hsome, bind_some, SegmentHeader.pruneRange]
      dsimp only
      by_cases hleft : txsBelow blocks (file * size) < kept
      · rw [if_neg (by omega), if_pos hleft]
        congr 3
        omega
      · rw [if_pos (by omega), if_neg hleft]
    · rw [if_neg hsome, if_neg (by omega)]
      rfl
  rw [StaticFileProviderRW.pruneJar, if_pos (by omega), hheader, hlength, h.jar]
  rw [keptJar, show txsBelow blocks ((file + 1) * size) - txsBelow blocks (file * size) - num =
    kept - txsBelow blocks (file * size) by omega]
  rfl

/-! ## The first loop -/

/-- Where the first loop stops: at the file of the block, at one that keeps transactions, or when no
    row remains. -/
structure Stops (size : ℕ) (blocks : List (List T)) (lastBlock kept file stop : ℕ) : Prop where
  block_le : lastBlock / size ≤ stop
  le_file : stop ≤ file
  first_le : txsBelow blocks (stop * size) ≤ kept
  le_last : kept ≤ txsBelow blocks ((stop + 1) * size)
  here : stop = lastBlock / size ∨ txsBelow blocks (stop * size) < kept ∨
    kept = txsBelow blocks ((stop + 1) * size)
  next : stop = file ∨ kept < txsBelow blocks ((stop + 2) * size)

/-- **THE FIRST LOOP** keeps the first transactions of the segment. -/
theorem truncateRows_stops (hsize : 0 < size) (hseg : segment.isTxBased = true)
    (hfirst : txsBelow blocks (lastBlock / size * size) ≤ kept) :
    ∀ fuel file {w}, HoldsAt segment size blocks file w →
      lastBlock / size ≤ file → file < fuel → kept ≤ txsBelow blocks ((file + 1) * size) →
      ∃ stop w0 dirty, HoldsAt segment size blocks stop w0 ∧
        StaticFileProviderRW.truncateRows (some lastBlock) fuel
            (txsBelow blocks ((file + 1) * size) - kept) w =
          some { w0 with jar := keptJar segment size blocks stop kept, dirty } ∧
        Stops size blocks lastBlock kept file stop := by
  have hdiv := div_add_mod lastBlock size
  have hmod := mod_lt lastBlock hsize
  rw [mul_comm] at hdiv
  intro fuel
  induction fuel with
  | zero => exact fun file w _ _ hfuel => absurd hfuel (not_lt_zero _)
  | succ fuel ih =>
    intro file w h hle hfuel hkept
    have hmono : txsBelow blocks (file * size) ≤ txsBelow blocks ((file + 1) * size) :=
      txsBelow_mono blocks (mul_le_mul_right size (le_succ file))
    rw [StaticFileProviderRW.truncateRows, h.len_eq hseg]
    by_cases hnone : txsBelow blocks ((file + 1) * size) - kept = 0
    · -- no row remains
      refine ⟨file, w, w.dirty, h, ?_, hle, le_rfl, by omega, hkept,
        .inr (.inr (by omega)), .inl rfl⟩
      rw [if_pos hnone, keptJar_eq_jarOf (by omega), ← h.jar]
    rw [if_neg hnone]
    by_cases hall : kept ≤ txsBelow blocks (file * size)
    · rw [if_pos (by omega), h.expectedBlockStart_eq, h.segment_eq, isHeaders_of_isTxBased hseg]
      rcases lt_or_eq_of_le hle with hlt | heq
      · -- the whole file goes
        obtain ⟨previous, rfl⟩ := exists_eq_add_one.mpr (zero_lt_of_lt hlt)
        have hbelow := mul_le_mul_right size (succ_le_of_lt hlt)
        rw [succ_mul] at hbelow
        rw [if_pos ⟨by omega, .inr (decide_eq_true (by omega))⟩]
        obtain ⟨w1, hdelete, h1⟩ := h.deleteCurrent hsize
        obtain ⟨stop, w0, dirty, h0, hrest, hstops⟩ :=
          ih previous h1 (le_of_lt_succ hlt) (by omega) hall
        refine ⟨stop, w0, dirty, h0, ?_, hstops.block_le, le_succ_of_le hstops.le_file,
          hstops.first_le, hstops.le_last, hstops.here, .inr ?_⟩
        · rw [hdelete, ← hrest]
          show StaticFileProviderRW.truncateRows _ _ _ w1 = _
          congr 1
          omega
        · rcases hstops.next with rfl | hnext
          · exact Nat.lt_of_sub_pos (Nat.pos_of_ne_zero hnone)
          · exact hnext
      · -- the file of the block stays, without rows
        subst heq
        rw [if_neg]
        · refine ⟨lastBlock / size, w, true, h, ?_, le_rfl, le_rfl, hfirst, hkept,
            .inl rfl, .inl rfl⟩
          exact h.pruneJar hseg hfirst (by omega)
        · rintro ⟨-, hno | hno⟩
          · exact false_ne_true hno
          · exact absurd (of_decide_eq_true hno) (by omega)
    · refine ⟨file, w, true, h, ?_, hle, le_rfl, by omega, hkept,
        .inr (.inl (by omega)), .inl rfl⟩
      rw [if_neg (by omega)]
      exact h.pruneJar hseg (by omega) (by omega)

/-! ## Truncating to a block -/

theorem txsBelow_le (blocks : List (List T)) (b : ℕ) :
    txsBelow blocks b ≤ txsBelow blocks blocks.length := by
  rcases le_total b blocks.length with h | h
  · exact txsBelow_mono blocks h
  · rw [txsBelow_of_le h]

/-- **BEFORE THE LAST COMMIT** the writer is where the loops stopped, and its file ends at the
    block. -/
theorem Holds.truncate_eq (hsize : 0 < size) (hseg : segment.isTxBased = true)
    (h : Holds segment size blocks w) (hblock : lastBlock < blocks.length) (kept : ℕ)
    (hfirst : txsBelow blocks (lastBlock / size * size) ≤ kept)
    (hkept : kept ≤ txsBelow blocks blocks.length) :
    ∃ stop w0, HoldsAt segment size blocks stop w0 ∧ lastBlock / size ≤ stop ∧
      w.truncate (txsBelow blocks blocks.length - kept) (some lastBlock) =
        StaticFileProviderRW.commitJar { w0 with
          jar := endJar segment size blocks stop kept lastBlock
          dirty := true } ∧
      (kept = txsBelow blocks blocks.length → stop = lastBlock / size) ∧
      (kept < txsBelow blocks blocks.length →
        Stops size blocks lastBlock kept (lastFile size blocks) stop) := by
  have hne : blocks ≠ [] := ne_nil_of_length_pos (zero_lt_of_lt hblock)
  have hall : txsBelow blocks ((lastFile size blocks + 1) * size) =
      txsBelow blocks blocks.length := by
    refine txsBelow_of_le ?_
    rw [succ_mul]
    exact (lastFile_bounds hsize hne).2
  have hle : lastBlock / size ≤ lastFile size blocks :=
    Nat.div_le_div_right (le_sub_one_of_lt hblock)
  have hfuel : lastFile size blocks < w.expectedBlockStart + 1 := by
    rw [h.expectedBlockStart_eq]
    exact lt_succ_of_le (Nat.le_mul_of_pos_right _ hsize)
  rw [StaticFileProviderRW.truncate]
  rcases lt_or_eq_of_le hkept with hlt | rfl
  · -- there are rows to remove
    obtain ⟨stop, w0, dirty, h0, hrows, hstops⟩ :=
      truncateRows_stops hsize hseg hfirst _ _ h hle hfuel (hall ▸ hkept)
    rw [hall] at hrows
    refine ⟨stop, w0, h0, hstops.block_le, ?_, fun heq => absurd heq (Nat.ne_of_lt hlt),
      fun _ => hstops⟩
    rw [hrows]
    show (StaticFileProviderRW.setLastBlock _ _ _).bind _ = _
    rw [StaticFileProviderRW.setLastBlock, if_neg (by omega)]
    rfl
  · -- only the blocks say which files go
    obtain ⟨w0, hempty, h0⟩ := HoldsAt.truncateEmpty hsize _ _ h hle hfuel
    refine ⟨lastBlock / size, w0, h0, le_rfl, ?_, fun _ => rfl, fun hlt => absurd hlt (lt_irrefl _)⟩
    rw [Nat.sub_self, StaticFileProviderRW.truncateRows, if_pos rfl]
    show (w.setLastBlock 0 lastBlock).bind _ = _
    rw [StaticFileProviderRW.setLastBlock, if_pos rfl, hempty, endJar,
      keptJar_eq_jarOf (txsBelow_le blocks _), ← h0.jar, ← h0.expectedBlockStart_eq]
    rfl

theorem HoldsAt.commit_end (h : HoldsAt segment size blocks stop w) (kept : ℕ) (hsize : 0 < size)
    (hle : lastBlock / size ≤ stop) :
    ∃ txIndex, StaticFileProviderRW.commitJar { w with
        jar := endJar segment size blocks stop kept lastBlock
        dirty := true } =
      some { w with
        reader := { w.reader with
          jars := w.reader.jars.insert (stop * size)
            (endJar segment size blocks stop kept lastBlock)
          maxBlock := some lastBlock
          txIndex }
        jar := endJar segment size blocks stop kept lastBlock
        dirty := false } := by
  have hfound : ∀ m ∈ some lastBlock, (w.reader.jars.insert (stop * size)
      (endJar segment size blocks stop kept lastBlock))[(w.reader.fixedRange m).start]? ≠ none := by
    intro m hm
    cases hm
    rw [StaticFiles.fixedRange, h.size_eq, findFixedRange]
    dsimp only
    rcases lt_or_eq_of_le hle with hlt | heq
    · rw [get_insert_ne fun heq => absurd (eq_of_mul_eq_mul_right hsize heq) (by omega),
        h.below _ hlt]
      exact Option.some_ne_none _
    · rw [heq, get_insert_self]
      exact Option.some_ne_none _
  obtain ⟨txIndex, hindex⟩ := updateIndex_eq segment (s := { w.reader with
    jars := w.reader.jars.insert (stop * size)
      (endJar segment size blocks stop kept lastBlock) }) hfound
  refine ⟨txIndex, ?_⟩
  rw [StaticFileProviderRW.commitJar, if_pos rfl]
  exact bind_eq_some_iff.mpr ⟨_, hindex, rfl⟩

/-- A truncation that ends in the file of the block and keeps the transactions up to it. -/
theorem HoldsAt.ended (hsize : 0 < size) (hblock : lastBlock < blocks.length)
    (h : HoldsAt segment size blocks (lastBlock / size) w) :
    Holds segment size (blocks.take (lastBlock + 1)) { w with
      jar := endJar segment size blocks (lastBlock / size) (txsBelow blocks (lastBlock + 1))
        lastBlock
      dirty := true } := by
  have hdiv := div_mul_le_self lastBlock size
  have hlast : lastFile size (blocks.take (lastBlock + 1)) = lastBlock / size := by
    rw [lastFile, length_take, min_eq_left hblock]
    rfl
  have hchanged := h.changed (blocks.take (lastBlock + 1)) hsize (by
    rw [take_take, min_eq_left (by omega)])
  rw [← endJar_eq_jarOf hsize hblock] at hchanged
  exact hlast.symm ▸ hchanged

theorem Holds.unwind_eq (hseg : segment.isTxBased = true) (h : Holds segment size blocks w)
    (toDelete lastBlock : ℕ) :
    w.unwind toDelete lastBlock =
      (w.truncate toDelete (some lastBlock)).bind StaticFileProviderRW.commitJar := by
  have hsame : { w with pruneOnCommit := none } = w := by rw [← h.queue]
  have hdata : w.pruneData toDelete (some lastBlock) = w.truncate toDelete (some lastBlock) := by
    rw [← h.segment_eq] at hseg
    unfold StaticFileProviderRW.pruneData
    cases hcase : w.segment with
    | headers =>
      rw [hcase] at hseg
      nomatch hseg
    | transactions | receipts => rfl
  rw [StaticFileProviderRW.unwind, StaticFileProviderRW.queuePrune, h.queue]
  show (StaticFileProviderRW.pruneData { w with pruneOnCommit := none } _ _).bind _ = _
  rw [hsame, hdata]

/-! ## Unwinding -/

/-- After an unwind the writer is at the file of the block, whose header ends at the block and its
    last transaction, and the next block can be appended. -/
structure UnwoundTo (size : ℕ) (blocks : List (List T)) (lastBlock : ℕ)
    (w : StaticFileProviderRW T) : Prop where
  file : w.jar.header.expectedBlockRange = findFixedRange lastBlock size
  blockRange : w.jar.header.blockRange = some ⟨(findFixedRange lastBlock size).start, lastBlock⟩
  txEnd : w.jar.header.txEnd =
    if txsBelow blocks (findFixedRange lastBlock size).start < txsBelow blocks (lastBlock + 1) then
      some (txsBelow blocks (lastBlock + 1) - 1)
    else none
  next : ∀ txs : List T,
    (w.appendBlock (lastBlock + 1) (txsBelow blocks (lastBlock + 1)) txs).isSome = true

/-- **THE CONDITION**: nothing is removed, or something of the file of the block or of the
    next one. -/
def Unwindable (size : ℕ) (blocks : List (List T)) (lastBlock : ℕ) : Prop :=
  txsBelow blocks (lastBlock + 1) = txsBelow blocks blocks.length ∨
    txsBelow blocks (lastBlock + 1) < txsBelow blocks ((lastBlock / size + 2) * size)

instance (size : ℕ) (blocks : List (List T)) (lastBlock : ℕ) :
    Decidable (Unwindable size blocks lastBlock) := inferInstanceAs (Decidable (_ ∨ _))

/-- The number of transactions above a block. -/
def txsAbove (blocks : List (List T)) (lastBlock : ℕ) : ℕ :=
  txsBelow blocks blocks.length - txsBelow blocks (lastBlock + 1)

/-- The state is right once the segment holds the blocks up to the block. -/
theorem Holds.unwoundTo (hsize : 0 < size) (hseg : segment.isTxBased = true)
    (hblock : lastBlock < blocks.length) (h : Holds segment size (blocks.take (lastBlock + 1)) w) :
    UnwoundTo size blocks lastBlock w := by
  have hlen : (blocks.take (lastBlock + 1)).length = lastBlock + 1 := by
    rw [length_take, min_eq_left hblock]
  have hlast : lastFile size (blocks.take (lastBlock + 1)) = lastBlock / size := by
    rw [lastFile, hlen, Nat.add_sub_cancel]
  have hjar : w.jar = endJar segment size blocks (lastBlock / size)
      (txsBelow blocks (lastBlock + 1)) lastBlock := by
    rw [h.jar, hlast, endJar_eq_jarOf hsize hblock]
  have hdiv := div_add_mod lastBlock size
  have hmod := mod_lt lastBlock hsize
  rw [mul_comm] at hdiv
  have hmin : min (txsBelow blocks (lastBlock + 1))
      (txsBelow blocks ((lastBlock / size + 1) * size)) = txsBelow blocks (lastBlock + 1) := by
    refine min_eq_left (txsBelow_mono blocks ?_)
    rw [succ_mul]
    omega
  refine ⟨by rw [hjar]; rfl, by rw [hjar]; rfl, ?_, fun txs => ?_⟩
  · rw [hjar]
    show (keptTxRange size blocks (lastBlock / size) _).map _ = _
    rw [keptTxRange, hmin, findFixedRange]
    dsimp only
    by_cases hsome : txsBelow blocks (lastBlock / size * size) < txsBelow blocks (lastBlock + 1)
    · rw [if_pos hsome, if_pos hsome]
      rfl
    · rw [if_neg hsome, if_neg hsome]
      rfl
  · obtain ⟨w', happend, -⟩ := h.appendBlock hsize hseg txs
    rw [hlen, txsBelow_take le_rfl] at happend
    rw [happend]
    rfl

/-- An unwind under the condition leaves a segment that holds the blocks up to the block. -/
theorem Holds.unwind (hsize : 0 < size) (hseg : segment.isTxBased = true)
    (h : Holds segment size blocks w) (hblock : lastBlock < blocks.length)
    (hok : Unwindable size blocks lastBlock) :
    ∃ w', w.unwind (txsAbove blocks lastBlock) lastBlock = some w' ∧
      Holds segment size (blocks.take (lastBlock + 1)) w' := by
  have hdiv := div_mul_le_self lastBlock size
  obtain ⟨stop, w0, h0, -, htruncate, hnothing, hstops⟩ := h.truncate_eq hsize hseg hblock
    (txsBelow blocks (lastBlock + 1)) (txsBelow_mono blocks (by omega)) (txsBelow_le blocks _)
  have hstop : stop = lastBlock / size := by
    rcases hok with hall | hnext
    · exact hnothing hall
    have hlt : txsBelow blocks (lastBlock + 1) < txsBelow blocks blocks.length :=
      lt_of_lt_of_le hnext (txsBelow_le blocks _)
    have hstops := hstops hlt
    by_contra hne
    have hgt : lastBlock / size < stop := lt_of_le_of_ne hstops.block_le (Ne.symm hne)
    -- a later file has no transaction of the blocks up to the block
    have hlow : txsBelow blocks (lastBlock + 1) ≤ txsBelow blocks (stop * size) := by
      refine txsBelow_mono blocks (succ_le_of_lt ?_)
      exact lt_mul_of_div_lt hgt hsize
    have hhigh : txsBelow blocks ((lastBlock / size + 2) * size) ≤
        txsBelow blocks ((stop + 1) * size) :=
      txsBelow_mono blocks (mul_le_mul_right size (by omega))
    rcases hstops.here with heq | hkept | hkept
    · exact hne heq
    · omega
    · omega
  subst hstop
  obtain ⟨w', hcommit, h', hdirty⟩ := (h0.ended hsize hblock).commitJar hsize
  refine ⟨w', ?_, h'⟩
  rw [h.unwind_eq hseg, txsAbove, htruncate, hcommit, bind_some,
    StaticFileProviderRW.commitJar, hdirty]
  rfl

/-- **THE CONDITION IS NEEDED**: otherwise the writer ends in a later file. -/
theorem Holds.unwindable_of_file (hsize : 0 < size) (hseg : segment.isTxBased = true)
    (h : Holds segment size blocks w) (hblock : lastBlock < blocks.length)
    (hunwind : w.unwind (txsAbove blocks lastBlock) lastBlock = some w')
    (hfile : w'.jar.header.expectedBlockRange = findFixedRange lastBlock size) :
    Unwindable size blocks lastBlock := by
  have hdiv := div_mul_le_self lastBlock size
  obtain ⟨stop, w0, h0, hle, htruncate, -, hstops⟩ := h.truncate_eq hsize hseg hblock
    (txsBelow blocks (lastBlock + 1)) (txsBelow_mono blocks (by omega)) (txsBelow_le blocks _)
  obtain ⟨txIndex, hcommit⟩ := h0.commit_end (txsBelow blocks (lastBlock + 1)) hsize hle
  rw [h.unwind_eq hseg, txsAbove, htruncate, hcommit] at hunwind
  cases hunwind
  have hstart := congrArg SegmentRangeInclusive.start hfile
  have hstop : stop = lastBlock / size := eq_of_mul_eq_mul_right hsize hstart
  rw [Unwindable]
  by_contra hno
  have hlt : txsBelow blocks (lastBlock + 1) < txsBelow blocks blocks.length :=
    lt_of_le_of_ne (txsBelow_le blocks _) fun heq => hno (.inl heq)
  refine hno (.inr ?_)
  rcases (hstops hlt).next with heq | hnext
  · -- the file of the block is the last one
    have hne : blocks ≠ [] := ne_nil_of_length_pos (zero_lt_of_lt hblock)
    obtain ⟨-, hend⟩ := lastFile_bounds hsize hne
    have hpast : blocks.length ≤ (lastFile size blocks + 2) * size := by
      rw [add_mul]
      omega
    rw [← hstop, heq, txsBelow_of_le hpast]
    exact hlt
  · rwa [← hstop]

/-! ## Runs -/

/-- The blocks appended and the writer. -/
structure Chain (T : Type) where
  blocks : List (List T)
  writer : StaticFileProviderRW T

/-- What is done with a segment. -/
inductive Op (T : Type)
  | append (txs : List T)
  | commit
  | unwind (lastBlock : ℕ)

namespace Chain

/-- A segment without files, and the writer of block 0. -/
def initial (segment : StaticFileSegment) (size : ℕ) : Option (Chain T) :=
  (StaticFiles.writer ⟨size, ∅, none, ∅⟩ segment 0).map (fun w => ⟨[], w⟩)

/-- One operation. A block is appended with the next numbers, and an unwind removes the
    transactions above its block. -/
def next (c : Chain T) : Op T → Option (Chain T)
  | .append txs =>
    (c.writer.appendBlock c.blocks.length (txsBelow c.blocks c.blocks.length) txs).map
      (fun w => ⟨c.blocks ++ [txs], w⟩)
  | .commit => c.writer.commit.map (fun w => ⟨c.blocks, w⟩)
  | .unwind lastBlock =>
    if lastBlock < c.blocks.length then
      (c.writer.unwind (txsAbove c.blocks lastBlock) lastBlock).map
        (fun w => ⟨c.blocks.take (lastBlock + 1), w⟩)
    else none

/-- The condition on an operation. -/
def guard (size : ℕ) (c : Chain T) : Op T → Bool
  | .unwind lastBlock => decide (Unwindable size c.blocks lastBlock)
  | _ => true

end Chain

/-- The segments reached by operations whose unwinds meet the condition. -/
abbrev ReachedFrom (size : ℕ) (init c : Chain T) : Prop :=
  Runs.ReachedBy (fun c op c' => Chain.next c op = some c')
    (fun c op => Chain.guard size c op = true) init c

theorem writer_eq {s reader : StaticFiles T} {block : ℕ} {jar : Jar T}
    (h : s.openJar segment block = some (jar, reader)) :
    s.writer segment block =
      StaticFileProviderRW.ensureEndRangeConsistency ⟨reader, jar, false, none⟩ := by
  rw [StaticFiles.writer, h]
  rfl

/-- Opening a complete file is a commit of it. -/
theorem Holds.ensureEndRangeConsistency_eq (hseg : segment.isTxBased = true)
    (h : Holds segment size blocks { w with dirty := true }) :
    w.ensureEndRangeConsistency = StaticFileProviderRW.commitJar { w with dirty := true } := by
  -- a file has the rows its header counts
  have hlost : StaticFileProviderRW.len { w with dirty := true } - w.jar.rows.length = 0 := by
    have hrows := length_rows size blocks (lastFile size blocks)
    have hjar : w.jar = _ := h.jar
    rw [h.len_eq hseg, hjar]
    show _ - _ - (fileBlocks size blocks _).flatten.length = 0
    omega
  change w.len - w.jar.rows.length = 0 at hlost
  rw [StaticFileProviderRW.ensureEndRangeConsistency, hlost, StaticFileProviderRW.commitJar,
    if_pos rfl]
  rfl

theorem openJar_first (hsize : 0 < size) :
    (⟨size, ∅, none, ∅⟩ : StaticFiles T).openJar segment 0 =
      some (createJar segment (expectedRangeOf size 0),
        ⟨size, (∅ : ExtTreeMap ℕ (Jar T)).insert (0 * size)
          (createJar segment (expectedRangeOf size 0)), none, ∅⟩) := by
  have hrange : findFixedRange 0 size = expectedRangeOf size 0 :=
    findFixedRange_eq 0 (by omega) (by omega)
  exact openJar_create segment hrange nofun

theorem holds_first (segment : StaticFileSegment) (size : ℕ) :
    Holds segment size ([] : List (List T))
      ⟨⟨size, (∅ : ExtTreeMap ℕ (Jar T)).insert (0 * size)
          (createJar segment (expectedRangeOf size 0)), none, ∅⟩,
        createJar segment (expectedRangeOf size 0), true, none⟩ := by
  have hfile : lastFile size ([] : List (List T)) = 0 := Nat.zero_div size
  rw [Holds, hfile]
  refine ⟨rfl, (jarOf_eq_createJar (zero_le _)).symm,
    fun file' hfile' => absurd hfile' (not_lt_zero _), ?_,
    fun key jar hjar => ⟨0, le_rfl, ?_⟩, fun hpos => absurd hpos (lt_irrefl 0),
    fun hno => absurd hno.symm false_ne_true, rfl⟩
  · show ((∅ : ExtTreeMap ℕ (Jar T)).insert (0 * size) _)[0 * size]? ≠ none
    rw [get_insert_self]
    nofun
  · have hjar : ((∅ : ExtTreeMap ℕ (Jar T)).insert (0 * size) _)[key]? = some jar := hjar
    by_contra hne
    rw [get_insert_ne (Ne.symm hne)] at hjar
    exact absurd hjar (by simp)

theorem holds_initial (hsize : 0 < size) (hseg : segment.isTxBased = true) {c : Chain T}
    (h : Chain.initial segment size = some c) : Holds segment size c.blocks c.writer := by
  have hfirst := holds_first (T := T) segment size
  obtain ⟨w', hcommit, h', -⟩ := hfirst.commitJar hsize
  rw [Chain.initial, writer_eq (openJar_first hsize),
    Holds.ensureEndRangeConsistency_eq hseg hfirst, hcommit] at h
  cases h
  exact h'

/-- **WHOLE RUNS**: the segment holds the blocks. -/
theorem holds_of_reached (hsize : 0 < size) (hseg : segment.isTxBased = true)
    (hinit : Chain.initial segment size = some init) (h : ReachedFrom size init c) :
    Holds segment size c.blocks c.writer := by
  refine h.invariant (I := fun c => Holds segment size c.blocks c.writer)
    (holds_initial hsize hseg hinit) ?_
  intro c op c' _ hc hguard hnext
  cases op with
  | append txs =>
    obtain ⟨w', happend, h'⟩ := hc.appendBlock hsize hseg txs
    rw [Chain.next, happend] at hnext
    cases hnext
    exact h'
  | commit =>
    obtain ⟨w', hcommit, h', -⟩ := hc.commit hsize
    rw [Chain.next, hcommit] at hnext
    cases hnext
    exact h'
  | unwind lastBlock =>
    rw [Chain.next] at hnext
    by_cases hblock : lastBlock < c.blocks.length
    · obtain ⟨w', hunwind, h'⟩ := hc.unwind hsize hseg hblock (of_decide_eq_true hguard)
      rw [if_pos hblock, hunwind] at hnext
      cases hnext
      exact h'
    · rw [if_neg hblock] at hnext
      nomatch hnext

/-- **UNWINDING ENDS IN THE FILE OF THE BLOCK** iff nothing is removed, or something of it or of the
    next one. -/
theorem unwound_iff (segment : StaticFileSegment) (hseg : segment.isTxBased = true) (size : ℕ)
    (hsize : 0 < size) (init c : Chain T) (hinit : Chain.initial segment size = some init)
    (h : ReachedFrom size init c) (lastBlock : ℕ) (hblock : lastBlock < c.blocks.length) :
    (∃ w', c.writer.unwind (txsAbove c.blocks lastBlock) lastBlock = some w' ∧
        UnwoundTo size c.blocks lastBlock w') ↔
      Unwindable size c.blocks lastBlock := by
  have hc := holds_of_reached hsize hseg hinit h
  constructor
  · rintro ⟨w', hunwind, hto⟩
    exact hc.unwindable_of_file hsize hseg hblock hunwind hto.file
  · intro hok
    obtain ⟨w', hunwind, h'⟩ := hc.unwind hsize hseg hblock hok
    exact ⟨w', hunwind, h'.unwoundTo hsize hseg hblock⟩

private theorem exists_chain (size : ℕ) (ops : List (Op ℕ)) (check : Chain ℕ → Bool)
    (h : (Chain.initial .transactions size).any (fun init =>
      (Runs.run Chain.next (Chain.guard size) ops init).any check) = true) :
    ∃ init c, Chain.initial .transactions size = some init ∧ ReachedFrom size init c ∧
      check c = true := by
  obtain ⟨init, hinit, hrun⟩ := (any_eq_true _ _).mp h
  obtain ⟨c, hreached, hcheck⟩ := Runs.exists_of_next _ _ _ _ check hrun
  exact ⟨init, c, hinit, hreached, hcheck⟩

/-- Blocks of one, none and one transaction in files of one block, unwound to the first. -/
theorem unwound_iff_first : ∃ init c : Chain ℕ,
    Chain.initial .transactions 1 = some init ∧ ReachedFrom 1 init c ∧
      c.blocks = [[7], [], [8]] ∧ ¬ Unwindable 1 c.blocks 0 ∧
      Unwindable 1 c.blocks 1 ∧
      ∃ w', c.writer.unwind (txsAbove c.blocks 1) 1 = some w' ∧ UnwoundTo 1 c.blocks 1 w' := by
  obtain ⟨init, c, hinit, hreached, hcheck⟩ := exists_chain 1
    [.append [7], .append [], .append [8], .commit] (fun c => decide (c.blocks = [[7], [], [8]]))
    (by decide +kernel)
  have hblocks : c.blocks = [[7], [], [8]] := of_decide_eq_true hcheck
  have hok : Unwindable 1 c.blocks 1 := by
    rw [hblocks]
    decide
  refine ⟨init, c, hinit, hreached, hblocks, by rw [hblocks]; decide, hok, ?_⟩
  exact (unwound_iff .transactions rfl 1 one_pos init c hinit hreached 1
    (by rw [hblocks]; decide)).mpr hok

private def endsInSecondFile (w : StaticFileProviderRW ℕ) : Bool :=
  decide (w.jar.header.expectedBlockRange = ⟨1, 1⟩ ∧ w.jar.header.blockRange = some ⟨1, 0⟩)

/-- **THE LOOP STOPS SHORT**: the transaction above block 0 is in file 2, file 1 has an empty block,
    and the writer stays there, with the block range from 1 to 0. -/
theorem unwind_stops_short : ∃ init c : Chain ℕ,
    Chain.initial .transactions 1 = some init ∧ ReachedFrom 1 init c ∧ c.blocks = [[7], [], [8]] ∧
      (∃ w', c.writer.unwind (txsAbove c.blocks 0) 0 = some w' ∧
        w'.jar.header.expectedBlockRange = ⟨1, 1⟩ ∧ w'.jar.header.blockRange = some ⟨1, 0⟩) ∧
      ¬ ∃ w', c.writer.unwind (txsAbove c.blocks 0) 0 = some w' ∧ UnwoundTo 1 c.blocks 0 w' := by
  obtain ⟨init, c, hinit, hreached, hcheck⟩ := exists_chain 1
    [.append [7], .append [], .append [8], .commit]
    (fun c => decide (c.blocks = [[7], [], [8]]) &&
      (c.writer.unwind (txsAbove c.blocks 0) 0).any endsInSecondFile)
    (by decide +kernel)
  obtain ⟨hblocks, hany⟩ := and_eq_true_iff.mp hcheck
  obtain ⟨w', hunwind, hranges⟩ := (any_eq_true _ _).mp hany
  obtain ⟨hexpected, hrange⟩ := of_decide_eq_true hranges
  refine ⟨init, c, hinit, hreached, of_decide_eq_true hblocks, ⟨w', hunwind, hexpected, hrange⟩, ?_⟩
  rintro ⟨w'', hunwind', hto⟩
  cases hunwind.symm.trans hunwind'
  exact absurd (hexpected.symm.trans hto.file) (by decide)

end StaticFile

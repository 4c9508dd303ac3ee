import Pasifika.StaticFile.Manager
import Pasifika.StaticFile.Unwind

/-! # Healing a segment at startup

A segment holds more blocks than its stage has committed. The check prunes the difference
of two transaction numbers, the highest one in the files and the last one of the
checkpoint, where 0 stands for no transaction as well as for transaction 0. `Indexed` is
the index over the files, kept when the last file is opened. -/

namespace StaticFile

open Std (ExtTreeMap)
open OrderedMap Layout Storage List Bool

variable {T : Type} {segment : StaticFileSegment} {size : ℕ} {blocks : List (List T)} {file : ℕ}
  {w : StaticFileProviderRW T}

/-! ## The rows of the files -/

/-- The rows of all files, in the order of their blocks. -/
def StaticFiles.rows (s : StaticFiles T) : List T :=
  (s.jars.toList.map (fun entry => entry.2.rows)).flatten

theorem toList_files (jars : ExtTreeMap ℕ (Jar T)) (n : ℕ) (jar : ℕ → Jar T) (hsize : 0 < size)
    (hjar : ∀ file < n, jars[file * size]? = some (jar file))
    (honly : ∀ key j, jars[key]? = some j → ∃ file < n, key = file * size) :
    jars.toList = (range n).map (fun file => (file * size, jar file)) := by
  refine toList_eq_of_sorted ?_ ?_
  · rw [pairwise_map]
    refine pairwise_lt_range.imp fun {a b} hlt => ?_
    exact Nat.compare_eq_lt.mpr (Nat.mul_lt_mul_of_pos_right hlt hsize)
  · intro key j
    constructor
    · intro hkey
      obtain ⟨file, hfile, rfl⟩ := honly key j hkey
      cases (hjar file hfile).symm.trans hkey
      exact mem_map.mpr ⟨file, mem_range.mpr hfile, rfl⟩
    · intro hmem
      obtain ⟨file, hfile, heq⟩ := mem_map.mp hmem
      cases heq
      exact hjar file (mem_range.mp hfile)

theorem rows_below (size : ℕ) (blocks : List (List T)) : ∀ n : ℕ,
    ((range n).map fun file => (fileBlocks size blocks file).flatten).flatten =
      (blocks.take (n * size)).flatten := by
  intro n
  induction n with
  | zero => rw [zero_mul]; rfl
  | succ n ih =>
    rw [range_succ, map_append, flatten_append, ih, Nat.succ_mul, take_add,
      flatten_append, map_singleton, flatten_singleton, fileBlocks]

variable {stop kept lastBlock key b checkpoint : ℕ} {range : SegmentRangeInclusive}
variable {s : StaticFiles T} {db : Database T}

theorem HoldsAt.toList_end (hsize : 0 < size) (h : HoldsAt segment size blocks stop w) :
    (w.reader.jars.insert (stop * size) (endJar segment size blocks stop kept lastBlock)).toList =
      (List.range stop).map (fun file => (file * size, jarOf segment size blocks file)) ++
        [(stop * size, endJar segment size blocks stop kept lastBlock)] := by
  have hall := toList_files
    (w.reader.jars.insert (stop * size) (endJar segment size blocks stop kept lastBlock))
    (stop + 1)
    (fun file =>
      if file = stop then endJar segment size blocks stop kept lastBlock
      else jarOf segment size blocks file)
    hsize
    (by
      intro file hfile
      by_cases heq : file = stop
      · rw [heq, get_insert_self, if_pos rfl]
      · have hlt : file < stop := lt_of_le_of_ne (Nat.le_of_lt_succ hfile) heq
        rw [get_insert_ne fun hkey => heq (Nat.eq_of_mul_eq_mul_right hsize hkey).symm,
          h.below file hlt, if_neg heq])
    (by
      intro key jar hjar
      by_cases hkey : stop * size = key
      · exact ⟨stop, Nat.lt_succ_self stop, hkey.symm⟩
      · rw [get_insert_ne hkey] at hjar
        obtain ⟨i, hi, rfl⟩ := h.only key jar hjar
        exact ⟨i, Nat.lt_succ_of_le hi, rfl⟩)
  rw [hall, range_succ, map_append, map_singleton, if_pos rfl]
  congr 1
  refine map_congr_left fun file hfile => ?_
  rw [if_neg (ne_of_lt (mem_range.mp hfile))]

theorem HoldsAt.rows_end (hsize : 0 < size) (h : HoldsAt segment size blocks stop w)
    (hlow : txsBelow blocks (stop * size) ≤ kept) :
    ((w.reader.jars.insert (stop * size)
        (endJar segment size blocks stop kept lastBlock)).toList.map (·.2.rows)).flatten =
      blocks.flatten.take (min kept (txsBelow blocks ((stop + 1) * size))) := by
  have hsplit : (blocks.take ((stop + 1) * size)).flatten =
      (blocks.take (stop * size)).flatten ++ (fileBlocks size blocks stop).flatten := by
    rw [Nat.succ_mul, take_add, flatten_append, fileBlocks]
  have hlength := length_flatten_take blocks (stop * size)
  have hkeep : (blocks.take (stop * size)).flatten.take kept =
      (blocks.take (stop * size)).flatten := take_of_length_le (by omega)
  rw [h.toList_end hsize, map_append, flatten_append, map_map]
  show ((range stop).map fun file => (fileBlocks size blocks file).flatten).flatten ++ _ = _
  rw [rows_below, map_singleton, flatten_singleton, ← take_take, txsBelow,
    take_flatten, hsplit, List.take_append, hkeep, hlength]
  rfl

/-- **AN UNWIND** of any number of rows that spares the files before the block. -/
theorem Holds.unwind_rows (hsize : 0 < size) (hseg : segment.isTxBased = true)
    (h : Holds segment size blocks w) (hblock : lastBlock < blocks.length)
    (hfirst : txsBelow blocks (lastBlock / size * size) ≤ kept)
    (hkept : kept ≤ txsBelow blocks blocks.length) :
    ∃ stop w', w.unwind (txsBelow blocks blocks.length - kept) lastBlock = some w' ∧
      w'.reader.maxBlock = some lastBlock ∧
      w'.reader.rows = blocks.flatten.take (min kept (txsBelow blocks ((stop + 1) * size))) ∧
      (kept = txsBelow blocks blocks.length → stop = lastBlock / size) ∧
      (kept < txsBelow blocks blocks.length → kept ≤ txsBelow blocks ((stop + 1) * size)) := by
  obtain ⟨stop, w0, h0, hle, htruncate, hnothing, hstops⟩ :=
    h.truncate_eq hsize hseg hblock kept hfirst hkept
  obtain ⟨txIndex, hcommit⟩ := h0.commit_end kept hsize hle
  have hlow : txsBelow blocks (stop * size) ≤ kept := by
    rcases Nat.lt_or_eq_of_le hkept with hlt | rfl
    · exact (hstops hlt).first_le
    · exact txsBelow_le blocks _
  have hunwind := h.unwind_eq hseg (txsBelow blocks blocks.length - kept) lastBlock
  rw [htruncate, hcommit, Option.bind_some, StaticFileProviderRW.commitJar,
    if_neg Bool.false_ne_true] at hunwind
  exact ⟨stop, _, hunwind, rfl, h0.rows_end hsize hlow, hnothing, fun hlt => (hstops hlt).le_last⟩

/-! ## The index -/

/-- The entry of a file: its last transaction and its blocks. -/
def indexEntry (size : ℕ) (blocks : List (List T)) (file : ℕ) :
    Option (ℕ × SegmentRangeInclusive) :=
  (blockRangeOf size blocks file).bind (fun range =>
    (txRangeOf size blocks file).map (fun tx => (tx.stop, range)))

theorem indexEntry_eq_some :
    indexEntry size blocks file = some (key, range) ↔
      txsBelow blocks (file * size) ≤ key ∧ key + 1 = txsBelow blocks ((file + 1) * size) ∧
        blockRangeOf size blocks file = some range := by
  rw [indexEntry, txRangeOf]
  by_cases h : txsBelow blocks (file * size) < txsBelow blocks ((file + 1) * size)
  · rw [if_pos h]
    constructor
    · intro heq
      obtain ⟨range', hrange, heq⟩ := Option.bind_eq_some_iff.mp heq
      cases heq
      exact ⟨Nat.le_sub_one_of_lt h, Nat.sub_add_cancel (Nat.one_le_of_lt h), hrange⟩
    · rintro ⟨-, hend, hrange⟩
      rw [hrange, ← hend]
      rfl
  · rw [if_neg h]
    constructor
    · intro heq
      obtain ⟨range', -, hnone⟩ := Option.bind_eq_some_iff.mp heq
      rw [Option.map_none] at hnone
      cases hnone
    · rintro ⟨hle, hend, -⟩
      omega

/-- Files with transactions end at different ones. -/
theorem file_unique {file' key : ℕ} {range range' : SegmentRangeInclusive}
    (h : indexEntry size blocks file = some (key, range))
    (h' : indexEntry size blocks file' = some (key, range')) : file = file' := by
  obtain ⟨hle, hend, -⟩ := indexEntry_eq_some.mp h
  obtain ⟨hle', hend', -⟩ := indexEntry_eq_some.mp h'
  have hnext : ∀ {i j}, i < j → txsBelow blocks ((i + 1) * size) ≤ txsBelow blocks (j * size) :=
    fun hlt => txsBelow_mono blocks (Nat.mul_le_mul_right size (Nat.succ_le_of_lt hlt))
  rcases lt_trichotomy file file' with hlt | heq | hlt
  · have := hnext hlt
    omega
  · exact heq
  · have := hnext hlt
    omega

/-- **THE INDEX** has the files with transactions, by their last one. -/
def Indexed (size : ℕ) (blocks : List (List T)) (index : ExtTreeMap ℕ SegmentRangeInclusive) :
    Prop :=
  ∀ (key : ℕ) (range : SegmentRangeInclusive), index[key]? = some range ↔
    ∃ file, indexEntry size blocks file = some (key, range)

/-- The last file with a transaction. -/
theorem exists_last_file (hsize : 0 < size) (h : 0 < txsBelow blocks blocks.length) :
    ∃ file, file * size < blocks.length ∧
      txsBelow blocks (file * size) < txsBelow blocks blocks.length ∧
      txsBelow blocks ((file + 1) * size) = txsBelow blocks blocks.length := by
  classical
  have hex : ∃ n, txsBelow blocks (n * size) = txsBelow blocks blocks.length :=
    ⟨blocks.length, txsBelow_of_le (Nat.le_mul_of_pos_right _ hsize)⟩
  have hfound := Nat.find_spec hex
  obtain ⟨file, hfile⟩ : ∃ file, Nat.find hex = file + 1 := by
    refine Nat.exists_eq_add_one.mpr (pos_of_ne_zero fun hzero => ?_)
    rw [hzero, zero_mul, txsBelow, start_zero] at hfound
    omega
  have hbefore : txsBelow blocks (file * size) ≠ txsBelow blocks blocks.length :=
    Nat.find_min hex (by omega)
  rw [hfile] at hfound
  refine ⟨file, ?_, lt_of_le_of_ne (txsBelow_le blocks _) hbefore, hfound⟩
  by_contra hge
  exact hbefore (txsBelow_of_le (Nat.le_of_not_lt hge))

theorem Indexed.highest (hsize : 0 < size) (h : Indexed size blocks index) :
    (last index).map Prod.fst =
      if txsBelow blocks blocks.length = 0 then none
      else some (txsBelow blocks blocks.length - 1) := by
  have hbound : ∀ key range, index[key]? = some range →
      key + 1 ≤ txsBelow blocks blocks.length := by
    intro key range hkey
    obtain ⟨file, hentry⟩ := (h key range).mp hkey
    obtain ⟨-, hend, -⟩ := indexEntry_eq_some.mp hentry
    rw [hend]
    exact txsBelow_le blocks _
  by_cases hzero : txsBelow blocks blocks.length = 0
  · rw [if_pos hzero, last_eq_none.mpr]
    · rfl
    · intro key
      cases hkey : index[key]? with
      | none => rfl
      | some range => exact absurd (hbound key range hkey) (by omega)
  · rw [if_neg hzero]
    obtain ⟨file, hfile, hlt, hend⟩ := exists_last_file hsize (pos_of_ne_zero hzero)
    have hrow := (h (txsBelow blocks blocks.length - 1) _).mpr
      ⟨file, indexEntry_eq_some.mpr ⟨by omega, by omega, if_pos hfile⟩⟩
    rw [last_eq_some.mpr ⟨hrow, fun key range hkey => ?_⟩]
    · rfl
    · have := hbound key range hkey
      rcases lt_or_eq_of_le (show key ≤ txsBelow blocks blocks.length - 1 by omega) with
        hless | heq
      · exact .inr (Nat.compare_eq_lt.mpr hless)
      · exact .inl heq

/-- The files of a chain. -/
structure FilesHold (segment : StaticFileSegment) (size : ℕ) (blocks : List (List T))
    (s : StaticFiles T) : Prop where
  size_eq : s.blocksPerFile = size
  jar : ∀ file < lastFile size blocks + 1,
    s.jars[file * size]? = some (jarOf segment size blocks file)
  only : ∀ (key : ℕ) (jar : Jar T), s.jars[key]? = some jar →
    ∃ file < lastFile size blocks + 1, key = file * size

section

variable {s : StaticFiles T}

theorem FilesHold.ranges_eq (hsize : 0 < size) (h : FilesHold segment size blocks s) :
    s.ranges = (List.range (lastFile size blocks + 1)).filterMap (fun file =>
      (blockRangeOf size blocks file).map fun range => (range, txRangeOf size blocks file)) := by
  rw [StaticFiles.ranges, toList_files _ _ (jarOf segment size blocks) hsize h.jar h.only,
    filterMap_map]
  rfl

theorem FilesHold.maxBlock_eq (hsize : 0 < size) (h : FilesHold segment size blocks s)
    (hne : blocks ≠ []) : s.initializeIndex.maxBlock = some (blocks.length - 1) := by
  obtain ⟨hlt, hle⟩ := lastFile_bounds hsize hne
  show (s.ranges.map (·.1.stop)).max? = _
  rw [h.ranges_eq hsize, max?_eq_some_iff]
  constructor
  · refine mem_map.mpr ⟨_, mem_filterMap.mpr
      ⟨lastFile size blocks, mem_range.mpr (Nat.lt_succ_self _),
        by rw [blockRangeOf, if_pos hlt]; rfl⟩, ?_⟩
    rw [Nat.succ_mul, min_eq_left hle]
  · intro stop hstop
    obtain ⟨entry, hentry, rfl⟩ := mem_map.mp hstop
    obtain ⟨file, -, hrange⟩ := mem_filterMap.mp hentry
    rw [blockRangeOf] at hrange
    by_cases hin : file * size < blocks.length
    · rw [if_pos hin] at hrange
      cases hrange
      dsimp only
      omega
    · rw [if_neg hin] at hrange
      cases hrange

/-- `initialize_index` indexes the files. -/
theorem FilesHold.indexed (hsize : 0 < size) (h : FilesHold segment size blocks s)
    (hne : blocks ≠ []) : Indexed size blocks s.initializeIndex.txIndex := by
  obtain ⟨-, hle⟩ := lastFile_bounds hsize hne
  have hlist : StaticFiles.txIndexOf s.ranges =
      ((range (lastFile size blocks + 1)).filterMap (indexEntry size blocks)).foldl
        (fun index entry => index.insert entry.1 entry.2) ∅ := by
    rw [StaticFiles.txIndexOf, h.ranges_eq hsize, filterMap_filterMap]
    refine congrArg (foldl _ _) (filterMap_congr fun file _ => ?_)
    rw [Option.bind_map]
    rfl
  have hnodup :
      (((range (lastFile size blocks + 1)).filterMap (indexEntry size blocks)).map
        Prod.fst).Nodup := by
    rw [map_filterMap]
    refine Nodup.filterMap (fun file file' key hkey hkey' => ?_) nodup_range
    obtain ⟨⟨key, range⟩, hentry, rfl⟩ := Option.map_eq_some_iff.mp hkey
    obtain ⟨⟨key', range'⟩, hentry', rfl⟩ := Option.map_eq_some_iff.mp hkey'
    exact file_unique hentry hentry'
  intro key range
  show (StaticFiles.txIndexOf s.ranges)[key]? = some range ↔ _
  rw [hlist, get_foldl_insert _ _ hnodup, mem_filterMap]
  constructor
  · rintro (⟨file, -, hentry⟩ | ⟨-, hno⟩)
    · exact ⟨file, hentry⟩
    · exact absurd hno (by simp)
  · rintro ⟨file, hentry⟩
    refine .inl ⟨file, mem_range.mpr ?_, hentry⟩
    obtain ⟨-, -, hrange⟩ := indexEntry_eq_some.mp hentry
    by_contra hge
    have := Nat.mul_le_mul_right size (Nat.le_of_not_lt hge)
    rw [Nat.succ_mul] at this
    rw [blockRangeOf, if_neg (by omega)] at hrange
    cases hrange

end

theorem Indexed.updateIndex {s s' : StaticFiles T} {m : ℕ} (hsize : 0 < size)
    (hseg : segment.isTxBased = true) (hne : blocks ≠ [])
    (hrange : (s.fixedRange m).start = lastFile size blocks * size)
    (hjar : s.jars[lastFile size blocks * size]? =
      some (jarOf segment size blocks (lastFile size blocks)))
    (h : Indexed size blocks s.txIndex) (hupdate : s.updateIndex segment (some m) = some s') :
    Indexed size blocks s'.txIndex := by
  obtain ⟨hlt, hle⟩ := lastFile_bounds hsize hne
  generalize lastFile size blocks = lastFile at hrange hjar hlt hle
  -- the entries of the files before the last one
  have hretained : ∀ key range,
      (s.txIndex.filter fun _ range => decide (range.start < lastFile * size))[key]? = some range ↔
        ∃ file < lastFile, indexEntry size blocks file = some (key, range) := by
    intro key range
    rw [get_filter, h key range, decide_eq_true_iff]
    have hstart : ∀ {file}, indexEntry size blocks file = some (key, range) →
        range.start = file * size := by
      intro file hentry
      obtain ⟨-, -, hblocks⟩ := indexEntry_eq_some.mp hentry
      rw [blockRangeOf] at hblocks
      split at hblocks
      · cases hblocks
        rfl
      · cases hblocks
    constructor
    · rintro ⟨⟨file, hentry⟩, hbefore⟩
      rw [hstart hentry] at hbefore
      exact ⟨file, Nat.lt_of_mul_lt_mul_right hbefore, hentry⟩
    · rintro ⟨file, hfile, hentry⟩
      rw [hstart hentry]
      exact ⟨⟨file, hentry⟩, Nat.mul_lt_mul_of_pos_right hfile hsize⟩
  -- no file after it has an entry
  have hall : ∀ {file key} {range},
      indexEntry size blocks file = some (key, range) → file < lastFile ∨ file = lastFile := by
    intro file key range hentry
    obtain ⟨-, -, hblocks⟩ := indexEntry_eq_some.mp hentry
    rcases lt_trichotomy file lastFile with hfile | hfile | hfile
    · exact .inl hfile
    · exact .inr hfile
    · have := Nat.mul_le_mul_right size (Nat.succ_le_of_lt hfile)
      rw [Nat.succ_mul] at this
      rw [blockRangeOf, if_neg (by omega)] at hblocks
      cases hblocks
  obtain ⟨blockRange, hblock⟩ : ∃ range, blockRangeOf size blocks lastFile = some range :=
    ⟨_, if_pos hlt⟩
  rw [StaticFiles.updateIndex, hrange, hjar] at hupdate
  cases hupdate
  intro key range
  dsimp only [jarOf]
  rw [hblock]
  cases htx : txRangeOf size blocks lastFile with
  | none =>
    rw [if_pos hseg, hretained]
    refine ⟨.imp fun _ h => h.2, ?_⟩
    rintro ⟨file, hentry⟩
    rcases hall hentry with hfile | rfl
    · exact ⟨file, hfile, hentry⟩
    · rw [indexEntry, hblock, htx] at hentry
      cases hentry
  | some tx =>
    have hlast : indexEntry size blocks lastFile = some (tx.stop, blockRange) := by
      rw [indexEntry, hblock, htx]
      rfl
    rw [get_insert]
    by_cases hkey : tx.stop = key
    · subst hkey
      rw [if_pos rfl]
      constructor
      · rintro ⟨⟩
        exact ⟨lastFile, hlast⟩
      · rintro ⟨file, hentry⟩
        obtain rfl := file_unique hentry hlast
        cases hentry.symm.trans hlast
        rfl
    · rw [if_neg hkey, hretained]
      refine ⟨.imp fun _ h => h.2, ?_⟩
      rintro ⟨file, hentry⟩
      rcases hall hentry with hfile | rfl
      · exact ⟨file, hfile, hentry⟩
      · cases hentry.symm.trans hlast
        exact absurd rfl hkey

theorem Indexed.commitJar (hsize : 0 < size) (hseg : segment.isTxBased = true) (hne : blocks ≠ [])
    (h : Holds segment size blocks w) (hindexed : Indexed size blocks w.reader.txIndex)
    (hcommit : w.commitJar = some w') :
    Indexed size blocks w'.reader.txIndex := by
  rw [StaticFileProviderRW.commitJar] at hcommit
  split at hcommit
  · obtain ⟨hlt, hle⟩ := lastFile_bounds hsize hne
    rw [h.segmentMaxBlock_eq hsize, if_neg hne, h.segment_eq, h.expectedBlockStart_eq] at hcommit
    obtain ⟨reader, hupdate, heq⟩ := Option.bind_eq_some_iff.mp hcommit
    cases heq
    refine Indexed.updateIndex hsize hseg hne ?_ ?_ ?_ hupdate
    · show (findFixedRange (blocks.length - 1) w.reader.blocksPerFile).start = _
      rw [h.size_eq, findFixedRange_eq (lastFile size blocks) (by omega) (by omega)]
      rfl
    · show (w.reader.jars.insert _ _)[_]? = _
      rw [get_insert_self, h.jar]
    · exact hindexed
  · cases hcommit
    exact hindexed

/-- **OPENING** the last file of a chain. -/
theorem FilesHold.writer (hsize : 0 < size) (hseg : segment.isTxBased = true)
    (h : FilesHold segment size blocks s) (hne : blocks ≠ []) :
    ∃ w, s.initializeIndex.writer segment (blocks.length - 1) = some w ∧
      Holds segment size blocks w ∧ w.reader.maxBlock = some (blocks.length - 1) ∧
      Indexed size blocks w.reader.txIndex := by
  obtain ⟨hlt, hle⟩ := lastFile_bounds hsize hne
  have hmax := h.maxBlock_eq hsize hne
  have hlast := h.jar (lastFile size blocks) (Nat.lt_succ_self _)
  have hrange : s.initializeIndex.fixedRange (blocks.length - 1) =
      expectedRangeOf size (lastFile size blocks) := by
    show findFixedRange _ s.blocksPerFile = _
    rw [h.size_eq]
    exact findFixedRange_eq _ (by omega) (by omega)
  have hopen : s.initializeIndex.openJar segment (blocks.length - 1) =
      some (jarOf segment size blocks (lastFile size blocks), s.initializeIndex) :=
    openJar_load hrange hmax (show lastFile size blocks * size ≤ _ by omega) hlast
  have hholds : Holds segment size blocks
      ⟨s.initializeIndex, jarOf segment size blocks (lastFile size blocks), true, none⟩ := by
    refine ⟨h.size_eq, rfl, fun file hfile => h.jar file (Nat.lt_succ_of_lt hfile), ?_,
      fun key jar hjar => ?_, fun _ => ⟨_, hmax, by omega⟩,
      fun hno => absurd hno.symm false_ne_true, rfl⟩
    · show s.jars[lastFile size blocks * size]? ≠ none
      rw [hlast]
      nofun
    · obtain ⟨file, hfile, hkey⟩ := h.only key jar hjar
      exact ⟨file, Nat.le_of_lt_succ hfile, hkey⟩
  obtain ⟨w, hcommit, hw, hdirty⟩ := hholds.commitJar hsize
  refine ⟨w, ?_, hw, (hw.clean hdirty).2.trans (if_neg hne), ?_⟩
  · rw [writer_eq hopen, Holds.ensureEndRangeConsistency_eq hseg hholds, hcommit]
  · exact Indexed.commitJar hsize hseg hne hholds (h.indexed hsize hne) hcommit

/-! ## The check -/

/-- The body indices of a block. -/
def IndicesOf (blocks : List (List T)) (b : ℕ) (indices : StoredBlockBodyIndices) : Prop :=
  indices.firstTxNum = txsBelow blocks b ∧ indices.nextTxNum = txsBelow blocks (b + 1)

/-- **FILES AHEAD OF THE DATABASE**: the stage has committed fewer blocks than the files hold, the
    table of the segment is empty, and the body indices are right and there up to the checkpoint. -/
structure Ahead (segment : StaticFileSegment) (size : ℕ) (blocks : List (List T))
    (checkpoint : ℕ) (s : StaticFiles T) (db : Database T) : Prop where
  files : FilesHold segment size blocks s
  ahead : checkpoint + 1 < blocks.length
  stage : db.checkpoint.getD 0 = checkpoint
  present : ∀ b ≤ checkpoint, db.blockBodyIndices[b]? ≠ none
  right : ∀ b < blocks.length, ∀ indices : StoredBlockBodyIndices,
    db.blockBodyIndices[b]? = some indices → IndicesOf blocks b indices
  table : db.table = ∅

/-- No unwind, the transactions up to the checkpoint, and the checkpoint as the highest block. -/
def HealedTo (blocks : List (List T)) (checkpoint : ℕ)
    (result : Option (Option ℕ × StaticFiles T)) : Prop :=
  ∃ s', result = some (none, s') ∧ s'.rows = (blocks.take (checkpoint + 1)).flatten ∧
    s'.maxBlock = some checkpoint

/-- **THE CONDITION**: there is a transaction up to the checkpoint, or none at all, or the only
    one is in a later file. -/
def Healable (size : ℕ) (blocks : List (List T)) (checkpoint : ℕ) : Prop :=
  0 < txsBelow blocks (checkpoint + 1) ∨ txsBelow blocks blocks.length = 0 ∨
    txsBelow blocks blocks.length = 1 ∧ txsBelow blocks ((checkpoint / size + 1) * size) = 0

instance (size : ℕ) (blocks : List (List T)) (checkpoint : ℕ) :
    Decidable (Healable size blocks checkpoint) := inferInstanceAs (Decidable (_ ∨ _ ∨ _))

/-- The transactions that are kept: transaction 0 is, as it is not told from none. -/
def txsKept (blocks : List (List T)) (checkpoint : ℕ) : ℕ :=
  max (txsBelow blocks (checkpoint + 1)) (min 1 (txsBelow blocks blocks.length))

theorem IndicesOf.lastTxNum_eq (h : IndicesOf blocks b indices) :
    indices.lastTxNum = txsBelow blocks (b + 1) - 1 := by
  rw [← h.2]
  rfl

theorem healing_number (blocks : List (List T)) (checkpoint : ℕ) :
    txsBelow blocks blocks.length - 1 - (txsBelow blocks (checkpoint + 1) - 1) =
      txsBelow blocks blocks.length - txsKept blocks checkpoint := by
  have := txsBelow_le blocks (checkpoint + 1)
  rw [txsKept]
  omega

theorem tableCheck_empty (highestEntry highestBlock : Option ℕ) :
    tableCheck (∅ : ExtTreeMap ℕ T) highestEntry highestBlock = none := by
  have hnil : (∅ : ExtTreeMap ℕ T).toList = [] :=
    toList_eq_of_sorted Pairwise.nil fun key value => by simp
  rw [tableCheck, hnil]
  rfl

/-- The files are ahead of the checkpoint, so they are unwound to it. -/
theorem Ahead.ensureInvariants_eq (hseg : segment.isTxBased = true)
    (h : Ahead segment size blocks checkpoint s db) (hw : Holds segment size blocks w)
    (hentry : highestEntry.getD 0 = txsBelow blocks blocks.length - 1) :
    ensureInvariants w db highestEntry (some (blocks.length - 1)) =
      (w.unwind (txsBelow blocks blocks.length - txsKept blocks checkpoint) checkpoint).map
        (fun w' => (none, w')) := by
  have hahead := h.ahead
  obtain ⟨indices, hindices⟩ :=
    Option.ne_none_iff_exists'.mp (h.present checkpoint le_rfl)
  have hlast := (h.right checkpoint (by omega) indices hindices).lastTxNum_eq
  have hqueue : queueHealing w db (highestEntry.getD 0) (blocks.length - 1) checkpoint =
      w.queuePrune (txsBelow blocks blocks.length - txsKept blocks checkpoint)
        (some checkpoint) := by
    have hle := txsBelow_le blocks (checkpoint + 1)
    rw [queueHealing, hw.segment_eq, isHeaders_of_isTxBased hseg, if_neg Bool.false_ne_true,
      hindices]
    dsimp only
    rw [hlast, hentry, if_pos (by omega), healing_number]
  rw [ensureInvariants, h.table, tableCheck_empty, h.stage]
  dsimp only [Option.getD_some]
  rw [if_neg (by omega), if_pos (by omega), hqueue, StaticFileProviderRW.unwind]
  cases hprune : w.queuePrune (txsBelow blocks blocks.length - txsKept blocks checkpoint)
      (some checkpoint) with
  | none => rfl
  | some w1 =>
    show Option.bind w1.commit _ = (w1.commit).map _
    cases w1.commit with
    | none | some w' => rfl

/-- **THE CHECK** is an unwind to the checkpoint. -/
theorem Ahead.checkConsistency_eq (hsize : 0 < size) (hseg : segment.isTxBased = true)
    (hchecked : config.skips segment = false) (h : Ahead segment size blocks checkpoint s db) :
    ∃ w, Holds segment size blocks w ∧
      checkConsistency config segment s.initializeIndex db =
        (w.unwind (txsBelow blocks blocks.length - txsKept blocks checkpoint) checkpoint).map
          (fun w' => (none, w'.reader)) := by
  have hahead := h.ahead
  have hne : blocks ≠ [] := ne_nil_of_length_pos (by omega)
  obtain ⟨w, hwriter, hw, hmax, hindexed⟩ := h.files.writer hsize hseg hne
  have hmaxBlock := h.files.maxBlock_eq hsize hne
  have hhighest : w.reader.highestTx = _ := hindexed.highest hsize
  refine ⟨w, hw, ?_⟩
  -- no highest transaction counts as transaction 0
  have hentry : w.reader.highestTx.getD 0 = txsBelow blocks blocks.length - 1 := by
    rw [hhighest]
    by_cases hzero : txsBelow blocks blocks.length = 0
    · rw [if_pos hzero, hzero]
      rfl
    · rw [if_neg hzero]
      rfl
  have hloop : w.reader.highestTx.elim (some (blocks.length - 1), none) (fun highestTx =>
      lastBlockLoop db.blockBodyIndices highestTx (blocks.length - 1) (some (blocks.length - 1))
        none) = (some (blocks.length - 1), none) := by
    cases htx : w.reader.highestTx with
    | none => rfl
    | some highestTx =>
      rw [htx, Option.getD_some] at hentry
      -- nothing is missing of the last block
      show lastBlockLoop _ _ _ _ _ = _
      unfold lastBlockLoop
      cases hi : db.blockBodyIndices[blocks.length - 1]? with
      | none => rfl
      | some i =>
        refine if_pos ?_
        rw [(h.right _ (by omega) i hi).lastTxNum_eq, hentry]
        exact Nat.sub_le_sub_right (txsBelow_le blocks _) 1
  rw [checkConsistency, hchecked, if_neg Bool.false_ne_true, hmaxBlock]
  show Option.bind (s.initializeIndex.writer segment (blocks.length - 1)) _ = _
  rw [hwriter, Option.bind_some, hmax]
  dsimp only [Option.getD_some]
  rw [if_pos rfl, hloop]
  rw [isHeaders_of_isTxBased hseg, if_neg Bool.false_ne_true, h.ensureInvariants_eq hseg hw hentry]
  cases w.unwind (txsBelow blocks blocks.length - txsKept blocks checkpoint) checkpoint with
  | none | some w' => rfl

/-- **HEALING MATCHES THE CHECKPOINT** iff the segment is checked and the condition holds. -/
theorem healed_to_checkpoint_iff (config : CheckConfig) (segment : StaticFileSegment)
    (hseg : segment.isTxBased = true) (size : ℕ) (hsize : 0 < size) (blocks : List (List T))
    (checkpoint : ℕ) (s : StaticFiles T) (db : Database T)
    (h : Ahead segment size blocks checkpoint s db) :
    HealedTo blocks checkpoint (checkConsistency config segment s.initializeIndex db) ↔
      config.skips segment = false ∧ Healable size blocks checkpoint := by
  have hahead := h.ahead
  have hne : blocks ≠ [] := ne_nil_of_length_pos (by omega)
  cases hskips : config.skips segment with
  | true =>
    refine ⟨fun ⟨s', hresult, _, hmax⟩ => ?_, fun hno => absurd hno.1.symm false_ne_true⟩
    -- a segment that is not checked keeps its blocks
    rw [checkConsistency, hskips, if_pos rfl] at hresult
    cases hresult
    rw [h.files.maxBlock_eq hsize hne, Option.some.injEq] at hmax
    omega
  | false =>
    obtain ⟨w, hw, hcheck⟩ := h.checkConsistency_eq hsize hseg hskips
    have hfirst : txsBelow blocks (checkpoint / size * size) ≤ txsBelow blocks (checkpoint + 1) :=
      txsBelow_mono blocks (Nat.le_succ_of_le (Nat.div_mul_le_self checkpoint size))
    have hall := txsBelow_le blocks (checkpoint + 1)
    have hin : txsBelow blocks (checkpoint + 1) ≤
        txsBelow blocks ((checkpoint / size + 1) * size) :=
      txsBelow_mono blocks (Nat.succ_le_of_lt (Nat.lt_mul_of_div_lt (Nat.lt_succ_self _) hsize))
    obtain ⟨stop, w', hunwind, hmax, hrows, hnothing, hstop⟩ := hw.unwind_rows hsize hseg
      (show checkpoint < blocks.length by omega)
      (show txsBelow blocks (checkpoint / size * size) ≤ txsKept blocks checkpoint by
        rw [txsKept]; omega)
      (show txsKept blocks checkpoint ≤ txsBelow blocks blocks.length by rw [txsKept]; omega)
    rw [hunwind] at hcheck
    have hiff : min (txsKept blocks checkpoint) (txsBelow blocks ((stop + 1) * size)) =
        txsBelow blocks (checkpoint + 1) ↔ Healable size blocks checkpoint := by
      rw [Healable]
      rcases lt_or_ge (txsKept blocks checkpoint) (txsBelow blocks blocks.length) with
        hlt | hge
      · have := hstop hlt
        rw [txsKept] at hlt this ⊢
        omega
      · -- no row is pruned, so the writer goes back to the file of the checkpoint
        rw [txsKept] at hge hnothing ⊢
        rw [hnothing (by omega)]
        omega
    rw [← hiff]
    have hlength := length_flatten_take blocks blocks.length
    rw [take_length] at hlength
    constructor
    · rintro ⟨s', hresult, hrows', -⟩
      rw [hcheck] at hresult
      cases hresult
      have heq := congrArg length (hrows.symm.trans hrows')
      rw [length_take, hlength, length_flatten_take] at heq
      have := txsBelow_le blocks ((stop + 1) * size)
      exact ⟨rfl, by omega⟩
    · rintro ⟨-, heq⟩
      refine ⟨w'.reader, hcheck, ?_, hmax⟩
      rw [hrows, heq, txsBelow, take_flatten]

/-- The files of a chain, not indexed yet. -/
def filesOf (segment : StaticFileSegment) (size : ℕ) (blocks : List (List T)) : StaticFiles T :=
  ⟨size, ((List.range (lastFile size blocks + 1)).map (fun file =>
    (file * size, jarOf segment size blocks file))).foldl
      (fun jars entry => jars.insert entry.1 entry.2) ∅, none, ∅⟩

theorem filesHold_filesOf (segment : StaticFileSegment) (hsize : 0 < size)
    (blocks : List (List T)) : FilesHold segment size blocks (filesOf segment size blocks) := by
  have hnodup : (((range (lastFile size blocks + 1)).map (fun file =>
      (file * size, jarOf segment size blocks file))).map Prod.fst).Nodup := by
    rw [map_map]
    exact nodup_range.map fun _ _ heq => Nat.eq_of_mul_eq_mul_right hsize heq
  have hmem : ∀ key jar, (filesOf segment size blocks).jars[key]? = some jar ↔
      ∃ file < lastFile size blocks + 1, file * size = key ∧
        jarOf segment size blocks file = jar := by
    intro key jar
    rw [filesOf, get_foldl_insert _ _ hnodup]
    simp [mem_range]
  refine ⟨rfl, fun file hfile => (hmem _ _).mpr ⟨file, hfile, rfl, rfl⟩, fun key jar hjar => ?_⟩
  obtain ⟨file, hfile, hkey, -⟩ := (hmem key jar).mp hjar
  exact ⟨file, hfile, hkey.symm⟩

/-- A database with the body indices of block 0 only, and its stage at block 0. -/
private def sampleDatabase (txCount : ℕ) : Database ℕ :=
  ⟨∅, (∅ : ExtTreeMap ℕ StoredBlockBodyIndices).insert 0 ⟨0, txCount⟩, some 0⟩

private theorem ahead_sample {blocks : List (List ℕ)} (h : 1 < blocks.length) :
    Ahead .transactions 1 blocks 0 (filesOf .transactions 1 blocks)
      (sampleDatabase (txsBelow blocks 1)) := by
  refine ⟨filesHold_filesOf _ one_pos blocks, h, rfl, fun b hb => ?_, fun b _ i hi => ?_, rfl⟩
  · rw [Nat.le_zero.mp hb, sampleDatabase, get_insert_self]
    nofun
  · rw [sampleDatabase, get_insert] at hi
    split at hi
    · next hzero =>
      subst hzero
      cases hi
      exact ⟨rfl, zero_add _⟩
    · exact absurd hi (by simp)

/-- One transaction in each of two blocks, and a checkpoint at the first. -/
theorem healed_to_checkpoint_iff_two :
    Ahead .transactions 1 [[7], [8]] 0 (filesOf .transactions 1 [[7], [8]])
        (sampleDatabase (txsBelow [[7], [8]] 1)) ∧
      HealedTo [[7], [8]] 0 (checkConsistency ⟨false, false, false⟩ .transactions
        (filesOf .transactions 1 [[7], [8]]).initializeIndex
        (sampleDatabase (txsBelow [[7], [8]] 1))) :=
  ⟨ahead_sample (by decide),
    (healed_to_checkpoint_iff ⟨false, false, false⟩ .transactions rfl 1 one_pos [[7], [8]] 0 _ _
      (ahead_sample (by decide))).mpr ⟨rfl, by decide⟩⟩

/-- **TRANSACTION 0 STAYS**: block 0 is empty and two transactions follow; the highest number is 1
    and the last of the checkpoint counts as 0, so one row is pruned. -/
theorem transaction_zero_not_pruned :
    Ahead .transactions 1 [[], [7], [8]] 0 (filesOf .transactions 1 [[], [7], [8]])
        (sampleDatabase (txsBelow [[], [7], [8]] 1)) ∧
      (checkConsistency ⟨false, false, false⟩ .transactions
        (filesOf .transactions 1 [[], [7], [8]]).initializeIndex
        (sampleDatabase (txsBelow [[], [7], [8]] 1))).any
          (fun result => decide (result.1 = none ∧ result.2.rows = [7])) = true ∧
      ¬ HealedTo [[], [7], [8]] 0 (checkConsistency ⟨false, false, false⟩ .transactions
        (filesOf .transactions 1 [[], [7], [8]]).initializeIndex
        (sampleDatabase (txsBelow [[], [7], [8]] 1))) := by
  have hany : (checkConsistency ⟨false, false, false⟩ .transactions
      (filesOf .transactions 1 [[], [7], [8]]).initializeIndex
      (sampleDatabase (txsBelow [[], [7], [8]] 1))).any
        (fun result => decide (result.1 = none ∧ result.2.rows = [7])) = true := by
    decide +kernel
  refine ⟨ahead_sample (by decide), hany, ?_⟩
  rintro ⟨s', hresult, hrows, -⟩
  rw [hresult] at hany
  have hseven := (of_decide_eq_true hany).2
  rw [hrows] at hseven
  exact absurd hseven (by decide)

end StaticFile

import Pasifika.ExEx.Notification
import Pasifika.OrderedMap.Table
import Pasifika.Runs

/-! # The write-ahead log of execution extensions

The log keeps every notification in a file of its own, and numbers the files. Finalizing
it up to a block removes the files whose highest block is not above it. A cache has the
highest block of every file, and the file of every committed block; it is rebuilt from the
files when the log is opened. -/

namespace ExEx

open OrderedMap List Runs
open Std

/-! ## The block cache -/

structure CachedBlock where
  block : BlockNumHash
  parentHash : ℕ
  deriving DecidableEq

/-- `BlockCache`. The heap of highest blocks and file numbers is the sorted list of its entries. -/
structure BlockCache where
  notificationMaxBlocks : List (ℕ × ℕ)
  committedBlocks : ExtTreeMap ℕ (ℕ × CachedBlock)

namespace BlockCache

/-- The order of the heap. -/
def before (a b : ℕ × ℕ) : Prop := a.1 < b.1 ∨ a.1 = b.1 ∧ a.2 ≤ b.2

instance (a b : ℕ × ℕ) : Decidable (before a b) := inferInstanceAs (Decidable (_ ∨ _))

/-- The entries up to a block number are taken out of the heap; these, and what is left. -/
def popBefore (blockNumber : ℕ) : List (ℕ × ℕ) → List ℕ × List (ℕ × ℕ)
  | [] => ([], [])
  | (maxBlock, fileId) :: rest =>
    if maxBlock ≤ blockNumber then
      (fileId :: (popBefore blockNumber rest).1, (popBefore blockNumber rest).2)
    else ([], (maxBlock, fileId) :: rest)

def removeBefore (c : BlockCache) (blockNumber : ℕ) : List ℕ × BlockCache :=
  let (fileIds, rest) := popBefore blockNumber c.notificationMaxBlocks
  (fileIds, {
    notificationMaxBlocks := rest
    committedBlocks := c.committedBlocks.filter (fun _ entry => decide (entry.1 ∉ fileIds)) })

end BlockCache

/-- The highest block of a notification. -/
def Notification.maxBlock (n : Notification) : Option ℕ :=
  ((n.revertedChain.toList ++ n.committedChain.toList).map (·.tip.number)).max?

/-- The cached blocks of a notification. -/
def Notification.cachedBlocks (fileId : ℕ) (n : Notification) : List (ℕ × ℕ × CachedBlock) :=
  n.committedBlocks.map (fun b => (b.hash, fileId, ⟨b.numHash, b.parentHash⟩))

def BlockCache.insertNotificationBlocksWithFileId (c : BlockCache) (fileId : ℕ)
    (n : Notification) : BlockCache where
  notificationMaxBlocks :=
    match n.maxBlock with
    | some maxBlock => c.notificationMaxBlocks.orderedInsert before (maxBlock, fileId)
    | none => c.notificationMaxBlocks
  committedBlocks := bindAll c.committedBlocks (n.cachedBlocks fileId)

/-! ## The log -/

/-- The files of the log by number. -/
abbrev Files := ExtTreeMap ℕ Notification

namespace Files

/-- `files_range`: the lowest and the highest number. -/
def filesRange (files : Files) : Option (ℕ × ℕ) := do
  let min ← files.toList.head?
  let max ← files.toList.getLast?
  some (min.1, max.1)

/-- `iter_notifications`, read to the end; `none` for a file that is not found. -/
def iterNotifications (files : Files) (range : ℕ × ℕ) : Option (List (ℕ × Notification)) :=
  (List.range' range.1 (range.2 + 1 - range.1)).mapM (fun id =>
    files[id]?.map (fun n => (id, n)))

def removeNotifications (files : Files) (fileIds : List ℕ) : Files :=
  fileIds.foldl ExtTreeMap.erase files

end Files

/-- `WalInner`: file numbers are 32 bits wide. -/
structure Wal where
  nextFileId : ℕ
  files : Files
  cache : BlockCache

/-- The number after a file number. -/
def succFileId (fileId : ℕ) : ℕ := (fileId + 1) % 2 ^ 32

namespace Wal

/-- `new` for a directory, with `fill_block_cache`. -/
def new (files : Files) : Option Wal :=
  match files.filesRange with
  | none => some ⟨0, files, ⟨[], ∅⟩⟩
  | some range => do
      let entries ← files.iterNotifications range
      some {
        nextFileId := succFileId range.2
        files
        cache := entries.foldl (fun c entry =>
          c.insertNotificationBlocksWithFileId entry.1 entry.2) ⟨[], ∅⟩ }

def commit (w : Wal) (n : Notification) : Wal where
  nextFileId := succFileId w.nextFileId
  files := w.files.insert w.nextFileId n
  cache := w.cache.insertNotificationBlocksWithFileId w.nextFileId n

def finalize (w : Wal) (toBlock : ℕ) : Wal :=
  let (fileIds, cache) := w.cache.removeBefore toBlock
  { w with files := w.files.removeNotifications fileIds, cache }

/-- `iter_notifications`, read to the end. -/
def iterNotifications (w : Wal) : Option (List Notification) :=
  match w.files.filesRange with
  | none => some []
  | some range => (w.files.iterNotifications range).map (·.map Prod.snd)

end Wal

/-! ## Runs -/

/-- What happens to a log. -/
inductive WalOp
  | commit (n : Notification)
  | finalize (toBlock : ℕ)
  deriving DecidableEq

/-- A notification is finalized with a block. -/
def Notification.finalizedBy (toBlock : ℕ) (n : Notification) : Bool :=
  n.maxBlock.any (fun maxBlock => decide (maxBlock ≤ toBlock))

/-- A log, with all notifications committed to it, and those that no finalization removed. -/
structure Journal where
  wal : Wal
  sent : List Notification
  kept : List Notification

namespace Journal

/-- An empty log. -/
def empty : Journal := ⟨⟨0, ∅, ⟨[], ∅⟩⟩, [], []⟩

def step (j : Journal) : WalOp → Journal
  | .commit n => ⟨j.wal.commit n, j.sent ++ [n], j.kept ++ [n]⟩
  | .finalize toBlock =>
    ⟨j.wal.finalize toBlock, j.sent, j.kept.filter (fun n => !n.finalizedBy toBlock)⟩

/-- The notifications are a history of a chain. -/
def valid (chain : List Block) (j : Journal) : WalOp → Bool
  | .commit n => (replay chain (j.sent ++ [n])).isSome
  | .finalize _ => true

/-- A file number is left for a commit, and a finalization removes files with the lowest numbers. -/
def lowestFirst (j : Journal) : WalOp → Bool
  | .commit _ => decide (j.wal.nextFileId + 1 < 2 ^ 32)
  | .finalize toBlock => decide (j.wal.files.toList.Pairwise (fun a b =>
    b.2.finalizedBy toBlock = true → a.2.finalizedBy toBlock = true))

/-- **THE LOG IS READABLE**: it gives what was kept, in order, and opening it builds the files of
    the cache. -/
def Readable (j : Journal) : Prop :=
  j.wal.iterNotifications = some j.kept ∧
  ∃ w, Wal.new j.wal.files = some w ∧ ∀ hash : ℕ,
    w.cache.committedBlocks[hash]?.map Prod.fst = j.wal.cache.committedBlocks[hash]?.map Prod.fst

end Journal

/-! ## The files -/

/-- Notifications in files with consecutive numbers. -/
def filesFrom (first : ℕ) : List Notification → List (ℕ × Notification)
  | [] => []
  | n :: rest => (first, n) :: filesFrom (first + 1) rest

theorem filesFrom_append (l l' : List Notification) (first : ℕ) :
    filesFrom first (l ++ l') = filesFrom first l ++ filesFrom (first + l.length) l' := by
  induction l generalizing first with
  | nil => rfl
  | cons n l ih =>
    show (first, n) :: filesFrom (first + 1) (l ++ l') = _
    rw [ih, length_cons, show first + 1 + l.length = first + (l.length + 1) by omega]
    rfl

@[simp] theorem map_snd_filesFrom (l : List Notification) (first : ℕ) :
    (filesFrom first l).map Prod.snd = l := by
  induction l generalizing first with
  | nil => rfl
  | cons n l ih => exact congrArg (n :: ·) (ih (first + 1))

theorem map_fst_filesFrom (l : List Notification) (first : ℕ) :
    (filesFrom first l).map Prod.fst = List.range' first l.length := by
  induction l generalizing first with
  | nil => rfl
  | cons n l ih => exact congrArg (first :: ·) (ih (first + 1))

variable {l : List Notification}

theorem filesFrom_bounds (he : e ∈ filesFrom first l) : first ≤ e.1 ∧ e.1 < first + l.length := by
  have hmem := mem_map_of_mem (f := Prod.fst) he
  rw [map_fst_filesFrom, mem_range'_1] at hmem
  exact hmem

theorem iterNotifications_eq {files : Files} {first : ℕ} (h : files.toList = filesFrom first l) :
    (l = [] ∧ files.filesRange = none) ∨
    (l ≠ [] ∧ files.filesRange = some (first, first + l.length - 1) ∧
      files.iterNotifications (first, first + l.length - 1) = some (filesFrom first l)) := by
  rcases eq_nil_or_concat' l with rfl | ⟨l, n, rfl⟩
  · refine .inl ⟨rfl, ?_⟩
    rw [Files.filesRange, h]
    rfl
  · refine .inr ⟨by simp, ?_, ?_⟩
    · have hhead : ∃ n', (filesFrom first (l ++ [n])).head? = some (first, n') := by
        cases l with
        | nil => exact ⟨n, rfl⟩
        | cons n' l => exact ⟨n', rfl⟩
      obtain ⟨n', hhead⟩ := hhead
      have hlast : (filesFrom first (l ++ [n])).getLast? = some (first + l.length, n) := by
        rw [filesFrom_append]
        exact getLast?_concat
      rw [Files.filesRange, h, hhead, hlast]
      simp
    · have hids : range' first (first + (l ++ [n]).length - 1 + 1 - first) =
          (filesFrom first (l ++ [n])).map Prod.fst := by
        rw [map_fst_filesFrom]
        congr 1
        simp only [length_append, length_singleton]
        omega
      rw [Files.iterNotifications, hids]
      exact mapM_get fun e he => mem_toList.mp (by rw [h]; exact he)

/-! ## The cache -/

namespace BlockCache

/-- The heap of files. -/
def maxBlocks (entries : List (ℕ × Notification)) : List (ℕ × ℕ) :=
  entries.filterMap (fun e => e.2.maxBlock.map (fun maxBlock => (maxBlock, e.1)))

/-- The cached blocks of files, in the order of the files. -/
def cachedBlocks (entries : List (ℕ × Notification)) : List (ℕ × ℕ × CachedBlock) :=
  entries.flatMap (fun e => e.2.cachedBlocks e.1)

/-- **THE CACHE OF FILES**: a heap with the highest block of each, and the last file of each
    committed block. -/
structure Holds (c : BlockCache) (entries : List (ℕ × Notification)) : Prop where
  sorted : c.notificationMaxBlocks.Pairwise before
  heap : c.notificationMaxBlocks.Perm (maxBlocks entries)
  committedBlocks : c.committedBlocks = bindAll ∅ (cachedBlocks entries)

instance : Std.Total before := ⟨fun a b => by unfold before; omega⟩

instance : IsTrans (ℕ × ℕ) before := ⟨fun a b c => by unfold before; omega⟩

variable {c : BlockCache}

theorem Holds.insert (h : c.Holds entries) (fileId : ℕ) (n : Notification) :
    (c.insertNotificationBlocksWithFileId fileId n).Holds (entries ++ [(fileId, n)]) := by
  have hblocks : bindAll c.committedBlocks (n.cachedBlocks fileId) =
      bindAll ∅ (cachedBlocks (entries ++ [(fileId, n)])) := by
    rw [cachedBlocks, flatMap_append, bindAll_append, h.committedBlocks]
    simp [cachedBlocks]
  have hmax : maxBlocks (entries ++ [(fileId, n)]) =
      maxBlocks entries ++ (n.maxBlock.map fun maxBlock => (maxBlock, fileId)).toList := by
    rw [maxBlocks, filterMap_append]
    cases hn : n.maxBlock with
    | none | some maxBlock => simp [maxBlocks, hn]
  cases hn : n.maxBlock with
  | none =>
    refine ⟨?_, ?_, hblocks⟩
    · simpa [insertNotificationBlocksWithFileId, hn] using h.sorted
    · rw [hmax, hn]
      simpa [insertNotificationBlocksWithFileId, hn] using h.heap
  | some maxBlock =>
    refine ⟨?_, ?_, hblocks⟩
    · simp only [insertNotificationBlocksWithFileId, hn]
      exact h.sorted.orderedInsert _ _
    · rw [hmax, hn]
      simp only [insertNotificationBlocksWithFileId, hn]
      refine (perm_orderedInsert _ _ _).trans ?_
      exact (h.heap.cons _).trans (perm_append_singleton _ _).symm

theorem holds_foldl (l : List (ℕ × Notification)) :
    ∀ {entries : List (ℕ × Notification)} {c : BlockCache}, c.Holds entries →
      (l.foldl (fun c e => c.insertNotificationBlocksWithFileId e.1 e.2) c).Holds (entries ++ l)
      := by
  induction l with
  | nil =>
    intro entries c h
    rwa [append_nil]
  | cons e l ih =>
    intro entries c h
    have hrest := ih (h.insert e.1 e.2)
    rwa [append_assoc] at hrest

theorem popBefore_eq (blockNumber : ℕ) {l : List (ℕ × ℕ)} (h : l.Pairwise before) :
    popBefore blockNumber l = ((l.filter fun e => decide (e.1 ≤ blockNumber)).map Prod.snd,
      l.filter fun e => decide (blockNumber < e.1)) := by
  induction l with
  | nil => exact rfl
  | cons e l ih =>
    obtain ⟨hle, hrest⟩ := pairwise_cons.mp h
    rw [popBefore]
    by_cases he : e.1 ≤ blockNumber
    · rw [if_pos he, ih hrest]
      simp [he, Nat.not_lt.mpr he]
    -- all entries after this one are above the number as well
    have habove : ∀ e' ∈ l, blockNumber < e'.1 := by
      intro e' he'
      rcases hle e' he' with hlt | ⟨heq, -⟩ <;> omega
    rw [if_neg he, filter_eq_nil_iff.mpr, filter_eq_self.mpr]
    · rfl
    · intro e' he'
      rcases mem_cons.mp he' with rfl | he'
      · simpa using he
      · simpa using habove e' he'
    · intro e' he'
      rcases mem_cons.mp he' with rfl | he'
      · simpa using he
      · simpa using habove e' he'

theorem Holds.mem_popBefore {entries : List (ℕ × Notification)} (h : c.Holds entries)
    (toBlock fileId : ℕ) :
    fileId ∈ (popBefore toBlock c.notificationMaxBlocks).1 ↔
      ∃ n, (fileId, n) ∈ entries ∧ n.finalizedBy toBlock = true := by
  rw [popBefore_eq toBlock h.sorted]
  constructor
  · intro hmem
    obtain ⟨e, he, rfl⟩ := mem_map.mp hmem
    obtain ⟨he, hle⟩ := mem_filter.mp he
    obtain ⟨⟨id, n⟩, hn, heq⟩ := mem_filterMap.mp (h.heap.mem_iff.mp he)
    obtain ⟨maxBlock, hmax, rfl⟩ := Option.map_eq_some_iff.mp heq
    refine ⟨n, hn, ?_⟩
    rw [Notification.finalizedBy, hmax]
    exact hle
  · rintro ⟨n, hn, hfinal⟩
    rw [Notification.finalizedBy] at hfinal
    obtain ⟨maxBlock, hmax, hle⟩ := (Option.any_eq_true _ _).mp hfinal
    refine mem_map.mpr ⟨(maxBlock, fileId), mem_filter.mpr ⟨?_, hle⟩, rfl⟩
    exact h.heap.mem_iff.mpr (mem_filterMap.mpr ⟨(fileId, n), hn, by rw [hmax]; rfl⟩)

/-- **FINALIZING** the first files leaves the cache of the others. -/
theorem Holds.removeBefore (h : c.Holds (filesFrom first (l ++ l')))
    (hl : ∀ n ∈ l, n.finalizedBy toBlock = true) (hl' : ∀ n ∈ l', n.finalizedBy toBlock = false) :
    (c.removeBefore toBlock).2.Holds (filesFrom (first + l.length) l') ∧ ∀ fileId,
      fileId ∈ (c.removeBefore toBlock).1 ↔ first ≤ fileId ∧ fileId < first + l.length := by
  have hids : ∀ fileId, fileId ∈ (popBefore toBlock c.notificationMaxBlocks).1 ↔
      fileId ∈ (filesFrom first l).map Prod.fst := by
    intro fileId
    rw [h.mem_popBefore, filesFrom_append]
    constructor
    · rintro ⟨n, hn, hfinal⟩
      rcases mem_append.mp hn with hn | hn
      · exact mem_map.mpr ⟨_, hn, rfl⟩
      · have hmem : n ∈ l' := by
          rw [← map_snd_filesFrom l' (first + l.length)]
          exact mem_map.mpr ⟨_, hn, rfl⟩
        exact absurd hfinal (by simp [hl' n hmem])
    · intro hmem
      obtain ⟨⟨id, n⟩, hn, rfl⟩ := mem_map.mp hmem
      refine ⟨n, mem_append_left _ hn, hl n ?_⟩
      rw [← map_snd_filesFrom l first]
      exact mem_map.mpr ⟨_, hn, rfl⟩
  refine ⟨⟨?_, ?_, ?_⟩, fun fileId => (hids fileId).trans ?_⟩
  · show (popBefore toBlock c.notificationMaxBlocks).2.Pairwise before
    rw [popBefore_eq toBlock h.sorted]
    exact h.sorted.filter _
  · show (popBefore toBlock c.notificationMaxBlocks).2.Perm _
    rw [popBefore_eq toBlock h.sorted]
    refine (h.heap.filter _).trans (Perm.of_eq ?_)
    -- nothing of the first files is left in the heap, and all of the others
    rw [filesFrom_append, maxBlocks, filterMap_append, filter_append,
      filter_eq_nil_iff.mpr, filter_eq_self.mpr, nil_append]
    · rfl
    · intro e he
      obtain ⟨⟨id, n⟩, hn, heq⟩ := mem_filterMap.mp he
      obtain ⟨maxBlock, hmax, rfl⟩ := Option.map_eq_some_iff.mp heq
      have hfinal := hl' n (by
        rw [← map_snd_filesFrom l' (first + l.length)]
        exact mem_map.mpr ⟨_, hn, rfl⟩)
      rw [Notification.finalizedBy, hmax] at hfinal
      simpa using hfinal
    · intro e he
      obtain ⟨⟨id, n⟩, hn, heq⟩ := mem_filterMap.mp he
      obtain ⟨maxBlock, hmax, rfl⟩ := Option.map_eq_some_iff.mp heq
      have hfinal := hl n (by
        rw [← map_snd_filesFrom l first]
        exact mem_map.mpr ⟨_, hn, rfl⟩)
      rw [Notification.finalizedBy, hmax] at hfinal
      simpa using hfinal
  · show c.committedBlocks.filter (fun _ entry => decide (entry.1 ∉
      (popBefore toBlock c.notificationMaxBlocks).1)) = _
    rw [h.committedBlocks, filesFrom_append, cachedBlocks, flatMap_append]
    refine filter_bindAll ?_ ?_
    · intro e he
      obtain ⟨f, hf, he⟩ := mem_flatMap.mp he
      obtain ⟨b, -, rfl⟩ := mem_map.mp he
      simpa [hids] using ⟨f.2, hf⟩
    · intro e he
      obtain ⟨f, hf, he⟩ := mem_flatMap.mp he
      obtain ⟨b, -, rfl⟩ := mem_map.mp he
      have hge := (filesFrom_bounds hf).1
      rw [decide_eq_true_iff, hids, map_fst_filesFrom, mem_range'_1]
      show ¬(first ≤ f.1 ∧ f.1 < _)
      omega
  · rw [map_fst_filesFrom, mem_range'_1]

end BlockCache

/-! ## The log over whole runs -/

namespace Journal

/-- **WHAT A LOG KEEPS**: files with consecutive numbers, and their cache. -/
structure Inv (j : Journal) (first : ℕ) : Prop where
  files : j.wal.files.toList = filesFrom first j.kept
  cache : j.wal.cache.Holds (filesFrom first j.kept)
  next : j.wal.nextFileId = first + j.kept.length

/-- A list that is split by a property, all with the property first. -/
theorem exists_split {α : Type} (p : α → Bool) {l : List α}
    (h : l.Pairwise fun a b => p b = true → p a = true) :
    ∃ l1 l2, l = l1 ++ l2 ∧ (∀ a ∈ l1, p a = true) ∧ ∀ a ∈ l2, p a = false := by
  induction l with
  | nil => exact ⟨[], [], rfl, by simp, by simp⟩
  | cons a l ih =>
    obtain ⟨ha, hl⟩ := pairwise_cons.mp h
    obtain ⟨l1, l2, rfl, h1, h2⟩ := ih hl
    by_cases hp : p a = true
    · refine ⟨a :: l1, l2, rfl, ?_, h2⟩
      simpa [hp] using h1
    · refine ⟨[], a :: (l1 ++ l2), rfl, by simp, fun b hb => ?_⟩
      rcases mem_cons.mp hb with rfl | hb
      · exact Bool.eq_false_iff.mpr hp
      · exact Bool.eq_false_iff.mpr fun hpb => hp (ha b hb hpb)

variable {first : ℕ} {j : Journal}

theorem Inv.commit (h : Inv j first) (hroom : j.wal.nextFileId + 1 < 2 ^ 32) :
    Inv (j.step (.commit n)) first where
  files := by
    show (j.wal.files.insert j.wal.nextFileId n).toList = filesFrom first (j.kept ++ [n])
    rw [toList_insert_last, h.files, filesFrom_append, h.next]
    · rfl
    · intro id n' hget
      have hmem := mem_toList.mpr hget
      rw [h.files] at hmem
      rw [h.next]
      exact Nat.compare_eq_lt.mpr (filesFrom_bounds hmem).2
  cache := by
    have hinsert := h.cache.insert j.wal.nextFileId n
    rw [h.next] at hinsert
    show (j.wal.cache.insertNotificationBlocksWithFileId j.wal.nextFileId n).Holds
      (filesFrom first (j.kept ++ [n]))
    rw [filesFrom_append, h.next]
    exact hinsert
  next := by
    show succFileId j.wal.nextFileId = first + (j.kept ++ [n]).length
    rw [succFileId, Nat.mod_eq_of_lt hroom, h.next, length_append, length_singleton]
    rfl

theorem Inv.finalize (h : Inv j first) (hlowest : j.lowestFirst (.finalize toBlock) = true) :
    ∃ first', Inv (j.step (.finalize toBlock)) first' := by
  have hpairwise := of_decide_eq_true hlowest
  rw [h.files] at hpairwise
  obtain ⟨l1, l2, hkept, h1, h2⟩ : ∃ l1 l2, j.kept = l1 ++ l2 ∧
      (∀ n ∈ l1, n.finalizedBy toBlock = true) ∧ ∀ n ∈ l2, n.finalizedBy toBlock = false := by
    refine exists_split (Notification.finalizedBy toBlock) ?_
    have hmap := pairwise_map (f := Prod.snd) (R := fun a b : Notification =>
      b.finalizedBy toBlock = true → a.finalizedBy toBlock = true) |>.mpr hpairwise
    rwa [map_snd_filesFrom] at hmap
  have hfilter : j.kept.filter (!·.finalizedBy toBlock) = l2 := by
    rw [hkept, filter_append, filter_eq_nil_iff.mpr fun n hn => by simp [h1 n hn],
      filter_eq_self.mpr fun n hn => by simp [h2 n hn], nil_append]
  have hfiles := h.files
  have hcache := h.cache
  rw [hkept] at hfiles hcache
  obtain ⟨hholds, hids⟩ := hcache.removeBefore h1 h2
  refine ⟨first + l1.length, ?_, ?_, ?_⟩
  · show (j.wal.files.removeNotifications (j.wal.cache.removeBefore toBlock).1).toList =
      filesFrom _ (j.kept.filter _)
    rw [hfilter, Files.removeNotifications, toList_foldl_erase, hfiles, filesFrom_append,
      filter_append, filter_eq_nil_iff.mpr, filter_eq_self.mpr, nil_append]
    · intro e he
      have hbounds := filesFrom_bounds he
      rw [decide_eq_true_iff, hids]
      omega
    · intro e he
      rw [decide_eq_true_iff, hids, not_not]
      exact filesFrom_bounds he
  · show (j.wal.cache.removeBefore toBlock).2.Holds (filesFrom _ (j.kept.filter _))
    rwa [hfilter]
  · show j.wal.nextFileId = _ + (j.kept.filter _).length
    rw [hfilter, h.next, hkept, length_append]
    omega

theorem Inv.readable (h : Inv j first) : j.Readable := by
  rcases iterNotifications_eq h.files with ⟨hnil, hrange⟩ | ⟨-, hrange, hiter⟩
  · refine ⟨?_, ?_⟩
    · rw [Wal.iterNotifications, hrange, hnil]
    · rw [Wal.new, hrange]
      refine ⟨_, rfl, fun hash => ?_⟩
      rw [h.cache.committedBlocks, hnil]
      rfl
  · refine ⟨?_, ?_⟩
    · rw [Wal.iterNotifications, hrange]
      show (j.wal.files.iterNotifications _).map _ = _
      rw [hiter, Option.map_some, map_snd_filesFrom]
    · rw [Wal.new, hrange]
      show ∃ w, (j.wal.files.iterNotifications _).bind _ = some w ∧ _
      rw [hiter]
      refine ⟨_, rfl, fun hash => ?_⟩
      have hempty : BlockCache.Holds ⟨[], ∅⟩ [] := ⟨Pairwise.nil, Perm.refl _, rfl⟩
      have hfill := BlockCache.holds_foldl (filesFrom first j.kept) hempty
      rw [nil_append] at hfill
      rw [hfill.committedBlocks, h.cache.committedBlocks]

/-- **THE LOG CAN BE READ AND OPENED** in every run in which a number is left for every commit and
    every finalization removes the files with the lowest numbers. -/
theorem log_readable (chain : List Block) {j : Journal}
    (hreached : Runs.ReachedBy (fun j op j' => j' = step j op)
      (fun j op => j.valid chain op = true ∧ j.lowestFirst op = true) empty j) :
    j.Readable := by
  have hinv : ∃ first, Inv j first := by
    refine ReachedBy.invariant (I := fun j => ∃ first, Inv j first) ⟨0,
      toList_eq_of_sorted .nil (by simp [empty, filesFrom]), ⟨.nil, .refl _, rfl⟩, rfl⟩ ?_ hreached
    rintro j op j' _ ⟨first, ih⟩ ⟨-, hlowest⟩ rfl
    cases op with
    | commit n => exact ⟨first, ih.commit (of_decide_eq_true hlowest)⟩
    | finalize toBlock => exact ih.finalize hlowest
  obtain ⟨first, hinv⟩ := hinv
  exact hinv.readable

/-- Two blocks are committed and reverted, and another block is committed in the place of the
    first one. -/
def sampleOps : List WalOp :=
  [.commit (.chainCommitted sampleChain), .commit (.chainReverted sampleChain),
    .commit (.chainCommitted sampleFork)]

theorem log_readable_sample :
    ∃ j, Runs.ReachedBy (fun j op j' => j' = step j op)
      (fun j op => j.valid [⟨0, 0, 0⟩] op = true ∧ j.lowestFirst op = true) empty j ∧
      j.kept.length = 1 ∧ j.Readable := by
  obtain ⟨j, hreached, hcheck⟩ := exists_of_next (fun j op => some (step j op))
    (fun j op => j.valid [⟨0, 0, 0⟩] op && j.lowestFirst op)
    (sampleOps ++ [.commit (.chainCommitted ⟨[⟨2, 4, 3⟩, ⟨3, 5, 4⟩], cons_ne_nil _ _⟩), .finalize 2])
    empty (fun j => j.kept.length == 1) (by decide +kernel)
  simp only [Bool.and_eq_true, Option.some.injEq, @eq_comm _ (step _ _)] at hreached
  exact ⟨j, hreached, by simpa using hcheck, log_readable [⟨0, 0, 0⟩] hreached⟩

/-- **A FILE IS MISSING**: finalizing block 1 removes the third file and keeps the two before it;
    after another commit the log can neither be read nor opened. -/
theorem log_with_a_gap :
    ∃ j, Runs.ReachedBy (fun j op j' => j' = step j op)
      (fun j op => j.valid [⟨0, 0, 0⟩] op = true) empty j ∧
      j.wal.iterNotifications = none ∧ (Wal.new j.wal.files).isNone = true := by
  obtain ⟨j, hreached, hcheck⟩ := exists_of_next (fun j op => some (step j op)) (valid [⟨0, 0, 0⟩])
    (sampleOps ++ [.finalize 1, .commit (.chainCommitted ⟨[⟨2, 4, 3⟩], cons_ne_nil _ _⟩)]) empty
    (fun j => j.wal.iterNotifications == none && (Wal.new j.wal.files).isNone) (by decide +kernel)
  simp only [Bool.and_eq_true, beq_iff_eq] at hcheck
  simp only [Option.some.injEq, @eq_comm _ (step _ _)] at hreached
  exact ⟨j, hreached, hcheck.1, hcheck.2⟩

end Journal

end ExEx

import Pasifika.Layout
import Pasifika.OrderedMap.Table
import Pasifika.Runs

/-! # Block bodies in the database

Transactions are numbered across blocks. `BlockBodyIndices` stores for each block
its first transaction number and its number of transactions; `TransactionBlocks`
maps the last transaction number of each block that has transactions to the block.
A block is appended by `insert_block` or `append_blocks_with_state` and all blocks
above one are removed by `remove_blocks_above`; `Represents` says which blocks the
tables hold. -/

namespace Storage

open Std OrderedMap Layout List Option Nat

structure StoredBlockBodyIndices where
  firstTxNum : ℕ
  txCount : ℕ
  deriving DecidableEq

namespace StoredBlockBodyIndices

/-- `last_tx_num`; the subtraction saturates. -/
def lastTxNum (indices : StoredBlockBodyIndices) : ℕ := indices.firstTxNum + indices.txCount - 1

def nextTxNum (indices : StoredBlockBodyIndices) : ℕ := indices.firstTxNum + indices.txCount

/-- Whether a block has the transaction with a number. -/
def Contains (indices : StoredBlockBodyIndices) (t : ℕ) : Prop :=
  indices.firstTxNum ≤ t ∧ t < indices.nextTxNum

instance (indices : StoredBlockBodyIndices) (t : ℕ) : Decidable (indices.Contains t) :=
  inferInstanceAs (Decidable (_ ∧ _))

end StoredBlockBodyIndices

/-- `RecoveredBlock`: a block with the senders of its transactions. -/
structure RecoveredBlock (T A : Type) where
  number : ℕ
  transactions : List T
  senders : List A
  senders_length : senders.length = transactions.length

/-- The tables that number transactions. -/
structure BodyTables (A : Type) where
  blockBodyIndices : ExtTreeMap ℕ StoredBlockBodyIndices
  transactionBlocks : ExtTreeMap ℕ ℕ
  transactionSenders : ExtTreeMap ℕ A

variable {T A : Type}

namespace BodyTables

/-- An empty database. -/
def empty : BodyTables A := ⟨∅, ∅, ∅⟩

/-- The id for the next transaction, or zero if there are no transactions. -/
def nextTxNum (s : BodyTables A) : ℕ := (last s.transactionBlocks).elim 0 (·.1 + 1)

/-- One round of the loop of `append_block_bodies`. -/
def appendBody (st : BodyTables A × ℕ) (entry : ℕ × Option (List T)) :
    Option (BodyTables A × ℕ) := do
  let (s, nextTxNum) := st
  let (blockNumber, body) := entry
  let blockIndices : StoredBlockBodyIndices := ⟨nextTxNum, body.elim 0 List.length⟩
  let blockBodyIndices ← append s.blockBodyIndices blockNumber blockIndices
  let s := { s with blockBodyIndices }
  match body with
  | none => some (s, nextTxNum)
  | some transactions =>
    let transactionBlocks ←
      if transactions.isEmpty then some s.transactionBlocks
      else append s.transactionBlocks blockIndices.lastTxNum blockNumber
    some ({ s with transactionBlocks }, nextTxNum + transactions.length)

def appendBlockBodies (s : BodyTables A) (bodies : List (ℕ × Option (List T))) :
    Option (BodyTables A) :=
  (bodies.foldlM appendBody (s, s.nextTxNum)).map Prod.fst

/-- The loop of `insert_block` over the senders. -/
def putSenders (m : ExtTreeMap ℕ A) (nextTxNum : ℕ) : List A → ExtTreeMap ℕ A
  | [] => m
  | sender :: senders => putSenders (m.insert nextTxNum sender) (nextTxNum + 1) senders

/-- `insert_block`; `pruneSenders` says that the sender recovery is pruned in full. -/
def insertBlock (pruneSenders : Bool) (s : BodyTables A) (block : RecoveredBlock T A) :
    Option (BodyTables A × StoredBlockBodyIndices) := do
  let firstTxNum := s.nextTxNum
  let transactionSenders :=
    if pruneSenders then s.transactionSenders
    else putSenders s.transactionSenders firstTxNum block.senders
  let s ← appendBlockBodies { s with transactionSenders } [(block.number, some block.transactions)]
  some (s, ⟨firstTxNum, block.transactions.length⟩)

/-- `append_blocks_with_state`, without the tables of the state. -/
def appendBlocksWithState (pruneSenders : Bool) (s : BodyTables A)
    (blocks : List (RecoveredBlock T A)) : Option (BodyTables A) :=
  blocks.foldlM (fun s block => (insertBlock pruneSenders s block).map Prod.fst) s

def removeBodiesAbove (s : BodyTables A) (block : ℕ) : Option (BodyTables A) := do
  let unwindTxFrom ← s.blockBodyIndices[block]?.map (·.nextTxNum)
  some { s with
    blockBodyIndices := removeFrom s.blockBodyIndices (block + 1)
    transactionBlocks := removeFrom s.transactionBlocks unwindTxFrom }

def removeBlocksAbove (s : BodyTables A) (block : ℕ) : Option (BodyTables A) := do
  let unwindTxFrom ← s.blockBodyIndices[block]?.map (·.nextTxNum)
  removeBodiesAbove
    { s with transactionSenders := removeFrom s.transactionSenders unwindTxFrom } block

end BodyTables

/-! ## Runs -/

/-- An operation on the blocks of the database. -/
inductive BodyOp (T A : Type)
  | insertBlock (block : RecoveredBlock T A)
  | appendBlocksWithState (blocks : List (RecoveredBlock T A))
  | removeBlocksAbove (block : ℕ)

namespace BodyTables

/-- The blocks of an operation follow the last stored block, one after another. -/
def followOn : Option ℕ → List ℕ → Bool
  | _, [] => true
  | tip, number :: numbers =>
    tip.all (fun tip => number == tip + 1) && followOn (some number) numbers

/-- The last stored block. -/
def lastBlock (s : BodyTables A) : Option ℕ := (last s.blockBodyIndices).map Prod.fst

/-- Blocks are appended at the next block number. -/
def appendsNext (s : BodyTables A) : BodyOp T A → Bool
  | .insertBlock block => followOn s.lastBlock [block.number]
  | .appendBlocksWithState blocks => followOn s.lastBlock (blocks.map (·.number))
  | .removeBlocksAbove _ => true

/-- One operation. -/
def apply (pruneSenders : Bool) (s : BodyTables A) : BodyOp T A → Option (BodyTables A)
  | .insertBlock block => (s.insertBlock pruneSenders block).map Prod.fst
  | .appendBlocksWithState blocks => s.appendBlocksWithState pruneSenders blocks
  | .removeBlocksAbove block => s.removeBlocksAbove block

/-- The databases reached from an empty one. -/
def Reached (T : Type) (pruneSenders : Bool) : BodyTables A → Prop :=
  Runs.ReachedBy (fun s (op : BodyOp T A) s' => s.apply pruneSenders op = some s')
    (fun s op => s.appendsNext op = true) empty

end BodyTables

/-! ## What the tables hold -/

/-- **THE TABLES HOLD BLOCKS**: consecutive blocks from `first` on, with the given numbers of
    transactions. -/
structure Represents (first : ℕ) (sizes : List ℕ) (s : BodyTables A) : Prop where
  indices : ∀ (b : ℕ) (indices : StoredBlockBodyIndices), s.blockBodyIndices[b]? = some indices ↔
    ∃ i, sizes[i]? = some indices.txCount ∧ b = first + i ∧ indices.firstTxNum = start sizes i
  blocks : ∀ t b : ℕ, s.transactionBlocks[t]? = some b ↔
    ∃ i n, sizes[i]? = some n ∧ b = first + i ∧ t + 1 = start sizes i + n ∧ 0 < n

namespace Represents

variable {first : ℕ} {sizes : List ℕ} {s : BodyTables A}

theorem empty (first : ℕ) : Represents first [] (BodyTables.empty (A := A)) := by
  constructor
  · intro b indices
    simp [BodyTables.empty]
  · intro t b
    simp [BodyTables.empty]

section

variable (h : Represents first sizes s)

include h

theorem tx_lt (hb : s.transactionBlocks[t]? = some b) : t < sizes.sum := by
  obtain ⟨i, n, hi, -, hend, -⟩ := (h.blocks t b).mp hb
  have := end_le_sum hi
  omega

theorem block_lt {b : ℕ} {indices : StoredBlockBodyIndices}
    (hb : s.blockBodyIndices[b]? = some indices) : b < first + sizes.length := by
  obtain ⟨i, hi, rfl, -⟩ := (h.indices b indices).mp hb
  have := (List.getElem?_eq_some_iff.mp hi).1
  omega

/-- **NEXT NUMBER**: the next transaction number is the number of stored transactions. -/
theorem nextTxNum_eq : s.nextTxNum = sizes.sum := by
  rw [BodyTables.nextTxNum]
  by_cases hsum : sizes.sum = 0
  · -- no block has transactions, so no entry was written
    have hnone : last s.transactionBlocks = none := by
      refine last_eq_none.mpr fun t => ?_
      cases hb : s.transactionBlocks[t]? with
      | none => rfl
      | some b =>
        have := h.tx_lt hb
        omega
    rw [hnone, hsum]
    rfl
  · -- the last entry is that of the block with the last transaction
    obtain ⟨i, n, hi, hle, hlt⟩ := exists_piece (show sizes.sum - 1 < sizes.sum by omega)
    have hend := end_le_sum hi
    have hlast : last s.transactionBlocks = some (sizes.sum - 1, first + i) := by
      refine last_eq_some.mpr ⟨(h.blocks _ _).mpr ⟨i, n, hi, rfl, by omega, by omega⟩, ?_⟩
      intro t b hb
      have := h.tx_lt hb
      rw [compare_eq_lt]
      omega
    rw [hlast]
    show sizes.sum - 1 + 1 = sizes.sum
    omega

theorem lastBlock_eq :
    s.lastBlock = if sizes = [] then none else some (first + sizes.length - 1) := by
  rw [BodyTables.lastBlock]
  by_cases hnil : sizes = []
  · subst hnil
    rw [if_pos rfl, last_eq_none.mpr, map_none]
    intro b
    cases hb : s.blockBodyIndices[b]? with
    | none => rfl
    | some indices => exact absurd ((h.indices b indices).mp hb) (by simp)
  · rw [if_neg hnil]
    have hpos := length_pos_iff.mpr hnil
    have hi : sizes[sizes.length - 1]? = some (sizes[sizes.length - 1]) :=
      getElem?_eq_getElem _
    have hlast : last s.blockBodyIndices =
        some (first + sizes.length - 1, ⟨start sizes (sizes.length - 1), sizes[sizes.length - 1]⟩) := by
      refine last_eq_some.mpr ⟨(h.indices _ _).mpr ⟨_, hi, by omega, rfl⟩, ?_⟩
      intro b indices hb
      have := h.block_lt hb
      rw [compare_eq_lt]
      omega
    rw [hlast]
    rfl

theorem insert_indices (n b : ℕ) (indices : StoredBlockBodyIndices) :
    (s.blockBodyIndices.insert (first + sizes.length) ⟨sizes.sum, n⟩)[b]? = some indices ↔
      ∃ i, (sizes ++ [n])[i]? = some indices.txCount ∧ b = first + i ∧
        indices.firstTxNum = start (sizes ++ [n]) i := by
  have hend : start (sizes ++ [n]) sizes.length = sizes.sum := by
    rw [start_append [n] le_rfl, start_length]
  rw [get_insert]
  by_cases hb : first + sizes.length = b
  · rw [if_pos hb]
    constructor
    · intro heq
      cases heq
      exact ⟨sizes.length, by simp, hb.symm, hend.symm⟩
    · rintro ⟨i, hi, hbi, hfirst⟩
      obtain rfl : i = sizes.length := by omega
      rw [getElem?_concat_length] at hi
      obtain ⟨firstTxNum, txCount⟩ := indices
      cases hi
      rw [hend] at hfirst
      cases hfirst
      rfl
  · rw [if_neg hb, h.indices]
    constructor
    · rintro ⟨i, hi, hbi, hfirst⟩
      have hlt := (List.getElem?_eq_some_iff.mp hi).1
      refine ⟨i, ?_, hbi, ?_⟩
      · rw [getElem?_append_left hlt, hi]
      · rw [start_append [n] hlt.le, hfirst]
    · rintro ⟨i, hi, hbi, hfirst⟩
      have hlt : i < sizes.length := by
        have := (List.getElem?_eq_some_iff.mp hi).1
        rw [length_append, length_singleton] at this
        omega
      rw [getElem?_append_left hlt] at hi
      rw [start_append [n] hlt.le] at hfirst
      exact ⟨i, hi, hbi, hfirst⟩

/-- The entries with the next block: one more, unless it has no transaction. -/
theorem blocks_concat {m : ExtTreeMap ℕ ℕ} {n : ℕ}
    (hm : ∀ t b, m[t]? = some b ↔ s.transactionBlocks[t]? = some b ∨
      0 < n ∧ t + 1 = sizes.sum + n ∧ b = first + sizes.length) (t b : ℕ) :
    m[t]? = some b ↔ ∃ i k, (sizes ++ [n])[i]? = some k ∧ b = first + i ∧
      t + 1 = start (sizes ++ [n]) i + k ∧ 0 < k := by
  have hend : start (sizes ++ [n]) sizes.length = sizes.sum := by
    rw [start_append [n] le_rfl, start_length]
  rw [hm, h.blocks]
  constructor
  · rintro (⟨i, k, hi, hb, ht, hk⟩ | ⟨hn, ht, hb⟩)
    · have hlt := (List.getElem?_eq_some_iff.mp hi).1
      refine ⟨i, k, ?_, hb, ?_, hk⟩
      · rw [getElem?_append_left hlt, hi]
      · rw [start_append [n] hlt.le, ht]
    · exact ⟨sizes.length, n, getElem?_concat_length, hb, by rw [hend, ht], hn⟩
  · rintro ⟨i, k, hi, hb, ht, hk⟩
    by_cases hlt : i < sizes.length
    · rw [getElem?_append_left hlt] at hi
      rw [start_append [n] hlt.le] at ht
      exact .inl ⟨i, k, hi, hb, ht, hk⟩
    · obtain rfl : i = sizes.length := by
        have := (List.getElem?_eq_some_iff.mp hi).1
        rw [length_append, length_singleton] at this
        omega
      rw [getElem?_concat_length] at hi
      cases hi
      exact .inr ⟨hk, by rw [ht, hend], hb⟩

/-- **APPENDING A BLOCK** at the next number succeeds and adds it to the blocks held. -/
theorem appendBody_represents (transactions : List T) :
    ∃ s', BodyTables.appendBody (s, sizes.sum) (first + sizes.length, some transactions) =
        some (s', sizes.sum + transactions.length) ∧
      Represents first (sizes ++ [transactions.length]) s' := by
  have hindices := append_eq s.blockBodyIndices (first + sizes.length)
    ⟨sizes.sum, transactions.length⟩
    (fun b _ hb => compare_eq_lt.mpr (h.block_lt hb))
  by_cases hempty : transactions = []
  · -- an empty block writes no entry
    subst hempty
    refine ⟨{ s with blockBodyIndices := s.blockBodyIndices.insert _ _ }, ?_,
      h.insert_indices 0, h.blocks_concat fun t b => ?_⟩
    · rw [length_nil] at hindices
      simp [BodyTables.appendBody, hindices]
    · simp
  · have hpos := length_pos_iff.mpr hempty
    have hblocks := append_eq s.transactionBlocks (sizes.sum + transactions.length - 1)
      (first + sizes.length)
      (fun t _ hb => compare_eq_lt.mpr (by have := h.tx_lt hb; omega))
    refine ⟨{ s with
      blockBodyIndices := s.blockBodyIndices.insert _ _
      transactionBlocks := s.transactionBlocks.insert (sizes.sum + transactions.length - 1)
        (first + sizes.length) }, ?_,
      h.insert_indices transactions.length, h.blocks_concat fun t b => ?_⟩
    · simp [BodyTables.appendBody, hindices, hempty, hblocks, StoredBlockBodyIndices.lastTxNum]
    rw [get_insert]
    by_cases ht : sizes.sum + transactions.length - 1 = t
    · -- the number is fresh
      have hfresh : s.transactionBlocks[t]? = none := by
        cases hb : s.transactionBlocks[t]? with
        | none => rfl
        | some b =>
          have := h.tx_lt hb
          omega
      rw [if_pos ht, hfresh, some.injEq]
      constructor
      · intro heq
        exact .inr ⟨hpos, by omega, heq.symm⟩
      · rintro (hno | ⟨-, -, heq⟩)
        · nomatch hno
        · exact heq.symm
    · rw [if_neg ht]
      constructor
      · exact .inl
      · rintro (hb | ⟨-, heq, -⟩)
        · exact hb
        · omega

theorem insertBlock_represents (pruneSenders : Bool)
    (hnumber : block.number = first + sizes.length) :
    ∃ s', s.insertBlock pruneSenders block = some (s', ⟨sizes.sum, block.transactions.length⟩) ∧
      Represents first (sizes ++ [block.transactions.length]) s' := by
  have hsenders : Represents first sizes { s with
      transactionSenders := if pruneSenders then s.transactionSenders
        else BodyTables.putSenders s.transactionSenders sizes.sum block.senders } :=
    ⟨h.indices, h.blocks⟩
  obtain ⟨s', happend, hs'⟩ := hsenders.appendBody_represents block.transactions
  refine ⟨s', ?_, hs'⟩
  rw [← hnumber] at happend
  rw [BodyTables.insertBlock, h.nextTxNum_eq, BodyTables.appendBlockBodies,
    hsenders.nextTxNum_eq, foldlM_cons]
  simp only [happend]
  rfl

/-- **REMOVING BLOCKS**: only the blocks up to the given one stay. -/
theorem removeBlocksAbove_represents (hs' : s.removeBlocksAbove block = some s') :
    ∃ i < sizes.length, block = first + i ∧ Represents first (sizes.take (i + 1)) s' := by
  cases hblock : s.blockBodyIndices[block]? with
  | none => simp [BodyTables.removeBlocksAbove, hblock] at hs'
  | some indices =>
    simp only [BodyTables.removeBlocksAbove, BodyTables.removeBodiesAbove, hblock,
      map_some, bind_eq_bind, bind_some, some.injEq] at hs'
    obtain ⟨i, hi, rfl, hfirst⟩ := (h.indices block indices).mp hblock
    have hnext : indices.nextTxNum = start sizes (i + 1) := by
      rw [start_succ hi, ← hfirst]
      rfl
    refine ⟨i, (List.getElem?_eq_some_iff.mp hi).1, rfl, ?_⟩
    subst hs'
    rw [hnext]
    constructor
    · intro b indices'
      rw [get_removeFrom, compare_eq_lt, h.indices]
      constructor
      · rintro ⟨hlt, j, hj, rfl, hfirst'⟩
        refine ⟨j, ?_, rfl, ?_⟩
        · rw [getElem?_take_of_lt (by omega), hj]
        · rw [start_take (by omega), hfirst']
      · rintro ⟨j, hj, rfl, hfirst'⟩
        have hji := lt_of_getElem?_take hj
        rw [getElem?_take_of_lt hji] at hj
        rw [start_take hji.le] at hfirst'
        exact ⟨by omega, j, hj, rfl, hfirst'⟩
    · intro t b
      rw [get_removeFrom, compare_eq_lt, h.blocks]
      constructor
      · rintro ⟨hlt, j, n, hj, rfl, ht, hn⟩
        have hji : j < i + 1 := by
          by_contra hno
          have := start_mono sizes (Nat.le_of_not_lt hno)
          omega
        refine ⟨j, n, ?_, rfl, ?_, hn⟩
        · rw [getElem?_take_of_lt hji, hj]
        · rw [start_take hji.le, ht]
      · rintro ⟨j, n, hj, rfl, ht, hn⟩
        have hji := lt_of_getElem?_take hj
        rw [getElem?_take_of_lt hji] at hj
        rw [start_take hji.le] at ht
        have hle := end_le_start hj hji
        exact ⟨by omega, j, n, hj, rfl, ht, hn⟩

theorem next_number (number : ℕ)
    (hnext : s.lastBlock.all (number == · + 1) = true) :
    ∃ first', Represents first' sizes s ∧ number = first' + sizes.length := by
  rw [h.lastBlock_eq] at hnext
  by_cases hnil : sizes = []
  · subst hnil
    refine ⟨number, ⟨fun b indices => ?_, fun t b => ?_⟩, rfl⟩
    · simpa using h.indices b indices
    · simpa using h.blocks t b
  · rw [if_neg hnil] at hnext
    have hpos := length_pos_iff.mpr hnil
    have htip : number = first + sizes.length - 1 + 1 := beq_iff_eq.mp hnext
    exact ⟨first, h, by omega⟩

end

/-- **APPENDING BLOCKS** that follow on, one after another. -/
theorem appendBlocksWithState_represents (pruneSenders : Bool)
    (blocks : List (RecoveredBlock T A)) (h : Represents first sizes s)
    (hfollow : BodyTables.followOn s.lastBlock (blocks.map (·.number)) = true) :
    ∃ s' first' sizes', s.appendBlocksWithState pruneSenders blocks = some s' ∧
      Represents first' sizes' s' := by
  induction blocks generalizing first sizes s with
  | nil => exact ⟨s, first, sizes, rfl, h⟩
  | cons block blocks ih =>
    obtain ⟨hnext, hrest⟩ := Bool.and_eq_true_iff.mp hfollow
    obtain ⟨first', h, hnumber⟩ := h.next_number block.number hnext
    obtain ⟨s1, hinsert, h1⟩ := h.insertBlock_represents pruneSenders hnumber
    have hlast : s1.lastBlock = some block.number := by
      rw [h1.lastBlock_eq, if_neg (by simp), hnumber, length_append]
      rfl
    obtain ⟨s', first'', sizes', happend, h'⟩ := ih h1 (hlast ▸ hrest)
    refine ⟨s', first'', sizes', ?_, h'⟩
    rw [BodyTables.appendBlocksWithState, foldlM_cons, hinsert]
    exact happend

theorem apply_represents (h : Represents first sizes s) (hnext : s.appendsNext op = true)
    (hs' : s.apply pruneSenders op = some s') :
    ∃ first' sizes', Represents first' sizes' s' := by
  cases op with
  | insertBlock block =>
    obtain ⟨first', h, hnumber⟩ := h.next_number block.number (Bool.and_eq_true_iff.mp hnext).1
    obtain ⟨s1, hinsert, h1⟩ := h.insertBlock_represents pruneSenders hnumber
    rw [BodyTables.apply, hinsert] at hs'
    cases hs'
    exact ⟨first', _, h1⟩
  | appendBlocksWithState blocks =>
    obtain ⟨s1, first', sizes', happend, h1⟩ :=
      appendBlocksWithState_represents pruneSenders blocks h hnext
    cases happend.symm.trans hs'
    exact ⟨first', sizes', h1⟩
  | removeBlocksAbove block =>
    obtain ⟨i, -, -, h'⟩ := h.removeBlocksAbove_represents hs'
    exact ⟨first, _, h'⟩

end Represents

/-- Every reachable database holds consecutive blocks. -/
theorem BodyTables.Reached.represents (h : BodyTables.Reached T pruneSenders s) :
    ∃ first sizes, Represents first sizes s := by
  refine Runs.ReachedBy.invariant (I := fun s => ∃ first sizes, Represents first sizes s)
    ⟨0, [], .empty 0⟩ ?_ h
  rintro s op s' - ⟨first, sizes, h⟩ hnext hs'
  exact h.apply_represents hnext hs'

/-! ## The numbers of transactions -/

/-- The number of transactions of the stored blocks below a block. -/
def BodyTables.txsBelow (s : BodyTables A) (block : ℕ) : ℕ :=
  ((s.blockBodyIndices.toList.filter (fun row => row.1 < block)).map (·.2.txCount)).sum

/-- The number of transactions of all stored blocks. -/
def BodyTables.totalTxs (s : BodyTables A) : ℕ :=
  (s.blockBodyIndices.toList.map (·.2.txCount)).sum

/-- The rows of the indices, for blocks from `first` and transactions from `tx` on. -/
private def rows (first tx : ℕ) : List ℕ → List (ℕ × StoredBlockBodyIndices)
  | [] => []
  | n :: sizes => (first, ⟨tx, n⟩) :: rows (first + 1) (tx + n) sizes

private theorem mem_rows :
    (b, indices) ∈ rows first tx sizes ↔ ∃ i, sizes[i]? = some indices.txCount ∧ b = first + i ∧
      indices.firstTxNum = tx + start sizes i := by
  induction sizes generalizing first tx with
  | nil => simp [rows]
  | cons n sizes ih =>
    obtain ⟨firstTxNum, txCount⟩ := indices
    rw [rows, mem_cons, ih]
    constructor
    · rintro (heq | ⟨i, hi, rfl, hfirst⟩)
      · cases heq
        exact ⟨0, rfl, rfl, rfl⟩
      · refine ⟨i + 1, hi, by omega, ?_⟩
        rw [start_cons, hfirst]
        omega
    · rintro ⟨i, hi, rfl, hfirst⟩
      cases i with
      | zero =>
        cases hi
        cases hfirst
        exact .inl rfl
      | succ i =>
        rw [start_cons] at hfirst
        exact .inr ⟨i, hi, by omega, by rw [hfirst]; omega⟩

private theorem sorted_rows (sizes : List ℕ) (first tx : ℕ) :
    (rows first tx sizes).Pairwise (compare ·.1 ·.1 = .lt) := by
  induction sizes generalizing first tx with
  | nil => exact .nil
  | cons n sizes ih =>
    refine pairwise_cons.mpr ⟨?_, ih _ _⟩
    rintro ⟨b, indices⟩ hb
    obtain ⟨i, -, rfl, -⟩ := mem_rows.mp hb
    exact compare_eq_lt.mpr (show first < first + 1 + i by omega)

private theorem counts_rows (sizes : List ℕ) (first tx : ℕ) :
    (rows first tx sizes).map (·.2.txCount) = sizes := by
  induction sizes generalizing first tx with
  | nil => rfl
  | cons n sizes ih => rw [rows, map_cons, ih]

private theorem counts_rows_below (sizes : List ℕ) (first tx i : ℕ) :
    ((rows first tx sizes).filter (·.1 < first + i)).map (·.2.txCount) =
      sizes.take i := by
  induction sizes generalizing first tx i with
  | nil => simp [rows]
  | cons n sizes ih =>
    cases i with
    | zero =>
      rw [take_zero, map_eq_nil_iff, filter_eq_nil_iff]
      rintro ⟨b, indices⟩ hb
      obtain ⟨j, -, rfl, -⟩ := mem_rows.mp hb
      simp
    | succ i =>
      have hrest := ih (first + 1) (tx + n) i
      rw [show first + 1 + i = first + (i + 1) by omega] at hrest
      rw [rows, filter_cons_of_pos (by simp), map_cons, hrest, take_succ_cons]

namespace Represents

variable {first : ℕ} {sizes : List ℕ} {s : BodyTables A} (h : Represents first sizes s)

include h

private theorem toList_eq : s.blockBodyIndices.toList = rows first 0 sizes := by
  refine toList_eq_of_sorted (sorted_rows sizes first 0) fun b indices => ?_
  rw [h.indices, mem_rows]
  simp only [zero_add]

theorem txsBelow_eq (i : ℕ) : s.txsBelow (first + i) = start sizes i := by
  rw [BodyTables.txsBelow, h.toList_eq, counts_rows_below, start]

/-- **THE BLOCK OF A TRANSACTION** is found from the first entry at or after its number. -/
theorem seek_eq (hi : sizes[i]? = some n) (hle : start sizes i ≤ t)
    (hlt : t < start sizes i + n) :
    seek s.transactionBlocks t = some (start sizes i + n - 1, first + i) := by
  refine First.unique ?_ (seek_spec s.transactionBlocks t) ⟨⟨?_, ?_⟩, ?_⟩
  · rintro k b b' ⟨hb, -⟩ ⟨hb', -⟩
    exact some.inj (hb.symm.trans hb')
  · exact (h.blocks _ _).mpr ⟨i, n, hi, rfl, by omega, by omega⟩
  · exact isLE_compare.mpr (by omega)
  rintro k b ⟨hb, hk⟩ hlt'
  have hk := isLE_compare.mp hk
  have hlt' := compare_eq_lt.mp hlt'
  obtain ⟨j, n', hj, -, hend, hpos⟩ := (h.blocks k b).mp hb
  -- the entry would lie in the piece of the block, so be the one of the block
  have hij : i = j := by
    by_contra hne
    rcases lt_or_gt_of_ne hne with hij | hij
    · have := end_le_start hi hij
      omega
    · have := end_le_start hj hij
      omega
  subst hij
  cases hi.symm.trans hj
  omega

theorem seek_eq_none (ht : sizes.sum ≤ t) :
    seek s.transactionBlocks t = none := by
  refine First.unique ?_ (seek_spec s.transactionBlocks t) ?_
  · rintro k b b' ⟨hb, -⟩ ⟨hb', -⟩
    exact some.inj (hb.symm.trans hb')
  · rintro k b ⟨hb, hk⟩
    have hk := isLE_compare.mp hk
    have := h.tx_lt hb
    omega

end Represents

/-- **TRANSACTION NUMBERING** in every reachable database: a block's first number counts the
    transactions below it, `TransactionBlocks` has exactly one entry for each block with
    transactions, at its last number, and the first entry at or after a number names its block. -/
theorem tx_numbering_exact {pruneSenders : Bool} {s : BodyTables A}
    (h : BodyTables.Reached T pruneSenders s) :
    (∀ (b : ℕ) (indices : StoredBlockBodyIndices), s.blockBodyIndices[b]? = some indices →
      indices.firstTxNum = s.txsBelow b) ∧
    (∀ t b : ℕ, s.transactionBlocks[t]? = some b ↔
      ∃ indices : StoredBlockBodyIndices, s.blockBodyIndices[b]? = some indices ∧
        0 < indices.txCount ∧ t = indices.lastTxNum) ∧
    (∀ t b : ℕ, (seek s.transactionBlocks t).map Prod.snd = some b ↔
      ∃ indices : StoredBlockBodyIndices, s.blockBodyIndices[b]? = some indices ∧
        indices.Contains t) ∧
    (∀ t : ℕ, t < s.totalTxs ↔ (seek s.transactionBlocks t).isSome = true) := by
  obtain ⟨first, sizes, h⟩ := h.represents
  refine ⟨fun b indices hb => ?_, fun t b => ?_, fun t b => ?_, fun t => ?_⟩
  · obtain ⟨i, -, rfl, hfirst⟩ := (h.indices b indices).mp hb
    rw [hfirst, h.txsBelow_eq]
  · rw [h.blocks]
    constructor
    · rintro ⟨i, n, hi, rfl, hend, hn⟩
      refine ⟨⟨start sizes i, n⟩, (h.indices _ _).mpr ⟨i, hi, rfl, rfl⟩, hn, ?_⟩
      show t = start sizes i + n - 1
      omega
    · rintro ⟨indices, hb, hn, rfl⟩
      obtain ⟨i, hi, rfl, hfirst⟩ := (h.indices b indices).mp hb
      refine ⟨i, indices.txCount, hi, rfl, ?_, hn⟩
      rw [StoredBlockBodyIndices.lastTxNum, ← hfirst]
      omega
  · constructor
    · intro hseek
      have hlt : t < sizes.sum := by
        by_contra hno
        rw [h.seek_eq_none (Nat.le_of_not_lt hno)] at hseek
        nomatch hseek
      obtain ⟨i, n, hi, hle, hlt⟩ := exists_piece hlt
      rw [h.seek_eq hi hle hlt] at hseek
      cases hseek
      exact ⟨⟨start sizes i, n⟩, (h.indices _ _).mpr ⟨i, hi, rfl, rfl⟩, hle, hlt⟩
    · rintro ⟨indices, hb, hle, hlt⟩
      obtain ⟨i, hi, rfl, hfirst⟩ := (h.indices b indices).mp hb
      rw [StoredBlockBodyIndices.nextTxNum, hfirst] at hlt
      rw [hfirst] at hle
      rw [h.seek_eq hi hle hlt]
      rfl
  · rw [BodyTables.totalTxs, h.toList_eq, counts_rows]
    constructor
    · intro hlt
      obtain ⟨i, n, hi, hle, hlt⟩ := exists_piece hlt
      rw [h.seek_eq hi hle hlt]
      rfl
    · intro hsome
      by_contra hno
      rw [h.seek_eq_none (Nat.le_of_not_lt hno)] at hsome
      nomatch hsome

/-- A block whose transactions are named by their senders. -/
private def sampleBlock (number : ℕ) (txs : List ℕ) : RecoveredBlock ℕ ℕ := ⟨number, txs, txs, rfl⟩

/-- Three blocks, of which the second is empty and the third is replaced after an unwind to
    the empty one. -/
theorem tx_numbering_exact_unwound : ∃ s : BodyTables ℕ, BodyTables.Reached ℕ false s ∧
    s.blockBodyIndices[9]? = some ⟨1, 2⟩ ∧
    (seek s.transactionBlocks 2).map Prod.snd = some 9 := by
  obtain ⟨s, hs, hcheck⟩ := Runs.exists_of_next (BodyTables.apply false) BodyTables.appendsNext
    [.insertBlock (sampleBlock 7 [10]),
      .appendBlocksWithState [sampleBlock 8 [], sampleBlock 9 [11]],
      .removeBlocksAbove 8, .insertBlock (sampleBlock 9 [12, 13])] .empty
    (fun s => decide (s.blockBodyIndices[9]? = some (⟨1, 2⟩ : StoredBlockBodyIndices)))
    (by decide +kernel)
  have hindices := of_decide_eq_true hcheck
  exact ⟨s, hs, hindices, ((tx_numbering_exact hs).2.2.1 2 9).mpr ⟨_, hindices, by decide⟩⟩

end Storage

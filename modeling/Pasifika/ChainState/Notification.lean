import Pasifika.Engine.Block

/-! # Notifications about the canonical chain

Listeners get the blocks that enter or leave the canonical chain as a `Chain`:
the blocks by number, and ONE execution outcome with the receipts of all of
them. Receipts are looked up by their distance to `first_block`, the number of
the first block of the outcome.

A notification is folded from `Chain::default()`, whose outcome starts at block
0, and `ExecutionOutcome::extend` does not touch `first_block`. So the lookups
of a notification are right for a chain that starts at block 0 and, but for a
single block without receipts, for no other chain. -/

namespace ChainState

open Std (ExtTreeMap)
open OrderedMap Engine List Nat

/-- What outcomes use of a `BundleState`. -/
class Bundle (B : Type) where
  default : B
  extend : B → B → B
  /-- Undo the last blocks. -/
  revert : B → Nat → B

variable {R Q B : Type}

/-- `ExecutionOutcome`: the receipts and the requests of each block. -/
structure ExecutionOutcome (R Q B : Type) where
  bundle : B
  receipts : List (List R)
  firstBlock : BlockNumber
  requests : List Q

namespace ExecutionOutcome

def default [Bundle B] : ExecutionOutcome R Q B where
  bundle := Bundle.default
  receipts := []
  firstBlock := 0
  requests := []

def blockNumberToIndex (o : ExecutionOutcome R Q B) (blockNumber : BlockNumber) : Option Nat :=
  if o.firstBlock > blockNumber then none
  else
    let index := blockNumber - o.firstBlock
    if index ≥ o.receipts.length then none else some index

/-- `receipts_by_block`; an index that was found is in range. -/
def receiptsByBlock (o : ExecutionOutcome R Q B) (blockNumber : BlockNumber) : List R :=
  match o.blockNumberToIndex blockNumber with
  | none => []
  | some index => o.receipts.getD index []

/-- `revert_to`, and whether the block was found. -/
def revertTo [Bundle B] (o : ExecutionOutcome R Q B) (blockNumber : BlockNumber) :
    Bool × ExecutionOutcome R Q B :=
  match o.blockNumberToIndex blockNumber with
  | none => (false, o)
  | some index =>
    let newLen := index + 1
    (true, { o with
      receipts := o.receipts.take newLen
      requests := o.requests.take newLen
      bundle := Bundle.revert o.bundle (o.receipts.length - newLen) })

/-- `extend`: the first block stays. -/
def extend [Bundle B] (o other : ExecutionOutcome R Q B) : ExecutionOutcome R Q B :=
  { o with
    bundle := Bundle.extend o.bundle other.bundle
    receipts := o.receipts ++ other.receipts
    requests := o.requests ++ other.requests }

end ExecutionOutcome

structure ExecutedBlock (R Q B : Type) where
  recoveredBlock : RecoveredBlock
  executionOutcome : ExecutionOutcome R Q B

namespace ExecutedBlock

def hash (e : ExecutedBlock R Q B) : BlockHash := e.recoveredBlock.hash

def number (e : ExecutedBlock R Q B) : BlockNumber := e.recoveredBlock.number

/-- `executed_block_receipts`. -/
def receipts (e : ExecutedBlock R Q B) : List R := e.executionOutcome.receipts.headD []

end ExecutedBlock

/-- `Chain`; the trie updates of a notification are never set. -/
structure Chain (R Q B : Type) where
  blocks : ExtTreeMap BlockNumber RecoveredBlock
  executionOutcome : ExecutionOutcome R Q B

namespace Chain

def default [Bundle B] : Chain R Q B where
  blocks := ∅
  executionOutcome := .default

/-- `tip`, which panics on an empty chain. -/
def tip (c : Chain R Q B) : Option RecoveredBlock := c.blocks.toList.getLast?.map Prod.snd

def blockNumber (c : Chain R Q B) (blockHash : BlockHash) : Option BlockNumber :=
  c.blocks.toList.findSome? (fun e => if e.2.hash = blockHash then some e.1 else none)

def receiptsByBlockHash (c : Chain R Q B) (blockHash : BlockHash) : Option (List R) := do
  let num ← c.blockNumber blockHash
  some (c.executionOutcome.receiptsByBlock num)

/-- `execution_outcome_at_block`; the outer `none` is the panic of `tip`. -/
def executionOutcomeAtBlock [Bundle B] (c : Chain R Q B) (blockNumber : BlockNumber) :
    Option (Option (ExecutionOutcome R Q B)) := do
  let tip ← c.tip
  if tip.number = blockNumber then
    some (some c.executionOutcome)
  else if c.blocks.contains blockNumber then
    some (some (c.executionOutcome.revertTo blockNumber).2)
  else
    some none

def appendBlock [Bundle B] (c : Chain R Q B) (block : RecoveredBlock)
    (executionOutcome : ExecutionOutcome R Q B) : Chain R Q B where
  blocks := c.blocks.insert block.number block
  executionOutcome := c.executionOutcome.extend executionOutcome

end Chain

/-- `NewCanonicalChain`, with what its notification reads of the blocks. -/
inductive CanonicalUpdate (R Q B : Type) where
  | commit (new : List (ExecutedBlock R Q B))
  | reorg (new old : List (ExecutedBlock R Q B))

inductive CanonStateNotification (R Q B : Type) where
  | commit (new : Chain R Q B)
  | reorg (new old : Chain R Q B)

/-- The fold over executed blocks. -/
def toChain [Bundle B] (blocks : List (ExecutedBlock R Q B)) : Chain R Q B :=
  blocks.foldl (fun chain exec => chain.appendBlock exec.recoveredBlock exec.executionOutcome)
    .default

def CanonicalUpdate.toChainNotification [Bundle B] :
    CanonicalUpdate R Q B → CanonStateNotification R Q B
  | .commit new => .commit (toChain new)
  | .reorg new old => .reorg (toChain new) (toChain old)

/-! ## The folded chain -/

/-- **EXECUTED BLOCKS** of consecutive numbers, each with the outcome of that block alone. -/
structure Executed (blocks : List (ExecutedBlock R Q B)) : Prop where
  consecutive : blocks.IsChain (fun b c => c.number = b.number + 1)
  hashes : (blocks.map ExecutedBlock.hash).Nodup
  single : ∀ b ∈ blocks, b.executionOutcome.firstBlock = b.number ∧
    ∃ receipts, b.executionOutcome.receipts = [receipts]

variable {first e : ExecutedBlock R Q B} {blocks : List (ExecutedBlock R Q B)}

/-- Numbers count from the first one. -/
theorem Executed.number_eq (h : Executed blocks) (hfirst : blocks.head? = some first) :
    ∀ i {e}, blocks[i]? = some e → e.number = first.number + i := by
  intro i
  induction i with
  | zero =>
    intro e he
    rw [head?_eq_getElem?, he] at hfirst
    rw [Option.some.inj hfirst]
    rfl
  | succ i ih =>
    intro e he
    obtain ⟨hlt, rfl⟩ := List.getElem?_eq_some_iff.mp he
    have hprev : blocks[i]? = some blocks[i] := getElem?_eq_getElem _
    rw [isChain_iff_getElem.mp h.consecutive i hlt, ih hprev]
    rfl

theorem Executed.sorted (h : Executed blocks) : blocks.Pairwise (·.number < ·.number) := by
  have htrans : Trans (fun b c : ExecutedBlock R Q B => b.number < c.number)
      (fun b c : ExecutedBlock R Q B => b.number < c.number)
      (fun b c : ExecutedBlock R Q B => b.number < c.number) :=
    ⟨fun h h' => lt_trans h h'⟩
  refine isChain_iff_pairwise.mp (h.consecutive.imp ?_)
  intro b c heq
  exact lt_of_succ_le (le_of_eq heq.symm)

theorem findSome_hash (hnodup : (blocks.map ExecutedBlock.hash).Nodup) (he : e ∈ blocks) :
    (blocks.map fun e => (e.number, e.recoveredBlock)).findSome?
      (fun p => if p.2.hash = e.hash then some p.1 else none) = some e.number := by
  induction blocks with
  | nil => nomatch he
  | cons b blocks ih =>
    obtain ⟨hb, hnodup⟩ := nodup_cons.mp hnodup
    rw [map_cons, findSome?_cons]
    rcases mem_cons.mp he with rfl | he
    · rw [if_pos (show e.recoveredBlock.hash = e.hash from rfl)]
    · have hne : b.hash ≠ e.hash := fun heq => hb (heq ▸ mem_map_of_mem he)
      rw [if_neg (show b.recoveredBlock.hash ≠ e.hash from hne)]
      exact ih hnodup he

section

variable [Bundle B]

theorem foldl_appendBlock (blocks : List (ExecutedBlock R Q B)) (c : Chain R Q B) :
    let c' := blocks.foldl
      (fun chain exec => chain.appendBlock exec.recoveredBlock exec.executionOutcome) c
    c'.executionOutcome.firstBlock = c.executionOutcome.firstBlock ∧
      c'.executionOutcome.receipts = c.executionOutcome.receipts
        ++ blocks.flatMap (·.executionOutcome.receipts) ∧
      c'.blocks = (blocks.map fun e => (e.number, e.recoveredBlock)).foldl
        (fun m e => m.insert e.1 e.2) c.blocks := by
  induction blocks generalizing c with
  | nil => simp
  | cons e blocks ih =>
    obtain ⟨hfirst, hreceipts, hblocks⟩ := ih (c.appendBlock e.recoveredBlock e.executionOutcome)
    refine ⟨hfirst, hreceipts.trans ?_, hblocks⟩
    rw [flatMap_cons, ← append_assoc]
    rfl

theorem firstBlock_toChain (blocks : List (ExecutedBlock R Q B)) :
    (toChain blocks).executionOutcome.firstBlock = 0 :=
  (foldl_appendBlock blocks .default).1

variable {blocks : List (ExecutedBlock R Q B)}

theorem Executed.receipts_toChain (h : Executed blocks) :
    (toChain blocks).executionOutcome.receipts = blocks.map ExecutedBlock.receipts := by
  refine (foldl_appendBlock blocks .default).2.1.trans ?_
  rw [show (Chain.default : Chain R Q B).executionOutcome.receipts = [] from rfl, nil_append,
    ← flatMap_pure_eq_map]
  refine flatMap_congr ?_
  intro e he
  obtain ⟨-, rs, hrs⟩ := h.single e he
  show e.executionOutcome.receipts = [e.executionOutcome.receipts.headD []]
  rw [hrs]
  rfl

theorem Executed.toList_toChain (h : Executed blocks) :
    (toChain blocks).blocks.toList = blocks.map (fun e => (e.number, e.recoveredBlock)) := by
  have hsorted : (blocks.map fun e => (e.number, e.recoveredBlock)).Pairwise
      (compare ·.1 ·.1 = .lt) :=
    pairwise_map.mpr (h.sorted.imp fun hlt => Nat.compare_eq_lt.mpr hlt)
  have hnodup : ((blocks.map fun e => (e.number, e.recoveredBlock)).map Prod.fst).Nodup := by
    rw [map_map]
    exact pairwise_map.mpr (h.sorted.imp fun hlt => ne_of_lt hlt)
  refine toList_eq_of_sorted hsorted ?_
  intro n block
  rw [toChain, (foldl_appendBlock blocks .default).2.2, get_foldl_insert _ _ hnodup]
  refine or_iff_left ?_
  rintro ⟨-, hget⟩
  exact absurd hget (by simp [Chain.default])

theorem Executed.contains_toChain (h : Executed blocks) (he : e ∈ blocks) :
    (toChain blocks).blocks.contains e.number = true := by
  have hmem : (e.number, e.recoveredBlock) ∈ (toChain blocks).blocks.toList := by
    rw [h.toList_toChain]
    exact mem_map_of_mem he
  rw [ExtTreeMap.contains_eq_isSome_getElem?, mem_toList.mp hmem]
  rfl

theorem Executed.blockNumber_toChain (h : Executed blocks) (he : e ∈ blocks) :
    (toChain blocks).blockNumber e.hash = some e.number := by
  rw [Chain.blockNumber, h.toList_toChain]
  exact findSome_hash h.hashes he

theorem Executed.tip_toChain (h : Executed blocks) :
    (toChain blocks).tip = blocks.getLast?.map ExecutedBlock.recoveredBlock := by
  rw [Chain.tip, h.toList_toChain, getLast?_map, Option.map_map]
  rfl

end

/-! ## Lookups -/

variable {o : ExecutionOutcome R Q B}

theorem blockNumberToIndex_of_zero (h : o.firstBlock = 0) (n : BlockNumber) :
    o.blockNumberToIndex n = if n ≥ o.receipts.length then none else some n := by
  rw [ExecutionOutcome.blockNumberToIndex, h, if_neg (not_lt_zero n)]
  rfl

/-- An outcome from block 0 on finds receipts at the block's number. -/
theorem receiptsByBlock_of_zero (h : o.firstBlock = 0) (n : BlockNumber) :
    o.receiptsByBlock n = o.receipts.getD n [] := by
  rw [ExecutionOutcome.receiptsByBlock, blockNumberToIndex_of_zero h]
  by_cases hlen : n ≥ o.receipts.length
  · rw [if_pos hlen, getD_eq_default _ _ hlen]
  · rw [if_neg hlen]

variable [Bundle B]

/-- An outcome from block 0 on keeps as many blocks as the number says. -/
theorem revertTo_of_zero (h : o.firstBlock = 0) (n : BlockNumber) :
    (o.revertTo n).2.receipts = o.receipts.take (n + 1) := by
  rw [ExecutionOutcome.revertTo, blockNumberToIndex_of_zero h]
  by_cases hlen : n ≥ o.receipts.length
  · rw [if_pos hlen, take_of_length_le (le_succ_of_le hlen)]
  · rw [if_neg hlen]

variable {blocks : List (ExecutedBlock R Q B)}

/-- **WHAT A NOTIFICATION ANSWERS** for its `i`-th block. -/
theorem Executed.lookups (h : Executed blocks) (hfirst : blocks.head? = some first) {i : Nat}
    (he : blocks[i]? = some e) :
    (toChain blocks).receiptsByBlockHash e.hash
        = some ((blocks.map ExecutedBlock.receipts).getD (first.number + i) []) ∧
      ∃ o, (toChain blocks).executionOutcomeAtBlock e.number = some (some o) ∧
        o.receipts = if i + 1 = blocks.length then blocks.map ExecutedBlock.receipts
          else (blocks.map ExecutedBlock.receipts).take (first.number + i + 1) := by
  have hmem := mem_of_getElem? he
  have hnum := h.number_eq hfirst i he
  refine ⟨?_, ?_⟩
  · rw [Chain.receiptsByBlockHash, h.blockNumber_toChain hmem]
    exact congrArg some ((receiptsByBlock_of_zero (firstBlock_toChain blocks) _).trans
      (by rw [h.receipts_toChain, hnum]))
  · obtain ⟨last, hlast⟩ : ∃ last, blocks.getLast? = some last :=
      ⟨_, getLast?_eq_some_getLast (ne_nil_of_mem hmem)⟩
    have hlastNum : last.number = first.number + (blocks.length - 1) :=
      h.number_eq hfirst _ (by rw [← getLast?_eq_getElem?]; exact hlast)
    obtain ⟨hi, -⟩ := List.getElem?_eq_some_iff.mp he
    -- only the last block has the number of the tip
    have htip : last.recoveredBlock.number = e.number ↔ i + 1 = blocks.length := by
      show last.number = e.number ↔ _
      rw [hlastNum, hnum]
      constructor
      · intro heq
        have := Nat.add_left_cancel heq
        omega
      · intro heq
        rw [show blocks.length - 1 = i by omega]
    rw [Chain.executionOutcomeAtBlock, h.tip_toChain, hlast]
    show ∃ o, (if last.recoveredBlock.number = e.number then _ else _) = some (some o) ∧ _
    by_cases hl : i + 1 = blocks.length
    · rw [if_pos (htip.mpr hl), if_pos hl]
      exact ⟨_, rfl, h.receipts_toChain⟩
    · rw [if_neg fun heq => hl (htip.mp heq), if_neg hl, h.contains_toChain hmem]
      refine ⟨_, rfl, ?_⟩
      rw [revertTo_of_zero (firstBlock_toChain blocks), h.receipts_toChain, hnum]

/-! ## Faithful notifications -/

/-- A chain answers for the blocks it was made from. -/
def Chain.Faithful (c : Chain R Q B) (blocks : List (ExecutedBlock R Q B)) : Prop :=
  ∀ (i : Nat) (e : ExecutedBlock R Q B), blocks[i]? = some e →
    c.receiptsByBlockHash e.hash = some e.receipts ∧
      ∃ o, c.executionOutcomeAtBlock e.number = some (some o) ∧
        o.receipts = (blocks.take (i + 1)).map ExecutedBlock.receipts

/-- Blocks from block 0 on, or a single block without receipts. -/
def FromGenesis (blocks : List (ExecutedBlock R Q B)) : Prop :=
  ∀ first ∈ blocks.head?, first.number = 0 ∨ blocks = [first] ∧ first.receipts = []

theorem Executed.fromGenesis_of_faithful (h : Executed blocks)
    (hf : (toChain blocks).Faithful blocks) : FromGenesis blocks := by
  intro first hfirst
  by_cases hzero : first.number = 0
  · exact .inl hzero
  have hpos : 0 < first.number := pos_of_ne_zero hzero
  have hget : blocks[0]? = some first := by
    rw [← head?_eq_getElem?]
    exact hfirst
  obtain ⟨hreceipts, o, ho, hor⟩ := h.lookups hfirst hget
  obtain ⟨hreceipts', o', ho', hor'⟩ := hf 0 first hget
  rw [hreceipts] at hreceipts'
  obtain rfl : o = o' := Option.some.inj (Option.some.inj (ho.symm.trans ho'))
  match blocks, hfirst with
  | [_], rfl =>
    refine .inr ⟨rfl, ?_⟩
    rw [← Option.some.inj hreceipts']
    exact getD_eq_default _ _ hpos
  | _ :: c :: rest, rfl =>
    -- the outcome at the first block holds at least two blocks
    rw [if_neg (by simp)] at hor
    have hlen := congrArg length (hor.symm.trans hor')
    rw [length_take, length_map, length_map, length_take] at hlen
    have htwo : 2 ≤ min (first.number + 0 + 1) (first :: c :: rest).length :=
      Nat.le_min.mpr ⟨succ_le_succ hpos, Nat.le_add_left 2 _⟩
    rw [hlen] at htwo
    exact absurd (le_trans htwo (min_le_left ..)) (by decide)

theorem Executed.faithful_of_fromGenesis (h : Executed blocks) (hg : FromGenesis blocks) :
    (toChain blocks).Faithful blocks := by
  intro i e he
  obtain ⟨hi, heq⟩ := List.getElem?_eq_some_iff.mp he
  obtain ⟨first, hfirst⟩ : ∃ first, blocks.head? = some first :=
    ⟨_, head?_eq_some_head (ne_nil_of_mem (mem_of_getElem? he))⟩
  obtain ⟨hreceipts, o, ho, hor⟩ := h.lookups hfirst he
  rcases hg first hfirst with hzero | ⟨rfl, hempty⟩
  · rw [hzero, zero_add] at hreceipts hor
    refine ⟨hreceipts.trans (congrArg some ?_), o, ho, hor.trans ?_⟩
    · rw [getD_eq_getElem?_getD, getElem?_map, he]
      rfl
    · rw [map_take]
      by_cases hl : i + 1 = blocks.length
      · rw [if_pos hl, take_of_length_le (by rw [length_map, hl])]
      · rw [if_neg hl]
  · obtain rfl : i = 0 := lt_one_iff.mp hi
    obtain rfl : first = e := heq
    refine ⟨hreceipts.trans (congrArg some ?_), o, ho, hor⟩
    rw [hempty, map_singleton, hempty]
    cases first.number + 0 with
    | zero | succ n => rfl

theorem Executed.faithful_iff (h : Executed blocks) :
    (toChain blocks).Faithful blocks ↔ FromGenesis blocks :=
  ⟨h.fromGenesis_of_faithful, h.faithful_of_fromGenesis⟩

/-- Every chain of blocks in an update meets a condition. -/
def CanonicalUpdate.All (P : List (ExecutedBlock R Q B) → Prop) : CanonicalUpdate R Q B → Prop
  | .commit new => P new
  | .reorg new old => P new ∧ P old

/-- The chains of a notification answer for the blocks of the update. -/
def CanonStateNotification.Faithful : CanonStateNotification R Q B → CanonicalUpdate R Q B → Prop
  | .commit c, .commit new => c.Faithful new
  | .reorg c c', .reorg new old => c.Faithful new ∧ c'.Faithful old
  | _, _ => False

/-- **NOTIFICATIONS** answer for exactly the chains that start at block 0 or are one block without
    receipts. -/
theorem toChainNotification_faithful_iff {update : CanonicalUpdate R Q B}
    (h : update.All Executed) :
    update.toChainNotification.Faithful update ↔ update.All FromGenesis := by
  cases update with
  | commit new => exact Executed.faithful_iff h
  | reorg new old => exact and_congr h.1.faithful_iff h.2.faithful_iff

/-- A bundle without contents. -/
instance : Bundle Unit where
  default := ()
  extend _ _ := ()
  revert _ _ := ()

/-- A block and its receipts. -/
def sampleBlock (number : BlockNumber) (receipts : List Nat) : ExecutedBlock Nat Nat Unit :=
  ⟨⟨100 + number, 99 + number, number⟩, ⟨(), [receipts], number, []⟩⟩

/-- Block 1 is notified without its receipt. -/
theorem receipts_missing_in_notification :
    (CanonicalUpdate.commit [sampleBlock 1 [7]]).All Executed ∧
      ∃ c, (CanonicalUpdate.commit [sampleBlock 1 [7]]).toChainNotification = .commit c ∧
        c.receiptsByBlockHash 101 = some [] := by
  refine ⟨⟨.singleton _, by decide, ?_⟩, _, rfl, by decide +kernel⟩
  intro b hb
  rw [mem_singleton.mp hb]
  exact ⟨rfl, [7], rfl⟩

theorem toChainNotification_faithful_iff_sample :
    (CanonicalUpdate.commit [sampleBlock 0 [7], sampleBlock 1 [8, 9]]).toChainNotification.Faithful
      (.commit [sampleBlock 0 [7], sampleBlock 1 [8, 9]]) := by
  have hexec : Executed [sampleBlock 0 [7], sampleBlock 1 [8, 9]] := by
    refine ⟨by decide, by decide, ?_⟩
    intro b hb
    rcases mem_cons.mp hb with rfl | hb
    · exact ⟨rfl, [7], rfl⟩
    · rw [mem_singleton.mp hb]
      exact ⟨rfl, [8, 9], rfl⟩
  have hgenesis : FromGenesis [sampleBlock 0 [7], sampleBlock 1 [8, 9]] := by
    rintro first ⟨⟩
    exact .inl rfl
  exact (toChainNotification_faithful_iff (show CanonicalUpdate.All Executed (.commit _) from
    hexec)).mpr hgenesis

end ChainState

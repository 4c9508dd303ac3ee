import Pasifika.ChainState.InMemory
import Pasifika.Engine.TreeState

/-! # The engine's tree handler and its persistence service

`EngineApiTreeHandler` keeps the executed blocks in a tree, moves the canonical
head on forkchoice updates, and hands canonical blocks to a PERSISTENCE SERVICE,
which runs on its own. The service takes actions from a channel in order; the
handler waits for the answer to the last one it sent.

Blocks are read through a provider: the chain of the in-memory state first, then
the blocks on disk. -/

namespace Engine

open Std ChainState

variable {T : Type}

/-! ## Persistence -/

/-- `PersistenceAction`, as far as it concerns blocks. -/
inductive PersistenceAction (T : Type) where
  | saveBlocks (blocks : List (ExecutedBlockWithTrieUpdates T))
  | removeBlocksAbove (newTipNum : BlockNumber)

inductive CurrentPersistenceAction where
  | savingBlocks (highest : BlockNumHash)
  | removingBlocks (newTipNum : BlockNumber)
deriving DecidableEq, Repr

/-- `PersistenceState`; the receiver is the index of the action whose answer it waits for. -/
structure PersistenceState where
  lastPersistedBlock : BlockNumHash
  rx : Option (Nat × CurrentPersistenceAction)
deriving DecidableEq, Repr

namespace PersistenceState

def inProgress (p : PersistenceState) : Bool := p.rx.isSome

def finish (_ : PersistenceState) (lastPersistedBlock : BlockNumHash) : PersistenceState :=
  ⟨lastPersistedBlock, none⟩

end PersistenceState

/-- `PersistenceService`: the blocks on disk, newest first, the actions not taken yet, and the
    answers. -/
structure PersistenceService (T : Type) where
  disk : List RecoveredBlock
  incoming : List (PersistenceAction T)
  replies : List (Option BlockNumHash)

namespace PersistenceService

/-- `next_block_number` of the static files. -/
def nextBlockNumber (disk : List RecoveredBlock) : BlockNumber :=
  disk.head?.elim 0 (fun b => b.number + 1)

/-- `save_blocks`; a block that is not the next one, or has no trie updates, is an error. -/
def saveBlocks : List (ExecutedBlockWithTrieUpdates T) → List RecoveredBlock →
    Option (List RecoveredBlock)
  | [], disk => some disk
  | block :: blocks, disk =>
    if block.number = nextBlockNumber disk ∧ block.trie.isSome then
      saveBlocks blocks (block.recoveredBlock :: disk)
    else none

/-- `remove_block_and_execution_above`. -/
def removeAbove (newTipNum : BlockNumber) (disk : List RecoveredBlock) : List RecoveredBlock :=
  disk.filter (fun b => decide (b.number ≤ newTipNum))

/-- One round of `run`: `on_save_blocks` or `on_remove_blocks_above`, and the answer. -/
def run (s : PersistenceService T) : Option (PersistenceService T) :=
  match s.incoming with
  | [] => none
  | .saveBlocks blocks :: incoming => do
      let disk ← saveBlocks blocks s.disk
      some ⟨disk, incoming, s.replies ++ [blocks.getLast?.map (fun b => b.recoveredBlock.numHash)]⟩
  | .removeBlocksAbove newTipNum :: incoming =>
    let newTip := s.disk.find? (fun b => b.number == newTipNum)
    some ⟨removeAbove newTipNum s.disk, incoming,
      s.replies ++ [newTip.map RecoveredBlock.numHash]⟩

/-- The number of actions that were sent. -/
def sent (s : PersistenceService T) : Nat := s.replies.length + s.incoming.length

def send (s : PersistenceService T) (action : PersistenceAction T) : PersistenceService T :=
  { s with incoming := s.incoming ++ [action] }

end PersistenceService

/-! ## The handler -/

/-- `TreeConfig`, as far as it concerns the canonical head and persistence. -/
structure TreeConfig where
  persistenceThreshold : Nat
  memoryBlockBufferTarget : Nat
  alwaysProcessPayloadAttributesOnCanonicalHead : Bool
  unwindCanonicalHeader : Bool
deriving DecidableEq, Repr

/-- `EngineApiTreeHandler`; `trieUpdates` is what the state root calculation gives for a block. -/
structure EngineApiTreeHandler (T : Type) where
  treeState : TreeState T
  persistenceState : PersistenceState
  canonicalInMemoryState : InMemoryState T
  lastValidFinalized : Option BlockHash
  service : PersistenceService T
  config : TreeConfig
  trieUpdates : RecoveredBlock → T

end Engine

namespace ChainState.InMemoryState

open Engine

variable {T : Type}

def stateByNumber (s : InMemoryState T) (number : BlockNumber) : Option (BlockState T) := do
  let hash ← s.numbers[number]?
  s.blocks[hash]?

def headState (s : InMemoryState T) : Option (BlockState T) := do
  let last ← s.numbers.toList.getLast?
  s.blocks[last.2]?

def headerByHash (s : InMemoryState T) (hash : BlockHash) : Option RecoveredBlock :=
  s.blocks[hash]?.map (fun st => st.block.recoveredBlock)

end ChainState.InMemoryState

namespace Engine

open Std ChainState

variable {T : Type}

namespace EngineApiTreeHandler

/-- `EngineApiTreeHandler::new`; the newest block on disk is the canonical head. -/
def new (tip : RecoveredBlock) (below : List RecoveredBlock) (engineKind : EngineApiKind)
    (config : TreeConfig) (trieUpdates : RecoveredBlock → T) : EngineApiTreeHandler T where
  treeState := .new tip.numHash engineKind
  persistenceState := ⟨tip.numHash, none⟩
  canonicalInMemoryState := .empty
  lastValidFinalized := none
  service := ⟨tip :: below, [], []⟩
  config := config
  trieUpdates := trieUpdates

/-! ### Reading blocks -/

/-- `header` of the provider. -/
def providerHeader (s : EngineApiTreeHandler T) (hash : BlockHash) : Option RecoveredBlock :=
  match s.canonicalInMemoryState.headState.bind
      (fun head => head.chain.find? (fun st => st.hash == hash)) with
  | some st => some st.block.recoveredBlock
  | none => s.service.disk.find? (fun b => b.hash == hash)

def sealedHeaderByHash (s : EngineApiTreeHandler T) (hash : BlockHash) : Option RecoveredBlock :=
  match s.treeState.blocksByHash[hash]? with
  | some executed => some executed.recoveredBlock
  | none => s.providerHeader hash

/-- `canonical_block_by_hash`, which looks for the block where its header is. -/
def canonicalBlockByHash (s : EngineApiTreeHandler T) (hash : BlockHash) : Option RecoveredBlock :=
  s.sealedHeaderByHash hash

def findCanonicalHeader (s : EngineApiTreeHandler T) (hash : BlockHash) : Option RecoveredBlock :=
  match s.canonicalInMemoryState.headerByHash hash with
  | some header => some header
  | none => s.providerHeader hash

/-! ### Inserting blocks -/

/-- Insert an executed block, as the pending one if it is on top of the canonical head. -/
def insertPending (s : EngineApiTreeHandler T) (executed : ExecutedBlockWithTrieUpdates T) :
    EngineApiTreeHandler T :=
  { s with
    treeState := s.treeState.insertExecuted executed
    canonicalInMemoryState :=
      if s.treeState.currentCanonicalHead.hash = executed.parentHash then
        s.canonicalInMemoryState.setPendingBlock executed
      else s.canonicalInMemoryState }

/-- `insert_block_or_payload`: a known block is skipped, and one without a known parent is buffered.
    -/
def insertBlock (s : EngineApiTreeHandler T) (executed : ExecutedBlockWithTrieUpdates T) :
    EngineApiTreeHandler T :=
  if (s.sealedHeaderByHash executed.hash).isSome then s
  else if (s.sealedHeaderByHash executed.parentHash).isNone then s
  else s.insertPending executed

/-- `InsertExecutedBlock`. -/
def insertExecutedBlock (s : EngineApiTreeHandler T) (executed : ExecutedBlockWithTrieUpdates T) :
    EngineApiTreeHandler T :=
  if executed.number ≤ s.treeState.currentCanonicalHead.number then s
  else s.insertPending executed

/-! ### The canonical head -/

/-- The new chain above the canonical height, oldest first, and the hash and number below it; `none`
    if a block is missing. -/
def walkNew (t : TreeState T) (canonicalNumber : BlockNumber) : Nat → BlockHash → BlockNumber →
    List (ExecutedBlockWithTrieUpdates T) →
    Option (Option (List (ExecutedBlockWithTrieUpdates T) × BlockHash × BlockNumber))
  | 0, _, _, _ => none
  | fuel + 1, currentHash, currentNumber, newChain =>
    if canonicalNumber < currentNumber then
      match t.blocksByHash[currentHash]? with
      | none => some none
      | some block =>
        walkNew t canonicalNumber fuel block.parentHash (currentNumber - 1) (block :: newChain)
    else some (some (newChain, currentHash, currentNumber))

/-- The old chain above the number that the new chain was followed to. -/
def walkOld (s : EngineApiTreeHandler T) (currentNumber : BlockNumber) : Nat → BlockHash →
    BlockNumber → List RecoveredBlock → Option (Option (List RecoveredBlock × BlockHash))
  | 0, _, _, _ => none
  | fuel + 1, oldHash, canonicalNumber, oldChain =>
    if currentNumber < canonicalNumber then
      match s.canonicalBlockByHash oldHash with
      | none => some none
      | some block =>
        s.walkOld currentNumber fuel block.parentHash (canonicalNumber - 1) (block :: oldChain)
    else some (some (oldChain, oldHash))

/-- Both chains down to the block they fork from. -/
def walkFork (s : EngineApiTreeHandler T) : Nat → BlockHash → BlockHash →
    List (ExecutedBlockWithTrieUpdates T) → List RecoveredBlock →
    Option (Option (NewCanonicalChain T))
  | 0, _, _, _, _ => none
  | fuel + 1, oldHash, currentHash, newChain, oldChain =>
    if oldHash = currentHash then some (some (.reorg newChain oldChain))
    else
      match s.canonicalBlockByHash oldHash, s.treeState.blocksByHash[currentHash]? with
      | some old, some new =>
        s.walkFork fuel old.parentHash new.parentHash (new :: newChain) (old :: oldChain)
      | _, _ => some none

/-- `on_new_head`; no block of the tree has the number 0. -/
def onNewHead (fuel : Nat) (s : EngineApiTreeHandler T) (newHead : BlockHash) :
    Option (Option (NewCanonicalChain T)) :=
  match s.treeState.blocksByHash[newHead]? with
  | none => some none
  | some newHeadBlock =>
    let head := s.treeState.currentCanonicalHead
    match walkNew s.treeState head.number fuel newHeadBlock.parentHash (newHeadBlock.number - 1)
        [newHeadBlock] with
    | none => none
    | some none => some none
    | some (some (newChain, currentHash, currentNumber)) =>
      if currentHash = head.hash then some (some (.commit newChain))
      else
        match s.walkOld currentNumber fuel head.hash head.number [] with
        | none => none
        | some none => some none
        | some (some (oldChain, oldHash)) => s.walkFork fuel oldHash currentHash newChain oldChain

def onCanonicalChainUpdate (s : EngineApiTreeHandler T) (chainUpdate : NewCanonicalChain T) :
    Option (EngineApiTreeHandler T) := do
  let treeState ← s.treeState.onCanonicalChainUpdate chainUpdate
  some { s with
    treeState
    canonicalInMemoryState := s.canonicalInMemoryState.updateChain chainUpdate }

def makeCanonical (fuel : Nat) (s : EngineApiTreeHandler T) (target : BlockHash) :
    Option (EngineApiTreeHandler T) := do
  match ← s.onNewHead fuel target with
  | none => some s
  | some chainUpdate => s.onCanonicalChainUpdate chainUpdate

def collectBlocksForCanonicalUnwind (s : EngineApiTreeHandler T)
    (newHeadNumber currentHeadNumber : BlockNumber) : List RecoveredBlock :=
  (List.range' (newHeadNumber + 1) (currentHeadNumber - newHeadNumber)).filterMap (fun number =>
    (s.canonicalInMemoryState.stateByNumber number).map (fun st => st.block.recoveredBlock))

/-- `update_latest_block_to_canonical_ancestor`, with the two cases it is split into. -/
def updateLatestBlockToCanonicalAncestor (s : EngineApiTreeHandler T)
    (canonicalHeader : RecoveredBlock) : EngineApiTreeHandler T :=
  let currentHeadNumber := s.treeState.currentCanonicalHead.number
  let s := { s with treeState := s.treeState.setCanonicalHead canonicalHeader.numHash }
  let executedBlock := s.canonicalBlockByHash canonicalHeader.hash
  { s with
    canonicalInMemoryState :=
      if canonicalHeader.number < currentHeadNumber then
        -- `handle_canonical_chain_unwind`
        match executedBlock with
        | none => s.canonicalInMemoryState
        | some block => s.canonicalInMemoryState.updateChain (.reorg [⟨block, none⟩]
            (s.collectBlocksForCanonicalUnwind canonicalHeader.number currentHeadNumber))
      else
        -- `handle_chain_advance_or_same_height`
        match s.canonicalInMemoryState.stateByNumber canonicalHeader.number, executedBlock with
        | none, some block => s.canonicalInMemoryState.updateChain (.commit [⟨block, none⟩])
        | _, _ => s.canonicalInMemoryState }

/-- Whether a forkchoice update to a canonical block moves the head back to it. -/
def unwinds (s : EngineApiTreeHandler T) (attrs : Bool) : Bool :=
  (s.treeState.engineKind == .opStack ||
      s.config.alwaysProcessPayloadAttributesOnCanonicalHead) &&
    !attrs && s.config.unwindCanonicalHeader

/-- `on_forkchoice_updated` for the canonical head; `attrs` says whether there are payload
    attributes. -/
def onForkchoiceUpdated (fuel : Nat) (s : EngineApiTreeHandler T) (headBlockHash : BlockHash)
    (attrs : Bool) : Option (EngineApiTreeHandler T) :=
  if s.treeState.currentCanonicalHead.hash = headBlockHash then some s
  else
    match s.findCanonicalHeader headBlockHash with
    | some canonicalHeader =>
      some (if s.unwinds attrs then s.updateLatestBlockToCanonicalAncestor canonicalHeader else s)
    | none => s.makeCanonical fuel headBlockHash

/-! ### Persisting blocks -/

/-- `parent_num_hash` of a block that can be read. -/
def parentNumHash (s : EngineApiTreeHandler T) (numHash : BlockNumHash) : Option BlockNumHash :=
  (s.sealedHeaderByHash numHash.hash).map BlockState.parentNumHash

/-- Walk back to a number. -/
def walkTo (s : EngineApiTreeHandler T) (number : BlockNumber) : Nat → BlockNumHash →
    Option BlockNumHash
  | 0, _ => none
  | fuel + 1, numHash =>
    if number < numHash.number then (s.parentNumHash numHash).bind (s.walkTo number fuel)
    else some numHash

/-- Walk both chains back to a common ancestor. -/
def walkCommon (s : EngineApiTreeHandler T) : Nat → BlockNumHash → BlockNumHash →
    Option BlockNumHash
  | 0, _, _ => none
  | fuel + 1, canonical, persisted =>
    if persisted.hash ≠ canonical.hash then do
      let canonical ← s.parentNumHash canonical
      let persisted ← s.parentNumHash persisted
      s.walkCommon fuel canonical persisted
    else some persisted

/-- `find_disk_reorg`; a block that cannot be read is an error. -/
def findDiskReorg (fuel : Nat) (s : EngineApiTreeHandler T) : Option (Option BlockNumber) := do
  let persisted := s.persistenceState.lastPersistedBlock
  let canonical ← s.walkTo persisted.number fuel s.treeState.currentCanonicalHead
  if canonical = persisted then some none
  else
    let persisted ← s.walkTo canonical.number fuel persisted
    let common ← s.walkCommon fuel canonical persisted
    some (some common.number)

/-- Send an action and wait for its answer. -/
def start (s : EngineApiTreeHandler T) (action : PersistenceAction T)
    (current : CurrentPersistenceAction) : EngineApiTreeHandler T :=
  { s with
    service := s.service.send action
    persistenceState := { s.persistenceState with rx := some (s.service.sent, current) } }

def removeBlocks (s : EngineApiTreeHandler T) (newTipNum : BlockNumber) : EngineApiTreeHandler T :=
  if newTipNum < s.persistenceState.lastPersistedBlock.number then
    s.start (.removeBlocksAbove newTipNum) (.removingBlocks newTipNum)
  else s

/-- `persist_blocks`; `max_by_key` finds the last of the highest blocks. -/
def persistBlocks (s : EngineApiTreeHandler T) :
    List (ExecutedBlockWithTrieUpdates T) → EngineApiTreeHandler T
  | [] => s
  | block :: blocks =>
    let highest := blocks.foldl (fun m b => if m.number ≤ b.number then b else m) block
    s.start (.saveBlocks (block :: blocks)) (.savingBlocks highest.recoveredBlock.numHash)

def shouldPersist (s : EngineApiTreeHandler T) : Bool :=
  decide (s.treeState.currentCanonicalHead.number - s.persistenceState.lastPersistedBlock.number >
    s.config.persistenceThreshold)

/-- The walk of `get_canonical_blocks_to_persist`; blocks are collected oldest first. -/
def blocksToPersistLoop (t : TreeState T) (lastPersistedNumber targetNumber : BlockNumber) :
    Nat → BlockHash → List (ExecutedBlockWithTrieUpdates T) →
    Option (List (ExecutedBlockWithTrieUpdates T))
  | 0, _, _ => none
  | fuel + 1, currentHash, blocks =>
    match t.blocksByHash[currentHash]? with
    | none => some blocks
    | some block =>
      if block.number ≤ lastPersistedNumber then some blocks
      else
        blocksToPersistLoop t lastPersistedNumber targetNumber fuel block.parentHash
          (if block.number ≤ targetNumber then block :: blocks else blocks)

/-- The trie updates of the blocks that miss them, also in the tree; the parent must be known. -/
def calculateTrieUpdates (s : EngineApiTreeHandler T) : List (ExecutedBlockWithTrieUpdates T) →
    Option (List (ExecutedBlockWithTrieUpdates T) × EngineApiTreeHandler T)
  | [] => some ([], s)
  | block :: blocks =>
    match block.trie with
    | some _ => do
        let r ← s.calculateTrieUpdates blocks
        some (block :: r.1, r.2)
    | none =>
      if (s.sealedHeaderByHash block.parentHash).isNone then none
      else do
        let block := { block with trie := some (s.trieUpdates block.recoveredBlock) }
        let treeState :=
          { s.treeState with blocksByHash := s.treeState.blocksByHash.insert block.hash block }
        let r ← { s with treeState }.calculateTrieUpdates blocks
        some (block :: r.1, r.2)

def getCanonicalBlocksToPersist (fuel : Nat) (s : EngineApiTreeHandler T) :
    Option (List (ExecutedBlockWithTrieUpdates T) × EngineApiTreeHandler T) := do
  let head := s.treeState.currentCanonicalHead
  let allBlocksHaveTrieUpdates :=
    s.treeState.blocksByHash.toList.all (fun e => e.2.trie.isSome)
  let targetNumber :=
    if allBlocksHaveTrieUpdates then head.number - s.config.memoryBlockBufferTarget
    else head.number
  let blocksToPersist ← blocksToPersistLoop s.treeState
    s.persistenceState.lastPersistedBlock.number targetNumber fuel head.hash []
  s.calculateTrieUpdates blocksToPersist

def removeBefore (fuel : Nat) (s : EngineApiTreeHandler T) (upperBound : BlockNumHash)
    (finalizedHash : Option BlockHash) : Option (EngineApiTreeHandler T) := do
  let finalized := finalizedHash.bind (fun hash =>
    (s.providerHeader hash).map (fun header => (⟨header.number, hash⟩ : BlockNumHash)))
  let treeState ← s.treeState.removeUntil fuel upperBound
    s.persistenceState.lastPersistedBlock.hash finalized
  some { s with treeState }

def onNewPersistedBlock (fuel : Nat) (s : EngineApiTreeHandler T) :
    Option (EngineApiTreeHandler T) := do
  match ← s.findDiskReorg fuel with
  | some removeAbove => some (s.removeBlocks removeAbove)
  | none =>
    let s ← s.removeBefore fuel s.persistenceState.lastPersistedBlock s.lastValidFinalized
    some { s with
      canonicalInMemoryState :=
        s.canonicalInMemoryState.removePersistedBlocks s.persistenceState.lastPersistedBlock }

/-- The second half of `advance_persistence`: start an action if none is in progress. -/
def startPersistence (fuel : Nat) (s : EngineApiTreeHandler T) : Option (EngineApiTreeHandler T) :=
  if s.persistenceState.inProgress then some s
  else do
    match ← s.findDiskReorg fuel with
    | some newTipNum => some (s.removeBlocks newTipNum)
    | none =>
      if s.shouldPersist then
        let r ← s.getCanonicalBlocksToPersist fuel
        some (r.2.persistBlocks r.1)
      else some s

def advancePersistence (fuel : Nat) (s : EngineApiTreeHandler T) :
    Option (EngineApiTreeHandler T) :=
  match s.persistenceState.rx with
  | none => s.startPersistence fuel
  | some (index, _) =>
    match s.service.replies[index]? with
    | none => s.startPersistence fuel
    -- the action persisted no blocks
    | some none => some { s with persistenceState := { s.persistenceState with rx := none } }
    | some (some lastPersisted) => do
        let s := { s with persistenceState := s.persistenceState.finish lastPersisted }
        (← s.onNewPersistedBlock fuel).startPersistence fuel

/-! ### Runs -/

/-- What can happen to the handler and the service, in any order. -/
inductive Op (T : Type) where
  | insertBlock (executed : ExecutedBlockWithTrieUpdates T)
  | insertExecutedBlock (executed : ExecutedBlockWithTrieUpdates T)
  | onForkchoiceUpdated (headBlockHash : BlockHash) (attrs : Bool)
  | makeCanonical (target : BlockHash)
  | trackForkchoice (lastValidFinalized : Option BlockHash)
  | advancePersistence
  | runService

/-- The state after an operation; `fuel` bounds the walks. After an error there is none. -/
def apply (fuel : Nat) (s : EngineApiTreeHandler T) : Op T → Option (EngineApiTreeHandler T)
  | .insertBlock executed => some (s.insertBlock executed)
  | .insertExecutedBlock executed => some (s.insertExecutedBlock executed)
  | .onForkchoiceUpdated headBlockHash attrs => s.onForkchoiceUpdated fuel headBlockHash attrs
  | .makeCanonical target => s.makeCanonical fuel target
  | .trackForkchoice lastValidFinalized => some { s with lastValidFinalized }
  | .advancePersistence => s.advancePersistence fuel
  | .runService => s.service.run.map (fun service => { s with service })

def Step (s : EngineApiTreeHandler T) (op : Op T) (s' : EngineApiTreeHandler T) : Prop :=
  ∃ fuel, s.apply fuel op = some s'

end EngineApiTreeHandler

end Engine

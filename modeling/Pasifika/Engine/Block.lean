import Pasifika.OrderedMap.Groups

/-! # Blocks

What the engine reads of the blocks it keeps. Hashes and numbers are natural
numbers; trie updates are values of an arbitrary type, which are only passed
on. -/

namespace Engine

open Std

abbrev BlockHash := Nat

abbrev BlockNumber := Nat

/-- A `HashSet<BlockHash>`. -/
abbrev BlockHashes := ExtTreeSet BlockHash

structure RecoveredBlock where
  hash : BlockHash
  parentHash : BlockHash
  number : BlockNumber
deriving DecidableEq, Repr

structure BlockNumHash where
  number : BlockNumber
  hash : BlockHash
deriving DecidableEq, Repr

def RecoveredBlock.numHash (block : RecoveredBlock) : BlockNumHash := ⟨block.number, block.hash⟩

/-- `ExecutedBlockWithTrieUpdates`; the updates may be missing. -/
structure ExecutedBlockWithTrieUpdates (T : Type) where
  recoveredBlock : RecoveredBlock
  trie : Option T
deriving DecidableEq, Repr

namespace ExecutedBlockWithTrieUpdates

variable {T : Type}

def hash (e : ExecutedBlockWithTrieUpdates T) : BlockHash := e.recoveredBlock.hash

def parentHash (e : ExecutedBlockWithTrieUpdates T) : BlockHash := e.recoveredBlock.parentHash

def number (e : ExecutedBlockWithTrieUpdates T) : BlockNumber := e.recoveredBlock.number

end ExecutedBlockWithTrieUpdates

/-- `NewCanonicalChain`: blocks on the canonical head, or a reorg; blocks that leave carry no
    updates. -/
inductive NewCanonicalChain (T : Type) where
  | commit (new : List (ExecutedBlockWithTrieUpdates T))
  | reorg (new : List (ExecutedBlockWithTrieUpdates T)) (old : List RecoveredBlock)

/-- `NewCanonicalChain::tip`; an update has at least one new block. -/
def NewCanonicalChain.tip {T : Type} : NewCanonicalChain T → Option RecoveredBlock
  | .commit new => new.getLast?.map ExecutedBlockWithTrieUpdates.recoveredBlock
  | .reorg new _ => new.getLast?.map ExecutedBlockWithTrieUpdates.recoveredBlock

end Engine

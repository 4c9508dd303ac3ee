import Mathlib

/-! # Notifications to execution extensions

A notification says that blocks were committed on top of the canonical chain, that its
last blocks were reverted, or both at once. `Notification.apply` is what a notification
makes of a chain, and a list of notifications is a HISTORY if each applies to the chain
that the ones before it left. -/

namespace ExEx

/-- A block, by its number, its hash and the hash of its parent. -/
structure Block where
  number : ℕ
  hash : ℕ
  parentHash : ℕ
  deriving DecidableEq

structure BlockNumHash where
  number : ℕ
  hash : ℕ
  deriving DecidableEq

def Block.numHash (b : Block) : BlockNumHash := ⟨b.number, b.hash⟩

/-- `Chain`: blocks in the order of their numbers; there is at least one. -/
structure Chain where
  blocks : List Block
  ne_nil : blocks ≠ []
  deriving DecidableEq

namespace Chain

def tip (c : Chain) : Block := c.blocks.getLast c.ne_nil

end Chain

/-- `ExExNotification`. -/
inductive Notification
  | chainCommitted (new : Chain)
  | chainReorged (old new : Chain)
  | chainReverted (old : Chain)
  deriving DecidableEq

namespace Notification

def committedChain : Notification → Option Chain
  | chainCommitted new => some new
  | chainReorged _ new => some new
  | chainReverted _ => none

def revertedChain : Notification → Option Chain
  | chainCommitted _ => none
  | chainReorged old _ => some old
  | chainReverted old => some old

/-- The blocks that a notification commits. -/
def committedBlocks (n : Notification) : List Block := n.committedChain.elim [] (·.blocks)

end Notification

/-! ## Histories -/

/-- A block is the child of another one. -/
def Block.IsChildOf (b parent : Block) : Prop :=
  b.parentHash = parent.hash ∧ b.number = parent.number + 1

instance (b parent : Block) : Decidable (b.IsChildOf parent) := inferInstanceAs (Decidable (_ ∧ _))

/-- The blocks follow one another. -/
def linked (blocks : List Block) : Bool :=
  (blocks.zip blocks.tail).all (fun p => decide (p.2.IsChildOf p.1))

/-- Blocks on top of a chain. -/
def extend (chain new : List Block) : Option (List Block) :=
  if linked (chain.getLast?.toList ++ new) then some (chain ++ new) else none

/-- A chain without its last blocks. -/
def revert (chain old : List Block) : Option (List Block) :=
  if old <:+ chain then some (chain.take (chain.length - old.length)) else none

/-- **WHAT A NOTIFICATION MAKES OF A CHAIN**, if it applies. -/
def Notification.apply (chain : List Block) : Notification → Option (List Block)
  | .chainCommitted new => extend chain new.blocks
  | .chainReverted old => revert chain old.blocks
  | .chainReorged old new => (revert chain old.blocks).bind (extend · new.blocks)

/-- The chain after notifications. -/
def replay (chain : List Block) (notifications : List Notification) : Option (List Block) :=
  notifications.foldlM Notification.apply chain

theorem replay_take (h : replay chain l = some chain') (k : ℕ) :
    ∃ c, replay chain (l.take k) = some c := by
  rw [← List.take_append_drop k l, replay, List.foldlM_append] at h
  obtain ⟨c, hc, -⟩ := Option.bind_eq_some_iff.mp h
  exact ⟨c, hc⟩

/-- Two blocks on top of a genesis block, and one that takes the place of the first. -/
def sampleChain : Chain := ⟨[⟨1, 1, 0⟩, ⟨2, 2, 1⟩], by decide⟩

def sampleFork : Chain := ⟨[⟨1, 3, 0⟩], by decide⟩

end ExEx

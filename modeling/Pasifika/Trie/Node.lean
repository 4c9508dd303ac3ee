import Pasifika.Trie.Nibbles
import Pasifika.Patricia.Build

/-! # Nodes of a Merkle Patricia trie

The node types of the trie library, with their ENCODING as a parameter: `Codec` has
the encoder and decoder of nodes, and the hash function. A node is referenced by its
encoding if that is short, and by the hash of it otherwise.

  * `rlpNode` is the reference of the node at the top of a Patricia tree;
  * `mptRoot` is the root hash of a map: that of its tree. -/

namespace Trie

open Std Patricia

/-! ## Masks -/

/-- `TrieMask`: a bit for each nibble. -/
abbrev TrieMask := Fin 16 → Bool

namespace TrieMask

/-- The nibbles in `CHILD_INDEX_RANGE` whose bit is set. -/
def bits (m : TrieMask) : List (Fin 16) := (List.finRange 16).filter m

def default : TrieMask := fun _ => false

def setBit (m : TrieMask) (i : Fin 16) : TrieMask := Function.update m i true

def unsetBit (m : TrieMask) (i : Fin 16) : TrieMask := Function.update m i false

def countBits (m : TrieMask) : ℕ := m.bits.length

def firstSetBitIndex (m : TrieMask) : Option (Fin 16) := m.bits.head?

def isEmpty (m : TrieMask) : Bool := m.bits.isEmpty

theorem mem_bits {m : TrieMask} {i : Fin 16} : i ∈ m.bits ↔ m i = true := by
  simp [bits]

theorem nodup_bits (m : TrieMask) : m.bits.Nodup := (List.nodup_finRange 16).filter _

end TrieMask

/-! ## Nodes and their encodings -/

/-- `RlpNode`: how a node is referenced, by its encoding or by its hash. -/
inductive RlpNode (B H : Type) where
  | raw (rlp : B)
  | word (hash : H)
deriving DecidableEq

namespace RlpNode

variable {B H : Type}

def asHash : RlpNode B H → Option H
  | raw _ => none
  | word hash => some hash

theorem asHash_eq_some {hash : H} : r.asHash = some hash ↔ r = word hash := by
  cases r with
  | raw rlp | word hash' => simp [asHash]

end RlpNode

inductive TrieNode (V B H : Type) where
  | emptyRoot
  | branch (stack : List (RlpNode B H)) (stateMask : TrieMask)
  | extension (key : Nibbles) (child : RlpNode B H)
  | leaf (key : Nibbles) (value : V)

/-- A branch has a child for each bit of its mask. -/
def TrieNode.WellFormed {V B H : Type} : TrieNode V B H → Prop
  | .branch stack stateMask => stack.length = stateMask.countBits
  | _ => True

/-- The encoding of nodes, and the hash of encodings. -/
structure Codec (V B H : Type) where
  encode : TrieNode V B H → B
  decode : B → Option (TrieNode V B H)
  isShort : B → Bool
  keccak256 : B → H
  emptyRootHash : H
  decode_encode : ∀ node, node.WellFormed → decode (encode node) = some node

namespace Codec

variable {V B H : Type} (c : Codec V B H)

/-- `RlpNode::from_rlp`. -/
def fromRlp (rlp : B) : RlpNode B H :=
  if c.isShort rlp then .raw rlp else .word (c.keccak256 rlp)

/-- `rlp` of a node reference. -/
def rlp (node : TrieNode V B H) : RlpNode B H := c.fromRlp (c.encode node)

/-! ## The tree of a map -/

/-- The mask of subtrees that are not empty. -/
def stateMask (children : Fin 16 → Tree 16 V) : TrieMask := fun i => !(children i).isEmpty

/-- The reference of the node at the top of a tree. -/
def rlpNode : Tree 16 V → RlpNode B H
  | .empty => .word c.emptyRootHash
  | .leaf key value => c.rlp (.leaf key value)
  | .ext key child => c.rlp (.extension key (rlpNode child))
  | .branch children =>
    c.rlp (.branch ((stateMask children).bits.map (fun i => rlpNode (children i)))
      (stateMask children))

/-- The node at the top of a tree. -/
def trieNode : Tree 16 V → TrieNode V B H
  | .empty => .emptyRoot
  | .leaf key value => .leaf key value
  | .ext key child => .extension key (c.rlpNode child)
  | .branch children =>
    .branch ((stateMask children).bits.map (fun i => c.rlpNode (children i)))
      (stateMask children)

theorem decode_trieNode (t : Tree 16 V) :
    c.decode (c.encode (c.trieNode t)) = some (c.trieNode t) := by
  refine c.decode_encode _ ?_
  cases t with
  | branch children => exact List.length_map _
  | _ => trivial

/-- A reference by the encoding is decoded. -/
theorem decode_of_rlp {rlp : B} (h : c.rlp (c.trieNode t) = .raw rlp) :
    c.decode rlp = some (c.trieNode t) := by
  rw [Codec.rlp, fromRlp] at h
  split at h
  · cases h
    exact c.decode_trieNode t
  · nomatch h

theorem rlpNode_eq (h : t ≠ .empty) : c.rlpNode t = c.rlp (c.trieNode t) := by
  cases t with
  | empty => exact absurd rfl h
  | _ => rfl

theorem stateMask_iff :
    stateMask children i = true ↔ children i ≠ .empty := by
  rw [stateMask, Bool.not_eq_true', ← Bool.not_eq_true, Tree.isEmpty_iff]

/-- The root hash of a tree. -/
def rootHash (t : Tree 16 V) : H :=
  match c.rlpNode t with
  | .word hash => hash
  | .raw rlp => c.keccak256 rlp

/-- **THE ROOT** of a map with keys of 64 nibbles. -/
def mptRoot (m : ExtTreeMap Nibbles V) : H := c.rootHash (Tree.build 64 m.toList)

end Codec

end Trie

import Pasifika.Trie.Node
import Pasifika.Trie.PrefixSet

/-! # The sparse trie

A trie of which only some nodes are known: the nodes are in a map by their PATHS, a
node that is not known is a hash, and the values of leaves are in a map by their full
paths. Hashes of nodes are remembered, and are used again unless a key below the
node changed.

A call returns what it returned, an error or a value, together with the trie that it
leaves behind; `none` is a panic. Loops take FUEL, and run out of it as in a panic. -/

namespace Trie

open Std OrderedMap

/-! ## Nodes -/

inductive SparseNode (H : Type) where
  | empty
  | hash (hash : H)
  | leaf (key : Nibbles) (hash : Option H)
  | extension (key : Nibbles) (hash : Option H) (storeInDbTrie : Option Bool)
  | branch (stateMask : TrieMask) (hash : Option H) (storeInDbTrie : Option Bool)

namespace SparseNode

variable {H : Type}

def newBranch (stateMask : TrieMask) : SparseNode H := branch stateMask none none

def newSplitBranch (bitA bitB : Fin 16) : SparseNode H :=
  branch ((TrieMask.default.setBit bitA).setBit bitB) none none

def newExt (key : Nibbles) : SparseNode H := extension key none none

def newLeaf (key : Nibbles) : SparseNode H := leaf key none

def isHash : SparseNode H → Bool
  | hash _ => true
  | _ => false

end SparseNode

inductive SparseNodeType where
  | empty
  | hash
  | leaf
  | extension (storeInDbTrie : Option Bool)
  | branch (storeInDbTrie : Option Bool)
deriving DecidableEq

namespace SparseNodeType

def isHash : SparseNodeType → Bool
  | hash => true
  | _ => false

def isBranch : SparseNodeType → Bool
  | branch _ => true
  | _ => false

def storeInDbTrie : SparseNodeType → Option Bool
  | extension store => store
  | branch store => store
  | _ => none

end SparseNodeType

structure TrieMasks where
  hashMask : Option TrieMask
  treeMask : Option TrieMask

def TrieMasks.none : TrieMasks := ⟨.none, .none⟩

structure BranchNodeCompact (H : Type) where
  stateMask : TrieMask
  treeMask : TrieMask
  hashMask : TrieMask
  hashes : List H
  rootHash : Option H

structure SparseTrieUpdates (H : Type) where
  updatedNodes : ExtTreeMap Nibbles (BranchNodeCompact H)
  removedNodes : ExtTreeSet Nibbles
  wiped : Bool

def SparseTrieUpdates.default {H : Type} : SparseTrieUpdates H := ⟨∅, ∅, false⟩

/-- `SparseTrieErrorKind`; the errors of a provider are any of them. -/
inductive SparseTrieErrorKind (H : Type) where
  | blind
  | blindedNode (path : Nibbles) (hash : H)
  | reveal (path : Nibbles) (node : SparseNode H)
  | rlp
  | nodeNotFoundInProvider (path : Nibbles)
  | other

structure RevealedNode (B : Type) where
  node : B
  treeMask : Option TrieMask
  hashMask : Option TrieMask

/-- `TrieNodeProvider`, by its `trie_node`. -/
abbrev TrieNodeProvider (B H : Type) :=
  Nibbles → Except (SparseTrieErrorKind H) (Option (RevealedNode B))

/-! ## Calls -/

/-- What a call returned, and what it left behind. -/
abbrev Outcome (H S A : Type) := Option (Except (SparseTrieErrorKind H) A × S)

namespace Outcome

variable {H S A A' : Type}

/-- `?`: go on after a call that returned a value. -/
def andThen (r : Outcome H S A) (f : A → S → Outcome H S A') : Outcome H S A' :=
  match r with
  | none => none
  | some (.error e, s) => some (.error e, s)
  | some (.ok a, s) => f a s

theorem andThen_eq_ok {r : Outcome H S A} {f : A → S → Outcome H S A'} {a' : A'} {s' : S} :
    r.andThen f = some (.ok a', s') ↔ ∃ a s, r = some (.ok a, s) ∧ f a s = some (.ok a', s') := by
  match r with
  | none => simp [andThen]
  | some (.error e, s) => simp [andThen]
  | some (.ok a, s) => simp [andThen]

end Outcome

structure SerialSparseTrie (V H : Type) where
  nodes : ExtTreeMap Nibbles (SparseNode H)
  branchNodeTreeMasks : ExtTreeMap Nibbles TrieMask
  branchNodeHashMasks : ExtTreeMap Nibbles TrieMask
  values : ExtTreeMap Nibbles V
  prefixSet : PrefixSetMut
  updates : Option (SparseTrieUpdates H)

namespace Nibbles

def commonPrefixLength (path path' : Nibbles) : ℕ := Patricia.Tree.commonLength path path'

/-- `slice(from..to)`, which panics if that is not a range of the path. -/
def slice (path : Nibbles) (start stop : ℕ) : Option Nibbles :=
  if start ≤ stop ∧ stop ≤ path.length then some ((path.take stop).drop start) else none

end Nibbles

namespace SerialSparseTrie

variable {V B H : Type} [DecidableEq H] (c : Codec V B H)

def default : SerialSparseTrie V H :=
  ⟨(∅ : ExtTreeMap Nibbles (SparseNode H)).insert [] .empty, ∅, ∅, ∅, .default, none⟩

/-- `self.nodes.insert(path, node)`. -/
def insertNode (s : SerialSparseTrie V H) (path : Nibbles) (node : SparseNode H) :
    SerialSparseTrie V H :=
  { s with nodes := s.nodes.insert path node }

/-- `self.nodes.remove(path)`. -/
def removeNode (s : SerialSparseTrie V H) (path : Nibbles) : SerialSparseTrie V H :=
  { s with nodes := s.nodes.erase path }

/-! ## Revealing -/

/-- `reveal_node_or_hash`; `reveal` is `reveal_node`. -/
def revealNodeOrHash
    (reveal : SerialSparseTrie V H → Nibbles → TrieNode V B H → TrieMasks →
      Outcome H (SerialSparseTrie V H) Unit)
    (s : SerialSparseTrie V H) (path : Nibbles) (child : RlpNode B H) :
    Outcome H (SerialSparseTrie V H) Unit :=
  match child with
  | .word hash =>
    match s.nodes[path]? with
    | some (.hash previousHash) =>
      if previousHash ≠ hash then some (.error (.reveal path (.hash hash)), s)
      else some (.ok (), s)
    | some _ => some (.ok (), s)
    | none => some (.ok (), s.insertNode path (.hash hash))
  | .raw rlp =>
    match c.decode rlp with
    | none => some (.error .rlp, s)
    | some node => reveal s path node .none

/-- The loop over the children of a revealed branch; `stack` is at `stack_ptr`. -/
def revealChildren
    (reveal : SerialSparseTrie V H → Nibbles → TrieNode V B H → TrieMasks →
      Outcome H (SerialSparseTrie V H) Unit)
    (path : Nibbles) : List (Fin 16) → List (RlpNode B H) → SerialSparseTrie V H →
      Outcome H (SerialSparseTrie V H) Unit
  | [], _, s => some (.ok (), s)
  | _ :: _, [], _ => none
  | idx :: bits, child :: stack, s =>
    (revealNodeOrHash c reveal s (path ++ [idx]) child).andThen fun _ s =>
      revealChildren reveal path bits stack s

/-- The masks of a revealed node. -/
def insertMasks (s : SerialSparseTrie V H) (path : Nibbles) (masks : TrieMasks) :
    SerialSparseTrie V H :=
  let s := match masks.treeMask with
    | some mask => { s with branchNodeTreeMasks := s.branchNodeTreeMasks.insert path mask }
    | none => s
  match masks.hashMask with
  | some mask => { s with branchNodeHashMasks := s.branchNodeHashMasks.insert path mask }
  | none => s

/-- `masks.hash_mask.is_some_and(|mask| !mask.is_empty()) || …`. -/
def storeOfMasks (masks : TrieMasks) : Bool :=
  masks.hashMask.any (fun mask => !mask.isEmpty) || masks.treeMask.any (fun mask => !mask.isEmpty)

/-- The entry of a revealed branch, after its children. -/
def revealBranch (s : SerialSparseTrie V H) (path : Nibbles) (stateMask : TrieMask)
    (masks : TrieMasks) : Outcome H (SerialSparseTrie V H) Unit :=
  match s.nodes[path]? with
  | some (.hash hash) =>
    some (.ok (), s.insertNode path (.branch stateMask (some hash) (some (storeOfMasks masks))))
  | some (.branch ..) => some (.ok (), s)
  | some (.extension ..) => some (.ok (), s)
  | some node => some (.error (.reveal path node), s)
  | none => some (.ok (), s.insertNode path (.newBranch stateMask))

/-- The entries of a node that is not revealed yet, by its type. -/
def revealNewNode
    (reveal : SerialSparseTrie V H → Nibbles → TrieNode V B H → TrieMasks →
      Outcome H (SerialSparseTrie V H) Unit)
    (s : SerialSparseTrie V H) (path : Nibbles) (node : TrieNode V B H) (masks : TrieMasks) :
    Outcome H (SerialSparseTrie V H) Unit :=
  match node with
  | .emptyRoot => some (.ok (), s.insertNode path .empty)
  | .branch stack stateMask =>
    -- `first_child_index`
    if stack.length < stateMask.countBits then none
    else
      (revealChildren c reveal path stateMask.bits
        (stack.drop (stack.length - stateMask.countBits)) s).andThen fun _ s =>
          revealBranch s path stateMask masks
  | .extension key child =>
    match s.nodes[path]? with
    | some (.hash hash) =>
      revealNodeOrHash c reveal (s.insertNode path (.extension key (some hash) none))
        (path ++ key) child
    | some (.extension ..) => some (.ok (), s)
    | some (.branch ..) => some (.ok (), s)
    | some node => some (.error (.reveal path node), s)
    | none => revealNodeOrHash c reveal (s.insertNode path (.newExt key)) (path ++ key) child
  | .leaf key value =>
    match s.nodes[path]? with
    | some (.hash hash) =>
      some (.ok (), ({ s with values := s.values.insert (path ++ key) value }).insertNode
        path (.leaf key (some hash)))
    | some (.leaf ..) => some (.ok (), s)
    | some node => some (.error (.reveal path node), s)
    | none =>
      some (.ok (), { s.insertNode path (.newLeaf key) with
        values := s.values.insert (path ++ key) value })

def revealNode : ℕ → SerialSparseTrie V H → Nibbles → TrieNode V B H → TrieMasks →
    Outcome H (SerialSparseTrie V H) Unit
  | 0, _, _, _, _ => none
  | fuel + 1, s, path, node, masks =>
    if s.nodes[path]?.any (fun node => !node.isHash) then some (.ok (), s)
    else revealNewNode c (revealNode fuel) (s.insertMasks path masks) path node masks

def withUpdates (s : SerialSparseTrie V H) (retainUpdates : Bool) : SerialSparseTrie V H :=
  if retainUpdates then { s with updates := some .default } else s

def fromRoot (fuel : ℕ) (root : TrieNode V B H) (masks : TrieMasks) (retainUpdates : Bool) :
    Outcome H (SerialSparseTrie V H) Unit :=
  revealNode c fuel ((default.withUpdates retainUpdates).removeNode []) [] root masks

/-- Reveal a blinded node through the provider, if it is blinded. -/
def revealBlinded (fuel : ℕ) (provider : TrieNodeProvider B H) (s : SerialSparseTrie V H)
    (path : Nibbles) : Outcome H (SerialSparseTrie V H) Unit :=
  match s.nodes[path]? with
  | none => none
  | some node =>
    if node.isHash then
      match provider path with
      | .error e => some (.error e, s)
      | .ok none => some (.ok (), s)
      | .ok (some revealed) =>
        match c.decode revealed.node with
        | none => some (.error .rlp, s)
        | some decoded =>
          revealNode c fuel s path decoded ⟨revealed.hashMask, revealed.treeMask⟩
    else some (.ok (), s)

/-! ## Updating a leaf -/

/-- The nodes where two paths part: an extension is left above, and a branch with a new leaf below.
    -/
def splitNodes (s : SerialSparseTrie V H) (fullPath : Nibbles) (common : ℕ)
    (bit : Fin 16) (bit' : Fin 16) (path : Nibbles) : SerialSparseTrie V H :=
  (s.insertNode (path.take common) (.newSplitBranch bit bit')).insertNode
    (fullPath.take (common + 1)) (.newLeaf (fullPath.drop (common + 1)))

/-- A leaf with another path is in the way. -/
def splitLeaf (s : SerialSparseTrie V H) (current key fullPath : Nibbles) :
    Option (SerialSparseTrie V H) :=
  let path := current ++ key
  -- `unreachable!`: the value was not there
  if path = fullPath then none
  else
    let common := path.commonPrefixLength fullPath
    match path[common]?, fullPath[common]?, path.slice (path.length - key.length) common with
    | some bit, some bit', some newExtKey =>
      some (((s.insertNode current (.newExt newExtKey)).splitNodes fullPath common bit bit'
        path).insertNode (path.take (common + 1)) (.newLeaf (path.drop (common + 1))))
    | _, _, _ => none

/-- An extension with another path is in the way. -/
def splitExtension (fuel : ℕ) (provider : TrieNodeProvider B H) (s : SerialSparseTrie V H)
    (current key : Nibbles) (hash : Option H) (storeInDbTrie : Option Bool)
    (fullPath : Nibbles) : Outcome H (SerialSparseTrie V H) Unit :=
  let path := current ++ key
  let common := path.commonPrefixLength fullPath
  match path.slice (path.length - key.length) common with
  | none => none
  | some newKey =>
    let s := s.insertNode current (.extension newKey hash storeInDbTrie)
    let r : Outcome H (SerialSparseTrie V H) Unit :=
      if s.updates.isSome then revealBlinded c fuel provider s path else some (.ok (), s)
    r.andThen fun _ s =>
      match path[common]?, fullPath[common]? with
      | some bit, some bit' =>
        let s := s.splitNodes fullPath common bit bit' path
        let key := path.drop (common + 1)
        if key.isEmpty then some (.ok (), s)
        else some (.ok (), s.insertNode (path.take (common + 1)) (.newExt key))
      | _, _ => none

/-- The loop of `update_leaf`. -/
def updateLeafLoop (provider : TrieNodeProvider B H) (fullPath : Nibbles) :
    ℕ → Nibbles → SerialSparseTrie V H → Outcome H (SerialSparseTrie V H) Unit
  | 0, _, _ => none
  | fuel + 1, current, s =>
    match s.nodes[current]? with
    | none => some (.ok (), s)
    | some .empty => some (.ok (), s.insertNode current (.newLeaf fullPath))
    | some (.hash hash) => some (.error (.blindedNode current hash), s)
    | some (.leaf key _) => (splitLeaf s current key fullPath).map (fun s => (.ok (), s))
    | some (.extension key hash store) =>
      if (current ++ key) <+: fullPath then
        updateLeafLoop provider fullPath fuel (current ++ key) s
      else splitExtension c fuel provider s current key hash store fullPath
    | some (.branch stateMask hash store) =>
      match fullPath[current.length]? with
      | none => none
      | some nibble =>
        if stateMask nibble then
          updateLeafLoop provider fullPath fuel (current ++ [nibble]) s
        else
          some (.ok (), (s.insertNode current
            (.branch (stateMask.setBit nibble) hash store)).insertNode
              (current ++ [nibble]) (.newLeaf (fullPath.drop (current.length + 1))))

def updateLeaf (fuel : ℕ) (provider : TrieNodeProvider B H) (s : SerialSparseTrie V H)
    (fullPath : Nibbles) (value : V) : Outcome H (SerialSparseTrie V H) Unit :=
  let existing := s.values[fullPath]?
  let s := { s with
    prefixSet := s.prefixSet.insert fullPath
    values := s.values.insert fullPath value }
  if existing.isSome then some (.ok (), s)
  else updateLeafLoop c provider fullPath fuel [] s

/-! ## Removing a leaf -/

structure RemovedSparseNode (H : Type) where
  path : Nibbles
  node : SparseNode H
  unsetBranchNibble : Option (Fin 16)

/-- `unset_branch_nibble`: the child is the leaf that is removed. -/
def unsetBranchNibble (nodes : ExtTreeMap Nibbles (SparseNode H)) (current path : Nibbles)
    (nibble : Fin 16) : Option (Fin 16) :=
  match nodes[current ++ [nibble]]? with
  | some (.leaf key _) => if (current ++ [nibble]) ++ key = path then some nibble else none
  | _ => none

/-- `take_nodes_for_path`; the nodes taken last come first. -/
def takeNodesForPath (path : Nibbles) : ℕ → Nibbles → SerialSparseTrie V H →
    List (RemovedSparseNode H) →
      Outcome H (SerialSparseTrie V H) (List (RemovedSparseNode H))
  | 0, _, _, _ => none
  | fuel + 1, current, s, nodes =>
    match s.nodes[current]? with
    | none => some (.ok nodes, s)
    | some node =>
      let s := s.removeNode current
      match node with
      | .empty => some (.error .blind, s)
      | .hash hash => some (.error (.blindedNode current hash), s)
      | .leaf .. => some (.ok (⟨current, node, none⟩ :: nodes), s)
      | .extension key _ _ =>
        takeNodesForPath path fuel (current ++ key) s (⟨current, node, none⟩ :: nodes)
      | .branch .. =>
        match path[current.length]? with
        | none => none
        | some nibble =>
          takeNodesForPath path fuel (current ++ [nibble]) s
            (⟨current, node, unsetBranchNibble s.nodes current path nibble⟩ :: nodes)

/-- The update of a branch that is no longer there. -/
def dropUpdate (s : SerialSparseTrie V H) (removedPath : Nibbles) : SerialSparseTrie V H :=
  { s with updates := s.updates.map (fun updates =>
    { updates with
      updatedNodes := updates.updatedNodes.erase removedPath
      removedNodes := updates.removedNodes.insert removedPath }) }

/-- A branch with one child left: the child moves up, if it is not a branch. -/
def collapseBranch (fuel : ℕ) (provider : TrieNodeProvider B H) (s : SerialSparseTrie V H)
    (removedPath : Nibbles) (childNibble : Fin 16) :
    Outcome H (SerialSparseTrie V H) (SparseNode H) :=
  let childPath := removedPath ++ [childNibble]
  (revealBlinded c fuel provider s childPath).andThen fun _ s =>
    match s.nodes[childPath]? with
    | none => none
    | some .empty => some (.error .blind, s)
    | some (.hash hash) => some (.error (.blindedNode childPath hash), s)
    | some (.leaf key _) =>
      some (.ok (.newLeaf (childNibble :: key)), (s.removeNode childPath).dropUpdate removedPath)
    | some (.extension key _ _) =>
      some (.ok (.newExt (childNibble :: key)), (s.removeNode childPath).dropUpdate removedPath)
    | some (.branch ..) => some (.ok (.newExt [childNibble]), s.dropUpdate removedPath)

/-- The node that takes the place of a removed one; `child` is the one below it. -/
def newNode (fuel : ℕ) (provider : TrieNodeProvider B H) (s : SerialSparseTrie V H)
    (removed child : RemovedSparseNode H) :
    Outcome H (SerialSparseTrie V H) (SparseNode H) :=
  match removed.node with
  | .empty => some (.error .blind, s)
  | .hash hash => some (.error (.blindedNode removed.path hash), s)
  | .leaf .. => none
  | .extension key _ _ =>
    match child.node with
    | .empty => some (.error .blind, s)
    | .hash hash => some (.error (.blindedNode child.path hash), s)
    | .leaf leafKey _ => some (.ok (.newLeaf (key ++ leafKey)), s.removeNode child.path)
    | .extension extensionKey _ _ =>
      some (.ok (.newExt (key ++ extensionKey)), s.removeNode child.path)
    | .branch .. => some (.ok removed.node, s)
  | .branch stateMask _ _ =>
    let stateMask := match removed.unsetBranchNibble with
      | some nibble => stateMask.unsetBit nibble
      | none => stateMask
    if stateMask.countBits = 1 then
      match stateMask.firstSetBitIndex with
      | none => none
      | some childNibble => collapseBranch c fuel provider s removed.path childNibble
    else some (.ok (.newBranch stateMask), s)

/-- The loop of `remove_leaf` over the nodes that were taken. -/
def reinsertNodes (fuel : ℕ) (provider : TrieNodeProvider B H) :
    List (RemovedSparseNode H) → RemovedSparseNode H → SerialSparseTrie V H →
      Outcome H (SerialSparseTrie V H) Unit
  | [], _, s => some (.ok (), s)
  | removed :: nodes, child, s =>
    (newNode c fuel provider s removed child).andThen fun node s =>
      reinsertNodes fuel provider nodes ⟨removed.path, node, none⟩
        (s.insertNode removed.path node)

def removeLeaf (fuel : ℕ) (provider : TrieNodeProvider B H) (s : SerialSparseTrie V H)
    (fullPath : Nibbles) : Outcome H (SerialSparseTrie V H) Unit :=
  match s.values[fullPath]? with
  | none =>
    match s.nodes[fullPath]? with
    | some (.hash hash) => some (.error (.blindedNode fullPath hash), s)
    | _ => some (.ok (), s)
  | some _ =>
    let s := { s with
      values := s.values.erase fullPath
      prefixSet := s.prefixSet.insert fullPath }
    (takeNodesForPath fullPath fuel [] s []).andThen fun nodes s =>
      match nodes with
      -- `expect("leaf exists")`
      | [] => none
      | [_] => some (.ok (), s.insertNode [] .empty)
      | child :: nodes => reinsertNodes c fuel provider nodes child s

/-! ## Hashes -/

structure RlpNodePathStackItem where
  level : ℕ
  path : Nibbles
  isInPrefixSet : Option Bool

structure RlpNodeStackItem (B H : Type) where
  path : Nibbles
  rlpNode : RlpNode B H
  nodeType : SparseNodeType

/-- The state of `rlp_node`: the trie, the prefix set and the stacks, topmost first. -/
structure RlpLoop (V B H : Type) where
  trie : SerialSparseTrie V H
  prefixSet : PrefixSet
  pathStack : List RlpNodePathStackItem
  rlpNodeStack : List (RlpNodeStackItem B H)

/-- `prefix_set_contains`, which asks the set only once for a node. -/
def prefixSetContains (isInPrefixSet : Option Bool) (prefixSet : PrefixSet) (path : Nibbles) :
    Bool × PrefixSet :=
  match isInPrefixSet with
  | some b => (b, prefixSet)
  | none => prefixSet.contains path

/-- What the children of a branch add up to, from the last child on. -/
structure Collected (B H : Type) where
  rlpNodeStack : List (RlpNodeStackItem B H)
  values : List (RlpNode B H)
  treeMask : TrieMask
  hashMask : TrieMask
  hashes : List H

/-- Whether the tree mask has a bit for a child. -/
def shouldSetTreeMaskBit (s : SerialSparseTrie V H) (path : Nibbles) (nibble : Fin 16)
    (childNodeType : SparseNodeType) : Bool :=
  match childNodeType.storeInDbTrie with
  | some store => store
  | none =>
    childNodeType.isHash && (s.branchNodeTreeMasks[path]?).any (fun mask => mask nibble)

/-- Whether the hash mask has a bit for a child with a hash. -/
def shouldSetHashMaskBit (s : SerialSparseTrie V H) (path : Nibbles) (nibble : Fin 16)
    (childNodeType : SparseNodeType) : Bool :=
  childNodeType.isBranch ||
    (childNodeType.isHash && (s.branchNodeHashMasks[path]?).any (fun mask => mask nibble))

/-- Take a child of a branch from the stack: the masks are updated only if updates are retained. -/
def collectChild (s : SerialSparseTrie V H) (path : Nibbles) (retainUpdates : Bool)
    (nibble : Fin 16) (child : RlpNodeStackItem B H) (acc : Collected B H) : Collected B H :=
  let hash :=
    if retainUpdates then
      child.rlpNode.asHash.filter (fun _ => s.shouldSetHashMaskBit path nibble child.nodeType)
    else none
  { rlpNodeStack := acc.rlpNodeStack
    values := child.rlpNode :: acc.values
    treeMask :=
      if retainUpdates && s.shouldSetTreeMaskBit path nibble child.nodeType then
        acc.treeMask.setBit nibble
      else acc.treeMask
    hashMask := if hash.isSome then acc.hashMask.setBit nibble else acc.hashMask
    hashes := hash.toList ++ acc.hashes }

/-- The loop over the children, last one first; `.inl` if one is not on the stack, with what is left
    there. -/
def collectChildren (s : SerialSparseTrie V H) (path : Nibbles) (retainUpdates : Bool) :
    List (Fin 16) → Collected B H → List (RlpNodeStackItem B H) ⊕ Collected B H
  | [], acc => .inr acc
  | nibble :: bits, acc =>
    match acc.rlpNodeStack with
    | [] => .inl []
    | child :: stack =>
      if child.path = path ++ [nibble] then
        collectChildren s path retainUpdates bits
          (collectChild s path retainUpdates nibble child { acc with rlpNodeStack := stack })
      else .inl (child :: stack)

/-- Save or remove the update of a branch node that is not the root. -/
def saveUpdate (s : SerialSparseTrie V H) (path : Nibbles) (stateMask : TrieMask)
    (acc : Collected B H) (updates : SparseTrieUpdates H) : SparseTrieUpdates H :=
  if !acc.treeMask.isEmpty || !acc.hashMask.isEmpty then
    { updates with
      updatedNodes := updates.updatedNodes.insert path
        ⟨stateMask, acc.treeMask, acc.hashMask, acc.hashes, none⟩ }
  else if (s.branchNodeTreeMasks[path]?).any (fun mask => !mask.isEmpty) ||
      (s.branchNodeHashMasks[path]?).any (fun mask => !mask.isEmpty) then
    { updates with
      updatedNodes := updates.updatedNodes.erase path
      removedNodes := updates.removedNodes.insert path }
  else { updates with updatedNodes := updates.updatedNodes.erase path }

/-- The updates after a branch node was encoded, and its `store_in_db_trie`. -/
def updateBranch (s : SerialSparseTrie V H) (path : Nibbles) (stateMask : TrieMask)
    (retainUpdates : Bool) (acc : Collected B H) : Option (SparseTrieUpdates H) × Bool :=
  match s.updates with
  | some updates =>
    if retainUpdates && !path.isEmpty then
      (some (saveUpdate s path stateMask acc updates),
        !acc.treeMask.isEmpty || !acc.hashMask.isEmpty)
    else (some updates, false)
  | none => (none, false)

namespace RlpLoop

/-- `buffers.rlp_node_stack.push`. -/
def push (l : RlpLoop V B H) (path : Nibbles) (rlpNode : RlpNode B H)
    (nodeType : SparseNodeType) : RlpLoop V B H :=
  { l with rlpNodeStack := ⟨path, rlpNode, nodeType⟩ :: l.rlpNodeStack }

/-- A leaf is encoded. -/
def encodeLeaf (l : RlpLoop V B H) (path key : Nibbles) : Option (RlpLoop V B H) :=
  match l.trie.values[path ++ key]? with
  | none => none
  | some value =>
    let rlpNode := c.rlp (.leaf key value)
    some ({ l with trie := l.trie.insertNode path (.leaf key rlpNode.asHash) }.push
      path rlpNode .leaf)

/-- A leaf. -/
def leafStep (l : RlpLoop V B H) (item : RlpNodePathStackItem) (key : Nibbles)
    (hash : Option H) : Option (RlpLoop V B H) :=
  match hash with
  | some hash =>
    let (contains, prefixSet) :=
      prefixSetContains item.isInPrefixSet l.prefixSet (item.path ++ key)
    let l := { l with prefixSet := prefixSet }
    if contains then l.encodeLeaf c item.path key else some (l.push item.path (.word hash) .leaf)
  | none => l.encodeLeaf c item.path key

/-- `hash.zip(*store_in_db_trie).filter(|_| !prefix_set_contains(&path))`: a known hash is used
    again if no key below it changed. -/
def reuseHash (l : RlpLoop V B H) (item : RlpNodePathStackItem) (hash : Option H)
    (storeInDbTrie : Option Bool) (type : Option Bool → SparseNodeType)
    (visit : RlpLoop V B H → Option Bool → RlpLoop V B H) : RlpLoop V B H :=
  match hash, storeInDbTrie with
  | some hash, some store =>
    let (contains, prefixSet) := prefixSetContains item.isInPrefixSet l.prefixSet item.path
    let l := { l with prefixSet := prefixSet }
    if contains then visit l (some contains) else l.push item.path (.word hash) (type (some store))
  | _, _ => visit l item.isInPrefixSet

/-- An extension without a valid hash is encoded if its child is on the stack, else it waits. -/
def visitExtension (l : RlpLoop V B H) (level : ℕ) (path key : Nibbles)
    (isInPrefixSet : Option Bool) : RlpLoop V B H :=
  let wait : RlpLoop V B H :=
    { l with pathStack := ⟨level + 1, path ++ key, none⟩ :: ⟨level, path, isInPrefixSet⟩ ::
        l.pathStack }
  match l.rlpNodeStack with
  | child :: stack =>
    if child.path = path ++ key then
      let rlpNode := c.rlp (.extension key child.rlpNode)
      let store := child.nodeType.storeInDbTrie
      { l with
        trie := l.trie.insertNode path (.extension key rlpNode.asHash store)
        rlpNodeStack := stack }.push path rlpNode (.extension store)
    else wait
  | [] => wait

/-- An extension. -/
def extensionStep (l : RlpLoop V B H) (item : RlpNodePathStackItem) (key : Nibbles)
    (hash : Option H) (storeInDbTrie : Option Bool) : RlpLoop V B H :=
  l.reuseHash item hash storeInDbTrie .extension
    (fun l isInPrefixSet => l.visitExtension c item.level item.path key isInPrefixSet)

/-- `retain_updates`, which asks for the path only if there are updates. -/
def retainUpdates (l : RlpLoop V B H) (path : Nibbles) (isInPrefixSet : Option Bool) :
    Bool × Option Bool × PrefixSet :=
  if l.trie.updates.isSome then
    let (contains, prefixSet) := prefixSetContains isInPrefixSet l.prefixSet path
    (contains, some contains, prefixSet)
  else (false, isInPrefixSet, l.prefixSet)

/-- A branch without a valid hash is encoded if its children are on the stack, else it waits. -/
def visitBranch (l : RlpLoop V B H) (level : ℕ) (path : Nibbles) (stateMask : TrieMask)
    (isInPrefixSet : Option Bool) : RlpLoop V B H :=
  let (retain, isInPrefixSet, prefixSet) := l.retainUpdates path isInPrefixSet
  match collectChildren l.trie path retain stateMask.bits.reverse
    ⟨l.rlpNodeStack, [], .default, .default, []⟩ with
  | .inl stack =>
    { l with
      prefixSet := prefixSet
      rlpNodeStack := stack
      pathStack := stateMask.bits.map (fun bit => ⟨level + 1, path ++ [bit], none⟩) ++
        ⟨level, path, isInPrefixSet⟩ :: l.pathStack }
  | .inr acc =>
    let rlpNode := c.rlp (.branch acc.values stateMask)
    let (updates, store) := updateBranch l.trie path stateMask retain acc
    { l with
      trie := { l.trie.insertNode path (.branch stateMask rlpNode.asHash (some store)) with
        updates := updates }
      prefixSet := prefixSet
      rlpNodeStack := acc.rlpNodeStack }.push path rlpNode (.branch (some store))

/-- A branch. -/
def branchStep (l : RlpLoop V B H) (item : RlpNodePathStackItem) (stateMask : TrieMask)
    (hash : Option H) (storeInDbTrie : Option Bool) : RlpLoop V B H :=
  l.reuseHash item hash storeInDbTrie .branch
    (fun l isInPrefixSet => l.visitBranch c item.level item.path stateMask isInPrefixSet)

/-- The body of the loop of `rlp_node`, for the node taken from the path stack. -/
def step (l : RlpLoop V B H) (item : RlpNodePathStackItem) : Option (RlpLoop V B H) :=
  match l.trie.nodes[item.path]? with
  | none => none
  | some .empty => some (l.push item.path (.word c.emptyRootHash) .empty)
  | some (.hash hash) => some (l.push item.path (.word hash) .hash)
  | some (.leaf key hash) => l.leafStep c item key hash
  | some (.extension key hash store) => some (l.extensionStep c item key hash store)
  | some (.branch stateMask hash store) => some (l.branchStep c item stateMask hash store)

/-- The loop of `rlp_node`. -/
def run : ℕ → RlpLoop V B H → Option (RlpLoop V B H)
  | 0, _ => none
  | fuel + 1, l =>
    match l.pathStack with
    | [] => some l
    | item :: pathStack => (step c { l with pathStack := pathStack } item).bind (run fuel)

end RlpLoop

/-- `rlp_node` for one path, with nothing on the stack of nodes. -/
def rlpNode (fuel : ℕ) (s : SerialSparseTrie V H) (prefixSet : PrefixSet)
    (item : RlpNodePathStackItem) : Option (RlpNode B H × SerialSparseTrie V H × PrefixSet) := do
  let l ← RlpLoop.run c fuel ⟨s, prefixSet, [item], []⟩
  let top ← l.rlpNodeStack.head?
  some (top.rlpNode, l.trie, l.prefixSet)

def root (fuel : ℕ) (s : SerialSparseTrie V H) : Option (H × SerialSparseTrie V H) := do
  let (rlpNode, s, _) ← rlpNode c fuel { s with prefixSet := .default } s.prefixSet.freeze
    ⟨0, [], none⟩
  match rlpNode with
  | .word hash => some (hash, s)
  | .raw rlp => some (c.keccak256 rlp, s)

/-- `hash.is_some() && !prefix_set.contains(&path)`. -/
def isUnchanged (prefixSet : PrefixSet) (path : Nibbles) (hash : Option H) : Bool × PrefixSet :=
  if hash.isSome then
    let (contains, prefixSet) := prefixSet.contains path
    (!contains, prefixSet)
  else (false, prefixSet)

/-- `get_changed_nodes_at_depth`: the loop over the paths, topmost first. -/
def getChangedNodesAtDepth (s : SerialSparseTrie V H) (depth : ℕ) :
    ℕ → List (Nibbles × ℕ) → PrefixSet → PrefixSetMut → List (ℕ × Nibbles) →
      Option (List (ℕ × Nibbles) × PrefixSetMut × PrefixSet)
  | 0, _, _, _, _ => none
  | _ + 1, [], prefixSet, unchanged, targets => some (targets, unchanged, prefixSet)
  | fuel + 1, (path, level) :: paths, prefixSet, unchanged, targets =>
    match s.nodes[path]? with
    | none => none
    | some .empty => getChangedNodesAtDepth s depth fuel paths prefixSet unchanged targets
    | some (.hash _) => getChangedNodesAtDepth s depth fuel paths prefixSet unchanged targets
    | some (.leaf _ hash) =>
      let (skipped, prefixSet) := isUnchanged prefixSet path hash
      if skipped then getChangedNodesAtDepth s depth fuel paths prefixSet unchanged targets
      else
        getChangedNodesAtDepth s depth fuel paths prefixSet unchanged
          (targets ++ [(level, path)])
    | some (.extension key hash _) =>
      let (skipped, prefixSet) := isUnchanged prefixSet path hash
      if skipped then getChangedNodesAtDepth s depth fuel paths prefixSet unchanged targets
      else if depth ≤ level then
        getChangedNodesAtDepth s depth fuel paths prefixSet unchanged
          (targets ++ [(level, path)])
      else
        getChangedNodesAtDepth s depth fuel ((path ++ key, level + 1) :: paths) prefixSet
          (unchanged.insert path) targets
    | some (.branch stateMask hash _) =>
      let (skipped, prefixSet) := isUnchanged prefixSet path hash
      if skipped then getChangedNodesAtDepth s depth fuel paths prefixSet unchanged targets
      else if depth ≤ level then
        getChangedNodesAtDepth s depth fuel paths prefixSet unchanged
          (targets ++ [(level, path)])
      else
        getChangedNodesAtDepth s depth fuel
          (stateMask.bits.map (fun bit => (path ++ [bit], level + 1)) ++ paths) prefixSet
          (unchanged.insert path) targets

/-- The loop of `update_rlp_node_level` over the targets. -/
def updateTargets (fuel : ℕ) : List (ℕ × Nibbles) → SerialSparseTrie V H → PrefixSet →
    Option (SerialSparseTrie V H)
  | [], s, _ => some s
  | (level, path) :: targets, s, prefixSet => do
      let (_, s, prefixSet) ← rlpNode c fuel s prefixSet ⟨level, path, some true⟩
      updateTargets fuel targets s prefixSet

def updateRlpNodeLevel (fuel : ℕ) (s : SerialSparseTrie V H) (depth : ℕ) :
    Option (SerialSparseTrie V H) := do
  let (targets, unchanged, prefixSet) ←
    getChangedNodesAtDepth s depth fuel [([], 0)] s.prefixSet.freeze .default []
  updateTargets c fuel targets { s with prefixSet := unchanged } prefixSet

/-- `update_subtrie_hashes`, at `SPARSE_TRIE_SUBTRIE_HASHES_LEVEL`. -/
def updateSubtrieHashes (fuel : ℕ) (s : SerialSparseTrie V H) : Option (SerialSparseTrie V H) :=
  s.updateRlpNodeLevel c fuel 2

end SerialSparseTrie

end Trie

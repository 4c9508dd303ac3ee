import Pasifika.Engine.Block
import Pasifika.Runs

/-! # The tree of executed blocks

`TreeState` keeps the executed blocks by hash, by number, and as edges from
parents to children. The first two always hold the same blocks, and no edge
leads to a block that is gone. An edge between two blocks of the tree can be
missing: removing a block drops the edges to its children, also when they
stay, and inserting the block again does not bring them back. -/

namespace Engine

open Std OrderedMap OrderedMap.Groups List Option Std.ExtTreeMap

inductive EngineApiKind where
  | ethereum
  | opStack
deriving DecidableEq, Repr

structure TreeState (T : Type) where
  blocksByHash : ExtTreeMap BlockHash (ExecutedBlockWithTrieUpdates T)
  blocksByNumber : ExtTreeMap BlockNumber (List (ExecutedBlockWithTrieUpdates T))
  parentToChild : Groups BlockHash BlockHash
  persistedTrieUpdates : ExtTreeMap BlockHash (BlockNumber × T)
  currentCanonicalHead : BlockNumHash
  engineKind : EngineApiKind

namespace TreeState

variable {T : Type}

def new (currentCanonicalHead : BlockNumHash) (engineKind : EngineApiKind) : TreeState T where
  blocksByHash := ∅
  blocksByNumber := ∅
  parentToChild := ∅
  persistedTrieUpdates := ∅
  currentCanonicalHead := currentCanonicalHead
  engineKind := engineKind

def insertExecuted (t : TreeState T) (executed : ExecutedBlockWithTrieUpdates T) : TreeState T :=
  if t.blocksByHash.contains executed.hash then t
  else
    let blocksByHash := t.blocksByHash.insert executed.hash executed
    { t with
      blocksByHash
      blocksByNumber := pushTo t.blocksByNumber executed.number executed
      parentToChild := (t.parentToChild.add executed.parentHash executed.hash).map
        (fun _ children => children.filter (fun child => blocksByHash.contains child)) }

def removeByHash (t : TreeState T) (hash : BlockHash) :
    Option (ExecutedBlockWithTrieUpdates T × BlockHashes) × TreeState T :=
  match t.blocksByHash[hash]? with
  | none => (none, t)
  | some executed =>
    let parentToChild := t.parentToChild.leave executed.parentHash hash
    (some (executed, parentToChild[hash]?.getD ∅),
      { t with
        blocksByHash := t.blocksByHash.erase hash
        parentToChild := parentToChild.erase hash
        blocksByNumber := takeFrom t.blocksByNumber executed.number (fun b => b.hash == hash) })

/-- The walk of `is_canonical`. -/
def isCanonicalLoop (t : TreeState T) (hash : BlockHash) : Nat → BlockHash → Option Bool
  | 0, _ => none
  | fuel + 1, currentBlock =>
    match t.blocksByHash[currentBlock]? with
    | none => some false
    | some executed =>
      if executed.parentHash == hash then some true
      else isCanonicalLoop t hash fuel executed.parentHash

def isCanonical (fuel : Nat) (t : TreeState T) (hash : BlockHash) : Option Bool :=
  if t.currentCanonicalHead.hash == hash then some true
  else isCanonicalLoop t hash fuel t.currentCanonicalHead.hash

/-- Remove a persisted block and keep its trie updates. -/
def removePersisted (t : TreeState T) (hash : BlockHash) : TreeState T :=
  match t.removeByHash hash with
  | (none, t) => t
  | (some (removed, _), t) =>
    match removed.trie with
    | none => t
    | some trieUpdates =>
      { t with
        persistedTrieUpdates :=
          t.persistedTrieUpdates.insert removed.hash (removed.number, trieUpdates) }

/-- The walk of `remove_canonical_until`. -/
def removeCanonicalLoop (upperBound : BlockNumber) : Nat → BlockHash → TreeState T → Option (TreeState T)
  | 0, _, _ => none
  | fuel + 1, currentBlock, t =>
    match t.blocksByHash[currentBlock]? with
    | none => some t
    | some executed =>
      removeCanonicalLoop upperBound fuel executed.parentHash
        (if executed.number ≤ upperBound then t.removePersisted executed.hash else t)

def removeCanonicalUntil (fuel : Nat) (t : TreeState T) (upperBound : BlockNumber)
    (lastPersistedHash : BlockHash) : Option (TreeState T) := do
  if ← t.isCanonical fuel lastPersistedHash then
    removeCanonicalLoop upperBound fuel t.currentCanonicalHead.hash t
  else some t

/-- `EPOCH_SLOTS`. -/
def epochSlots : Nat := 32

def prunePersistedTrieUpdates (t : TreeState T) : TreeState T :=
  let retentionBlocks := match t.engineKind with
    | .opStack => epochSlots
    | .ethereum => epochSlots * 2
  let earliestBlockToRetain := t.currentCanonicalHead.number - retentionBlocks
  { t with
    persistedTrieUpdates :=
      t.persistedTrieUpdates.filter (fun _ u => decide (u.1 > earliestBlockToRetain)) }

/-- Remove the listed blocks. -/
def removeEach : List BlockHash → TreeState T → TreeState T
  | [], t => t
  | hash :: hashes, t => removeEach hashes (t.removeByHash hash).2

/-- The search of `prune_finalized_sidechains` through the children. -/
def pruneLoop : Nat → List BlockHash → TreeState T → Option (TreeState T)
  | 0, _, _ => none
  | _ + 1, [], t => some t
  | fuel + 1, block :: blocksToRemove, t =>
    match t.removeByHash block with
    | (none, t) => pruneLoop fuel blocksToRemove t
    | (some (_, children), t) => pruneLoop fuel (blocksToRemove ++ children.toList) t

/-- The blocks below a number. -/
def hashesBelow (t : TreeState T) (number : BlockNumber) : List BlockHash :=
  (t.blocksByNumber.toList.filter (fun e => decide (e.1 < number))).flatMap
    (fun e => e.2.map ExecutedBlockWithTrieUpdates.hash)

/-- Take the blocks at the finalized number out of `blocks_by_number`, but for the finalized one. -/
def cutFinalized (t : TreeState T) (finalized : BlockNumHash) : List BlockHash × TreeState T :=
  let blocks := t.blocksByNumber[finalized.number]?.getD []
  let blocksByNumber := t.blocksByNumber.erase finalized.number
  match blocks.findIdx? (fun b => b.hash == finalized.hash) with
  | none => (blocks.map ExecutedBlockWithTrieUpdates.hash, { t with blocksByNumber })
  | some position =>
    ((swapRemove blocks position).map ExecutedBlockWithTrieUpdates.hash,
      { t with
        blocksByNumber := match blocks[position]? with
          | none => blocksByNumber
          | some finalizedBlock => blocksByNumber.insert finalized.number [finalizedBlock] })

def pruneFinalizedSidechains (fuel : Nat) (t : TreeState T) (finalized : BlockNumHash) :
    Option (TreeState T) :=
  let t := (removeEach (t.hashesBelow finalized.number) t).prunePersistedTrieUpdates
  let r := t.cutFinalized finalized
  pruneLoop fuel r.1 r.2

def removeUntil (fuel : Nat) (t : TreeState T) (upperBound : BlockNumHash)
    (lastPersistedHash : BlockHash) (finalizedNumHash : Option BlockNumHash) :
    Option (TreeState T) := do
  let finalizedNumHash := finalizedNumHash.map (fun finalized =>
    if upperBound.number < finalized.number then upperBound else finalized)
  let t ← t.removeCanonicalUntil fuel upperBound.number lastPersistedHash
  match finalizedNumHash with
  | none => some t
  | some finalized => t.pruneFinalizedSidechains fuel finalized

def setCanonicalHead (t : TreeState T) (newHead : BlockNumHash) : TreeState T :=
  { t with currentCanonicalHead := newHead }

def reinsertReorgedBlocks : List (ExecutedBlockWithTrieUpdates T) → TreeState T → TreeState T
  | [], t => t
  | block :: newChain, t =>
    reinsertReorgedBlocks newChain
      (if t.blocksByHash[block.hash]?.isNone then t.insertExecuted block else t)

/-- The old blocks of a reorg that can be executed again: those with persisted trie updates. -/
def withPersistedUpdates (t : TreeState T) (old : List RecoveredBlock) :
    List (ExecutedBlockWithTrieUpdates T) :=
  old.filterMap (fun block =>
    t.persistedTrieUpdates[block.hash]?.map (fun updates => ⟨block, some updates.2⟩))

/-- The blocks that `on_canonical_chain_update` puts back. -/
def reorged (t : TreeState T) : NewCanonicalChain T → List (ExecutedBlockWithTrieUpdates T)
  | .commit _ => []
  | .reorg new old => new ++ t.withPersistedUpdates old

/-- `on_canonical_chain_update`, as far as it concerns the tree. -/
def onCanonicalChainUpdate (t : TreeState T) (chainUpdate : NewCanonicalChain T) :
    Option (TreeState T) := do
  let tip ← chainUpdate.tip
  some (reinsertReorgedBlocks (t.reorged chainUpdate) (t.setCanonicalHead tip.numHash))

/-- The operations on the tree. -/
inductive Op (T : Type) where
  | insertExecuted (executed : ExecutedBlockWithTrieUpdates T)
  | setCanonicalHead (newHead : BlockNumHash)
  | removeUntil (upperBound : BlockNumHash) (lastPersistedHash : BlockHash)
      (finalizedNumHash : Option BlockNumHash)
  | onCanonicalChainUpdate (chainUpdate : NewCanonicalChain T)

/-- The tree after an operation; `fuel` bounds the walks of `remove_until`. -/
def apply (fuel : Nat) (t : TreeState T) : Op T → Option (TreeState T)
  | .insertExecuted executed => some (t.insertExecuted executed)
  | .setCanonicalHead newHead => some (t.setCanonicalHead newHead)
  | .removeUntil upperBound lastPersistedHash finalizedNumHash =>
    t.removeUntil fuel upperBound lastPersistedHash finalizedNumHash
  | .onCanonicalChainUpdate chainUpdate => t.onCanonicalChainUpdate chainUpdate

/-- An operation that returns. -/
def Step (t : TreeState T) (op : Op T) (t' : TreeState T) : Prop :=
  ∃ fuel, t.apply fuel op = some t'

/-! ## The indexes -/

/-- **WHAT ALWAYS HOLDS**, but for unlisted blocks: hashes and numbers list the same blocks, and
    every edge leads from the parent of a block to it. -/
structure Indexed (unlisted : BlockHash → Prop) (t : TreeState T) : Prop where
  key : ∀ {h : BlockHash} {e : ExecutedBlockWithTrieUpdates T},
    t.blocksByHash[h]? = some e → e.hash = h
  byNumber : Listed t.blocksByNumber (fun n e =>
    (t.blocksByHash[e.hash]? = some e ∧ e.number = n) ∧ ¬ unlisted e.hash)
  edge : ∀ {p h : BlockHash}, In t.parentToChild p h →
    ∃ e, t.blocksByHash[h]? = some e ∧ e.parentHash = p

/-- **LINKED**: the edges between blocks of the tree are there. -/
def Linked (t : TreeState T) : Prop :=
  ∀ (p h : BlockHash) (e : ExecutedBlockWithTrieUpdates T), t.blocksByHash[p]? ≠ none →
    t.blocksByHash[h]? = some e → e.parentHash = p → In t.parentToChild p h

section

variable {unlisted : BlockHash → Prop} {t : TreeState T}

theorem indexed_new (head : BlockNumHash) (kind : EngineApiKind) :
    Indexed (fun _ => False) (new head kind : TreeState T) := by
  have hnone : ∀ h, (new head kind : TreeState T).blocksByHash[h]? = none :=
    fun _ => getElem?_empty
  refine ⟨fun {h e} he => ?_, Listed.empty.congr fun n e => ?_, fun {p h} hin => ?_⟩
  · rw [hnone] at he
    nomatch he
  · simp [hnone]
  · exact absurd hin (not_in_of_none getElem?_empty h)

/-! ### Removing a block -/

variable {hash : BlockHash}

theorem removeByHash_of_none (h : t.blocksByHash[hash]? = none) :
    t.removeByHash hash = (none, t) := by
  rw [removeByHash, h]

theorem blocksByHash_removeByHash (t : TreeState T) (hash i : BlockHash) :
    (t.removeByHash hash).2.blocksByHash[i]? = if hash = i then none else t.blocksByHash[i]? := by
  rw [removeByHash]
  cases he : t.blocksByHash[hash]? with
  | none =>
    by_cases hi : hash = i
    · rw [if_pos hi, ← hi]
      exact he
    · rw [if_neg hi]
  | some e => exact get_erase _ _ _

theorem in_removeByHash (he : t.blocksByHash[hash]? = some e) :
    In (t.removeByHash hash).2.parentToChild p i
      ↔ (In t.parentToChild p i ∧ ¬ (p = e.parentHash ∧ i = hash)) ∧ p ≠ hash := by
  rw [removeByHash, he]
  exact in_erase.trans (and_congr_left' in_leave)

/-- **REMOVING A BLOCK** keeps the indexes. -/
theorem Indexed.removeByHash (h : Indexed unlisted t) (hash : BlockHash) :
    Indexed unlisted (t.removeByHash hash).2 := by
  cases he : t.blocksByHash[hash]? with
  | none =>
    rw [removeByHash_of_none he]
    exact h
  | some e =>
    have hget := blocksByHash_removeByHash t hash
    have hkey := h.key he
    refine ⟨fun {i e'} he' => ?_, ?_, fun {p i} hin => ?_⟩
    · rw [hget] at he'
      split at he'
      · nomatch he'
      · exact h.key he'
    · -- the vector gives up the block, if it is listed
      have hnum : (t.removeByHash hash).2.blocksByNumber
          = takeFrom t.blocksByNumber e.number (·.hash == hash) := by
        rw [TreeState.removeByHash, he]
      have hgone : ∀ n e',
          ((t.removeByHash hash).2.blocksByHash[e'.hash]? = some e' ∧ e'.number = n)
            ∧ ¬ unlisted e'.hash
          ↔ ((t.blocksByHash[e'.hash]? = some e' ∧ e'.number = n) ∧ ¬ unlisted e'.hash)
            ∧ ¬ (n = e.number ∧ e' = e) := by
        intro n e'
        rw [hget]
        by_cases hi : hash = e'.hash
        · rw [if_pos hi, ← hi, he]
          constructor
          · rintro ⟨⟨hno, -⟩, -⟩
            nomatch hno
          · rintro ⟨⟨⟨heq, rfl⟩, -⟩, hne⟩
            cases heq
            exact absurd ⟨rfl, rfl⟩ hne
        · rw [if_neg hi]
          refine (and_iff_left ?_).symm
          rintro ⟨-, rfl⟩
          exact hi hkey.symm
      rw [hnum]
      by_cases hun : unlisted hash
      · rw [h.byNumber.take_of_not]
        · refine h.byNumber.congr (fun n e' => ?_)
          rw [hgone]
          refine (and_iff_left_of_imp ?_).symm
          rintro ⟨-, hno⟩ ⟨-, rfl⟩
          exact hno (hkey ▸ hun)
        · rintro e' ⟨-, hno⟩
          rw [beq_eq_false_iff_ne]
          rintro rfl
          exact hno hun
      · have hfound : (fun b : ExecutedBlockWithTrieUpdates T => b.hash == hash) e = true :=
          beq_iff_eq.mpr hkey
        refine (h.byNumber.take ⟨⟨by rw [hkey, he], rfl⟩, hkey ▸ hun⟩ hfound ?_).congr
          (fun n e' => (hgone n e').symm)
        rintro e' ⟨⟨he', -⟩, -⟩ hfound
        rw [beq_iff_eq.mp hfound, he] at he'
        exact (some.inj he').symm
    · rw [in_removeByHash he] at hin
      obtain ⟨⟨hin, hne⟩, -⟩ := hin
      obtain ⟨e', he', hp⟩ := h.edge hin
      refine ⟨e', ?_, hp⟩
      rw [hget, if_neg fun hi => ?_, he']
      subst hi
      rw [he] at he'
      cases he'
      exact hne ⟨hp.symm, rfl⟩

theorem Linked.removeByHash (h : Linked t) (hash : BlockHash) : Linked (t.removeByHash hash).2 := by
  cases he : t.blocksByHash[hash]? with
  | none =>
    rw [removeByHash_of_none he]
    exact h
  | some e =>
    intro p i e' hp hi hpar
    rw [blocksByHash_removeByHash] at hp hi
    split at hi
    · nomatch hi
    · rename_i hne
      split at hp
      · exact absurd rfl hp
      · rename_i hne'
        exact (in_removeByHash he).mpr
          ⟨⟨h p i e' hp hi hpar, fun heq => hne heq.2.symm⟩, Ne.symm hne'⟩

end

/-! ### Removing many blocks -/

section

variable {P : TreeState T → Prop} {t t' : TreeState T}

/-- **REMOVAL RULE** for listed blocks: what each removal keeps. -/
theorem removeEach_rule (hrem : ∀ t, ∀ hash ∈ hashes, P t → P (t.removeByHash hash).2) (h : P t) :
    P (removeEach hashes t) := by
  induction hashes generalizing t with
  | nil => exact h
  | cons hash hashes ih =>
    exact ih (fun t i hi => hrem t i (mem_cons_of_mem _ hi)) (hrem t hash (mem_cons_self ..) h)

theorem removePersisted_rule
    (hfree : ∀ t updates, P t → P { t with persistedTrieUpdates := updates }) {hash : BlockHash}
    (h : P (t.removeByHash hash).2) : P (t.removePersisted hash) := by
  rw [removePersisted]
  generalize t.removeByHash hash = r at h
  obtain ⟨_ | ⟨removed, children⟩, t'⟩ := r
  · exact h
  · dsimp only
    cases removed.trie with
    | none => exact h
    | some updates => exact hfree _ _ h

/-- **REMOVAL RULE** for the walk of `remove_canonical_until`, which removes blocks up to a
    number. -/
theorem removeCanonicalLoop_rule
    (hfree : ∀ t updates, P t → P { t with persistedTrieUpdates := updates })
    (hrem : ∀ (t : TreeState T) (i : BlockHash) (e : ExecutedBlockWithTrieUpdates T), P t →
      t.blocksByHash[i]? = some e → e.number ≤ upperBound → P (t.removeByHash e.hash).2)
    (fuel : Nat) (currentBlock : BlockHash)
    (h : removeCanonicalLoop upperBound fuel currentBlock t = some t') : P t → P t' := by
  induction fuel generalizing currentBlock t t' with
  | zero => nomatch h
  | succ fuel ih =>
    intro hP
    rw [removeCanonicalLoop] at h
    cases he : t.blocksByHash[currentBlock]? with
    | none =>
      rw [he] at h
      cases h
      exact hP
    | some e =>
      rw [he] at h
      refine ih _ h ?_
      split
      · next hle => exact removePersisted_rule hfree (hrem t currentBlock e hP he hle)
      · exact hP

/-- **REMOVAL RULE** for the search through the children: what is removed has a property that
    children inherit. -/
theorem pruneLoop_rule {Q : BlockHash → Prop} (hrem : ∀ t i, P t → Q i → P (t.removeByHash i).2)
    (hchild : ∀ t i e children, P t → Q i → (t.removeByHash i).1 = some (e, children) →
      ∀ c ∈ children, Q c) (fuel : Nat) {blocks : List BlockHash}
    (h : pruneLoop fuel blocks t = some t') :
    (∀ i ∈ blocks, Q i) → P t → P t' := by
  induction fuel generalizing blocks t t' with
  | zero => nomatch h
  | succ fuel ih =>
    intro hQ hP
    cases blocks with
    | nil =>
      cases h
      exact hP
    | cons i blocks =>
      have hi := hQ i (mem_cons_self ..)
      have hblocks : ∀ j ∈ blocks, Q j := fun j hj => hQ j (mem_cons_of_mem _ hj)
      have hP' := hrem t i hP hi
      have hc := hchild t i
      rw [pruneLoop] at h
      generalize t.removeByHash i = r at h hP' hc
      obtain ⟨_ | ⟨e, children⟩, t1⟩ := r
      · exact ih h hblocks hP'
      · refine ih h (fun j hj => ?_) hP'
        rcases mem_append.mp hj with hj | hj
        · exact hblocks j hj
        · exact hc e children hP hi rfl j (ExtTreeSet.mem_toList.mp hj)

end

/-- What removals do: they keep the indexes and the links, and add no block. -/
structure Shrinks (t t' : TreeState T) : Prop where
  indexed : ∀ {unlisted : BlockHash → Prop}, Indexed unlisted t → Indexed unlisted t'
  linked : Linked t → Linked t'
  gone : ∀ {h : BlockHash}, t.blocksByHash[h]? = none → t'.blocksByHash[h]? = none

theorem Shrinks.refl (t : TreeState T) : Shrinks t t := ⟨fun h => h, fun h => h, fun h => h⟩

theorem Shrinks.trans (h : Shrinks t t') (h' : Shrinks t' t'') :
    Shrinks t t'' :=
  ⟨fun hi => h'.indexed (h.indexed hi), fun hl => h'.linked (h.linked hl),
    fun hg => h'.gone (h.gone hg)⟩

variable {t t' : TreeState T} {fuel : Nat}

theorem Shrinks.of_eq (hh : t'.blocksByHash = t.blocksByHash)
    (hn : t'.blocksByNumber = t.blocksByNumber) (hp : t'.parentToChild = t.parentToChild) :
    Shrinks t t' := by
  refine ⟨fun h => ⟨?_, ?_, ?_⟩, fun h => ?_, fun h => ?_⟩
  · rw [hh]
    exact h.key
  · rw [hn, hh]
    exact h.byNumber
  · rw [hp, hh]
    exact h.edge
  · rw [Linked, hh, hp]
    exact h
  · rw [hh]
    exact h

theorem shrinks_removeByHash (t : TreeState T) (hash : BlockHash) :
    Shrinks t (t.removeByHash hash).2 := by
  refine ⟨fun h => h.removeByHash hash, fun h => h.removeByHash hash, fun {i} h => ?_⟩
  rw [blocksByHash_removeByHash, h, ite_self]

theorem shrinks_removeEach (hashes : List BlockHash) (t : TreeState T) :
    Shrinks t (removeEach hashes t) :=
  removeEach_rule (P := Shrinks t) (fun t' hash _ h => h.trans (shrinks_removeByHash t' hash))
    (.refl t)

variable {upperBound : BlockNumber} {hash : BlockHash}

theorem shrinks_removeCanonicalLoop (fuel : Nat) (currentBlock : BlockHash)
    (h : removeCanonicalLoop upperBound fuel currentBlock t = some t') :
    Shrinks t t' :=
  removeCanonicalLoop_rule (P := Shrinks t) (fun _ _ h => h.trans (.of_eq rfl rfl rfl))
    (fun t' _ e h _ _ => h.trans (shrinks_removeByHash t' e.hash)) fuel currentBlock h (.refl t)

variable {lastPersistedHash : BlockHash}

/-- The search removes the blocks it starts from. -/
theorem shrinks_pruneLoop (fuel : Nat) (blocks : List BlockHash)
    (h : pruneLoop fuel blocks t = some t') :
    Shrinks t t' ∧ ∀ h ∈ blocks, t'.blocksByHash[h]? = none := by
  induction fuel generalizing blocks t t' with
  | zero => nomatch h
  | succ fuel ih =>
    cases blocks with
    | nil =>
      cases h
      exact ⟨.refl t, nofun⟩
    | cons block blocks =>
      have hrem := shrinks_removeByHash t block
      have hgone := blocksByHash_removeByHash t block block
      rw [if_pos rfl] at hgone
      rw [pruneLoop] at h
      generalize t.removeByHash block = r at hrem hgone h
      -- whatever follows leaves the removed block out
      have hrest : ∀ blocks', pruneLoop fuel blocks' r.2 = some t' → (∀ i ∈ blocks, i ∈ blocks') →
          Shrinks t t' ∧ ∀ i ∈ block :: blocks, t'.blocksByHash[i]? = none := by
        intro blocks' h' hsub
        obtain ⟨hs, hall⟩ := ih blocks' h'
        refine ⟨hrem.trans hs, fun i hi => ?_⟩
        rcases mem_cons.mp hi with rfl | hi
        · exact hs.gone hgone
        · exact hall i (hsub i hi)
      obtain ⟨_ | ⟨removed, children⟩, t1⟩ := r
      · exact hrest blocks h fun _ hi => hi
      · exact hrest _ h fun _ hi => mem_append_left _ hi

/-- The vector at the finalized number is split into what stays and what goes. -/
theorem cutFinalized_split (t : TreeState T) (finalized : BlockNumHash) :
    ∃ kept removed, (t.blocksByNumber[finalized.number]?.getD []).Perm (kept ++ removed)
      ∧ (t.cutFinalized finalized).1 = removed.map (·.hash)
      ∧ (∀ n, (t.cutFinalized finalized).2.blocksByNumber[n]?
          = if finalized.number = n then (if kept.isEmpty then none else some kept)
            else t.blocksByNumber[n]?)
      ∧ (t.cutFinalized finalized).2.blocksByHash = t.blocksByHash
      ∧ (t.cutFinalized finalized).2.parentToChild = t.parentToChild := by
  rw [cutFinalized]
  generalize t.blocksByNumber[finalized.number]?.getD [] = blocks
  cases hidx : blocks.findIdx? (·.hash == finalized.hash) with
  | none => exact ⟨[], blocks, .refl _, rfl, fun n => get_erase _ _ _, rfl, rfl⟩
  | some position =>
    obtain ⟨hlt, -⟩ := findIdx?_eq_some_iff_getElem.mp hidx
    have hget := getElem?_eq_getElem hlt
    refine ⟨[blocks[position]], swapRemove blocks position, perm_swapRemove hget, rfl,
      fun n => ?_, rfl, rfl⟩
    dsimp only
    rw [hget]
    refine (get_insert _ _ _ _).trans ?_
    rw [get_erase]
    by_cases hn : finalized.number = n
    · rw [if_pos hn, if_pos hn]
      rfl
    · rw [if_neg hn, if_neg hn, if_neg hn]

/-- **CUTTING AT THE FINALIZED NUMBER**: what left the vector is to be removed. -/
theorem Indexed.cutFinalized (h : Indexed (fun _ => False) t) (finalized : BlockNumHash) :
    Indexed (fun i => i ∈ (t.cutFinalized finalized).1) (t.cutFinalized finalized).2 := by
  obtain ⟨kept, removed, hperm, hout, hnum, hhash, hedge⟩ := t.cutFinalized_split finalized
  have hmem : ∀ e, e ∈ kept ∨ e ∈ removed ↔
      t.blocksByHash[e.hash]? = some e ∧ e.number = finalized.number := by
    intro e
    rw [← mem_append, ← hperm.mem_iff]
    have hlisted := h.byNumber.mem finalized.number e
    rw [not_false_eq_true, and_true] at hlisted
    rw [← hlisted]
    cases t.blocksByNumber[finalized.number]? with
    | none | some l => simp
  have hnd : (kept ++ removed).Nodup := by
    refine hperm.nodup_iff.mp ?_
    cases hl : t.blocksByNumber[finalized.number]? with
    | none => exact nodup_nil
    | some l => exact h.byNumber.nodup _ l hl
  obtain ⟨hndk, -, hdis⟩ := nodup_append.mp hnd
  -- a block of the tree is told by its hash
  have hremoved : ∀ e, t.blocksByHash[e.hash]? = some e →
      (e.hash ∈ removed.map (·.hash) ↔ e ∈ removed) := by
    intro e he
    rw [List.mem_map]
    refine ⟨?_, fun hin => ⟨e, hin, rfl⟩⟩
    rintro ⟨e', hin, heq⟩
    have he' := ((hmem e').mp (Or.inr hin)).1
    rw [heq, he] at he'
    exact some.inj he' ▸ hin
  refine ⟨?_, ?_, ?_⟩
  · rw [hhash]
    exact h.key
  · rw [hout, hhash]
    refine h.byNumber.replace hnum hndk (fun e => ⟨fun hk => ?_, ?_⟩) fun n e hn => ?_
    · have he := (hmem e).mp (Or.inl hk)
      refine ⟨he, fun hin => ?_⟩
      exact hdis e hk e ((hremoved e he.1).mp hin) rfl
    · rintro ⟨he, hno⟩
      refine ((hmem e).mpr he).resolve_right fun hin => hno ?_
      exact (hremoved e he.1).mpr hin
    · refine and_congr_right (fun he => iff_of_true not_false fun hin => hn ?_)
      exact ((hmem e).mp (Or.inr ((hremoved e he.1).mp hin))).2.symm.trans he.2
  · rw [hhash, hedge]
    exact h.edge

/-- **PRUNING** keeps the indexes and the links. -/
theorem pruneFinalizedSidechains_keeps
    (hrun : t.pruneFinalizedSidechains fuel finalized = some t') (h : Indexed (fun _ => False) t) :
    Indexed (fun _ => False) t' ∧ (Linked t → Linked t') := by
  have h1 : Shrinks t (removeEach (t.hashesBelow finalized.number) t).prunePersistedTrieUpdates :=
    (shrinks_removeEach _ t).trans (.of_eq rfl rfl rfl)
  rw [pruneFinalizedSidechains] at hrun
  generalize (removeEach (t.hashesBelow finalized.number) t).prunePersistedTrieUpdates = t1
    at h1 hrun
  obtain ⟨hs, hall⟩ := shrinks_pruneLoop fuel _ hrun
  have hi := hs.indexed ((h1.indexed h).cutFinalized finalized)
  refine ⟨⟨hi.key, hi.byNumber.congr fun n e => ?_, hi.edge⟩, fun hl => hs.linked ?_⟩
  · -- all blocks are listed again
    refine and_congr_right fun he => iff_of_true (fun hun => ?_) not_false
    rw [hall _ hun] at he
    nomatch he.1
  · obtain ⟨-, -, -, -, -, hhash, hedge⟩ := t1.cutFinalized_split finalized
    rw [Linked, hhash, hedge]
    exact h1.linked hl

theorem removeUntil_keeps {upperBound : BlockNumHash}
    {finalizedNumHash : Option BlockNumHash}
    (hrun : t.removeUntil fuel upperBound lastPersistedHash finalizedNumHash = some t')
    (h : Indexed (fun _ => False) t) : Indexed (fun _ => False) t' ∧ (Linked t → Linked t') := by
  obtain ⟨t1, hcan, hrun⟩ := bind_eq_some_iff.mp hrun
  have hs : Shrinks t t1 := by
    obtain ⟨canonical, -, hcan⟩ := bind_eq_some_iff.mp hcan
    cases canonical with
    | false =>
      cases hcan
      exact .refl t
    | true => exact shrinks_removeCanonicalLoop fuel _ hcan
  cases finalizedNumHash with
  | none =>
    cases hrun
    exact ⟨hs.indexed h, hs.linked⟩
  | some finalized =>
    obtain ⟨h', hl'⟩ := pruneFinalizedSidechains_keeps hrun (hs.indexed h)
    exact ⟨h', fun hl => hl' (hs.linked hl)⟩

/-! ### Inserting a block -/

section

variable {t : TreeState T} {e : ExecutedBlockWithTrieUpdates T}

theorem not_contains_iff :
    ¬ t.blocksByHash.contains hash = true ↔ t.blocksByHash[hash]? = none := by
  rw [← mem_iff_contains, mem_iff_isSome_getElem?, Bool.not_eq_true,
    isSome_eq_false_iff, isNone_iff_eq_none]

theorem blocksByHash_insertExecuted (hnew : t.blocksByHash[e.hash]? = none) (i : BlockHash) :
    (t.insertExecuted e).blocksByHash[i]? = if e.hash = i then some e else t.blocksByHash[i]? := by
  rw [insertExecuted, if_neg (not_contains_iff.mpr hnew)]
  exact get_insert _ _ _ _

variable (h : Indexed (fun _ => False) t) (hnew : t.blocksByHash[e.hash]? = none)

include h hnew

theorem in_insertExecuted :
    In (t.insertExecuted e).parentToChild p i
      ↔ In t.parentToChild p i ∨ p = e.parentHash ∧ i = e.hash := by
  rw [← in_add]
  have hmap : (t.insertExecuted e).parentToChild
      = (t.parentToChild.add e.parentHash e.hash).map (fun _ children =>
          children.filter fun child => (t.blocksByHash.insert e.hash e).contains child) := by
    rw [insertExecuted, if_neg (not_contains_iff.mpr hnew)]
  -- the sweep finds no child that is gone
  have hstay : In (t.parentToChild.add e.parentHash e.hash) p i →
      (t.blocksByHash.insert e.hash e).contains i = true := by
    intro hin
    rw [← mem_iff_contains, mem_iff_isSome_getElem?, get_insert]
    rcases in_add.mp hin with hin | ⟨-, rfl⟩
    · obtain ⟨e', he', -⟩ := h.edge hin
      split
      · rfl
      · rw [he']
        rfl
    · rw [if_pos rfl]
      rfl
  rw [hmap, In, In]
  simp only [ExtTreeMap.getElem?_map, map_eq_some_iff]
  constructor
  · rintro ⟨_, ⟨s, hs, rfl⟩, hi⟩
    exact ⟨s, hs, (ExtTreeSet.mem_filter.mp hi).1⟩
  · rintro ⟨s, hs, hi⟩
    refine ⟨_, ⟨s, hs, rfl⟩, ExtTreeSet.mem_filter.mpr ⟨hi, ?_⟩⟩
    rw [ExtTreeSet.get_eq hi]
    exact hstay ⟨s, hs, hi⟩

/-- **INSERTING A NEW BLOCK** keeps the indexes. -/
theorem Indexed.insertExecuted : Indexed (fun _ => False) (t.insertExecuted e) := by
  have hget := blocksByHash_insertExecuted hnew
  refine ⟨fun {i e'} he' => ?_, ?_, fun {p i} hin => ?_⟩
  · rw [hget] at he'
    split at he'
    · cases he'
      assumption
    · exact h.key he'
  · have hnum : (t.insertExecuted e).blocksByNumber = pushTo t.blocksByNumber e.number e := by
      rw [TreeState.insertExecuted, if_neg (not_contains_iff.mpr hnew)]
    rw [hnum]
    refine (h.byNumber.push fun hin => ?_).congr fun n e' => ?_
    · rw [hnew] at hin
      nomatch hin.1.1
    rw [hget, not_false_eq_true, and_true, and_true]
    by_cases hi : e.hash = e'.hash
    · rw [if_pos hi, ← hi, hnew]
      constructor
      · rintro (⟨⟨⟩, -⟩ | ⟨rfl, rfl⟩)
        · exact ⟨rfl, rfl⟩
      · rintro ⟨heq, rfl⟩
        cases heq
        exact .inr ⟨rfl, rfl⟩
    · rw [if_neg hi]
      refine or_iff_left ?_
      rintro ⟨-, rfl⟩
      exact hi rfl
  · rw [in_insertExecuted h hnew] at hin
    rcases hin with hin | ⟨rfl, rfl⟩
    · obtain ⟨e', he', hp⟩ := h.edge hin
      refine ⟨e', ?_, hp⟩
      rw [hget, if_neg fun hi => ?_, he']
      rw [← hi, hnew] at he'
      nomatch he'
    · exact ⟨e, by rw [hget, if_pos rfl], rfl⟩

/-- **RECONNECTED**: the children a hash already has in the tree are its children
    in `parent_to_child`. -/
def Reconnected (t : TreeState T) (hash : BlockHash) : Prop :=
  ∀ (i : BlockHash) (child : ExecutedBlockWithTrieUpdates T), t.blocksByHash[i]? = some child →
    child.parentHash = hash → In t.parentToChild hash i

/-- A new block is linked exactly when it is reconnected. -/
theorem linked_insertExecuted (hl : Linked t) :
    Linked (t.insertExecuted e) ↔ Reconnected t e.hash := by
  have hget := blocksByHash_insertExecuted hnew
  constructor
  · intro hl' i child hi hpar
    have hne : e.hash ≠ i := by
      rintro rfl
      rw [hnew] at hi
      nomatch hi
    have hin := hl' e.hash i child (by rw [hget, if_pos rfl]; exact nofun)
      (by rw [hget, if_neg hne, hi]) hpar
    exact ((in_insertExecuted h hnew).mp hin).resolve_right (hne ·.2.symm)
  · intro hrec p i child hp hi hpar
    rw [in_insertExecuted h hnew]
    rw [hget] at hp hi
    by_cases hei : e.hash = i
    · rw [if_pos hei] at hi
      cases hi
      exact .inr ⟨hpar.symm, hei.symm⟩
    · rw [if_neg hei] at hi
      refine .inl ?_
      by_cases hep : e.hash = p
      · subst hep
        exact hrec i child hi hpar
      · rw [if_neg hep] at hp
        exact hl p i child hp hi hpar

/-- Inserting a block does not matter for the children of other hashes. -/
theorem reconnected_insertExecuted (hash : BlockHash) :
    Reconnected (t.insertExecuted e) hash ↔ Reconnected t hash := by
  have hget := blocksByHash_insertExecuted hnew
  constructor
  · intro hrec i child hi hpar
    have hne : e.hash ≠ i := by
      rintro rfl
      rw [hnew] at hi
      nomatch hi
    exact ((in_insertExecuted h hnew).mp (hrec i child (by rw [hget, if_neg hne, hi]) hpar)).resolve_right
      (hne ·.2.symm)
  · intro hrec i child hi hpar
    rw [in_insertExecuted h hnew]
    rw [hget] at hi
    split at hi
    · rename_i hei
      cases hi
      exact .inr ⟨hpar.symm, hei.symm⟩
    · exact .inl (hrec i child hi hpar)

theorem linked_of_insertExecuted (hl : Linked (t.insertExecuted e)) : Linked t := by
  have hget := blocksByHash_insertExecuted hnew
  have hold : ∀ {i}, t.blocksByHash[i]? ≠ none → e.hash ≠ i := by
    rintro i hi rfl
    exact hi hnew
  intro p i child hp hi hpar
  have hi' : t.blocksByHash[i]? ≠ none := by
    rw [hi]
    nofun
  have hin := hl p i child (by rw [hget, if_neg (hold hp)]; exact hp)
    (by rw [hget, if_neg (hold hi'), hi]) hpar
  exact ((in_insertExecuted h hnew).mp hin).resolve_right (hold hi' ·.2.symm)

end

theorem reinsertReorgedBlocks_indexed (blocks : List (ExecutedBlockWithTrieUpdates T))
    (h : Indexed (fun _ => False) t) :
    Indexed (fun _ => False) (reinsertReorgedBlocks blocks t) ∧
      (Linked (reinsertReorgedBlocks blocks t) → Linked t) := by
  induction blocks generalizing t with
  | nil => exact ⟨h, fun hl => hl⟩
  | cons e blocks ih =>
    rw [reinsertReorgedBlocks]
    by_cases hnew : t.blocksByHash[e.hash]?.isNone = true
    · rw [if_pos hnew]
      rw [isNone_iff_eq_none] at hnew
      obtain ⟨h', hl'⟩ := ih (h.insertExecuted hnew)
      exact ⟨h', fun hl => linked_of_insertExecuted h hnew (hl' hl)⟩
    · rw [if_neg hnew]
      exact ih h

/-- **PUTTING BLOCKS BACK** leaves the links complete exactly when every block that
    was missing is reconnected. -/
theorem linked_reinsertReorgedBlocks (blocks : List (ExecutedBlockWithTrieUpdates T))
    (h : Indexed (fun _ => False) t) (hl : Linked t) :
    (Linked (reinsertReorgedBlocks blocks t) ↔ ∀ e ∈ blocks, t.blocksByHash[e.hash]? = none →
      Reconnected t e.hash) := by
  induction blocks generalizing t with
  | nil => exact iff_of_true hl nofun
  | cons e blocks ih =>
    rw [reinsertReorgedBlocks, forall_mem_cons]
    by_cases hnew : t.blocksByHash[e.hash]?.isNone = true
    · rw [if_pos hnew]
      rw [isNone_iff_eq_none] at hnew
      have h' := h.insertExecuted hnew
      have hlink := linked_insertExecuted h hnew hl
      by_cases hrec : Reconnected t e.hash
      · rw [ih h' (hlink.mpr hrec)]
        refine Iff.trans (forall₂_congr fun e' he' => ?_) (and_iff_right fun _ => hrec).symm
        rw [reconnected_insertExecuted h hnew, blocksByHash_insertExecuted hnew]
        by_cases hi : e.hash = e'.hash
        · rw [if_pos hi, ← hi]
          exact iff_of_true nofun fun _ => hrec
        · rw [if_neg hi]
      · -- a missing edge stays missing
        refine iff_of_false (fun hfin => hrec ?_) fun hall => hrec (hall.1 hnew)
        exact hlink.mp ((reinsertReorgedBlocks_indexed blocks h').2 hfin)
    · rw [if_neg hnew, ih h hl]
      refine (and_iff_right fun hno => absurd ?_ hnew).symm
      rw [isNone_iff_eq_none, hno]

/-! ## Runs -/

/-- **THE THREE INDEXES AGREE.** -/
structure IndexesAgree (t : TreeState T) : Prop where
  /-- The same blocks by hash and by number, each once. -/
  byNumber : ∀ (n : BlockNumber) (e : ExecutedBlockWithTrieUpdates T),
    (∃ l, t.blocksByNumber[n]? = some l ∧ e ∈ l) ↔
      t.blocksByHash[e.hash]? = some e ∧ e.number = n
  byHash : ∀ (h : BlockHash) (e : ExecutedBlockWithTrieUpdates T),
    t.blocksByHash[h]? = some e → e.hash = h
  once : ∀ (n : BlockNumber) (l : List (ExecutedBlockWithTrieUpdates T)),
    t.blocksByNumber[n]? = some l → l ≠ [] ∧ l.Nodup
  /-- The edges between blocks of the tree. -/
  linked : ∀ (p c : ExecutedBlockWithTrieUpdates T), t.blocksByHash[p.hash]? = some p →
    t.blocksByHash[c.hash]? = some c → c.parentHash = p.hash → In t.parentToChild p.hash c.hash
  /-- No edge to a block outside the tree. -/
  noGhost : ∀ p h : BlockHash, In t.parentToChild p h → t.blocksByHash[h]? ≠ none

theorem Indexed.linked_iff (h : Indexed (fun _ => False) t) : IndexesAgree t ↔ Linked t := by
  constructor
  · intro ha p i e hp hi hpar
    obtain ⟨b, hb⟩ := ne_none_iff_exists'.mp hp
    have hkb := h.key hb
    have hke := h.key hi
    rw [← hkb, ← hke]
    exact ha.linked b e (by rw [hkb, hb]) (by rw [hke, hi]) (hpar.trans hkb.symm)
  · intro hl
    refine ⟨fun n e => (h.byNumber.mem n e).trans (and_iff_left not_false), fun _ _ => h.key,
      fun n l hn => ⟨h.byNumber.nonempty n l hn, h.byNumber.nodup n l hn⟩,
      fun p c hp hc hpar => ?_, fun p i hin => ?_⟩
    · exact hl p.hash c.hash c (by rw [hp]; exact nofun) hc hpar
    · obtain ⟨e, he, -⟩ := h.edge hin
      rw [he]
      nofun

/-- `Reconnected`, executable. -/
def reconnected (t : TreeState T) (hash : BlockHash) : Bool :=
  t.blocksByHash.toList.all (fun e => e.2.parentHash != hash
    || t.parentToChild[hash]?.any (fun children => children.contains e.1))

theorem reconnected_iff : t.reconnected hash = true ↔ Reconnected t hash := by
  rw [reconnected, List.all_eq_true]
  constructor
  · intro h i child hi hpar
    have hany := h (i, child) (mem_toList.mpr hi)
    rw [Bool.or_eq_true, bne_iff_ne] at hany
    obtain ⟨s, hs, hin⟩ := (any_eq_true _ _).mp (hany.resolve_left (· hpar))
    exact ⟨s, hs, ExtTreeSet.mem_iff_contains.mpr hin⟩
  · rintro h ⟨i, child⟩ hmem
    rw [Bool.or_eq_true, bne_iff_ne]
    by_cases hpar : child.parentHash = hash
    · obtain ⟨s, hs, hin⟩ := h i child (mem_toList.mp hmem) hpar
      exact .inr ((any_eq_true _ _).mpr ⟨s, hs, ExtTreeSet.mem_iff_contains.mp hin⟩)
    · exact .inl hpar

/-- Every block that an operation puts into the tree is reconnected. -/
def reconnects (t : TreeState T) : Op T → Bool
  | .insertExecuted executed =>
    t.blocksByHash[executed.hash]?.isSome || t.reconnected executed.hash
  | .onCanonicalChainUpdate chainUpdate =>
    (t.reorged chainUpdate).all (fun e => t.blocksByHash[e.hash]?.isSome || t.reconnected e.hash)
  | _ => true

theorem isSome_or_reconnected_iff :
    (t.blocksByHash[hash]?.isSome || t.reconnected hash) = true
      ↔ (t.blocksByHash[hash]? = none → Reconnected t hash) := by
  rw [Bool.or_eq_true, reconnected_iff]
  cases t.blocksByHash[hash]? with
  | none | some e => simp

/-- **ONE OPERATION** keeps the indexes; the links are complete exactly when it reconnects what it
    puts in. -/
theorem Step.keeps (hstep : Step t op t') (h : Indexed (fun _ => False) t) (hl : Linked t) :
    Indexed (fun _ => False) t' ∧ (Linked t' ↔ t.reconnects op = true) := by
  obtain ⟨fuel, hrun⟩ := hstep
  cases op with
  | insertExecuted e =>
    cases hrun
    rw [reconnects, isSome_or_reconnected_iff]
    cases hold : t.blocksByHash[e.hash]? with
    | none =>
      refine ⟨h.insertExecuted hold, (linked_insertExecuted h hold hl).trans ?_⟩
      exact ⟨fun hrec _ => hrec, fun hrec => hrec rfl⟩
    | some e' =>
      rw [insertExecuted, if_pos (by
        rw [← mem_iff_contains, mem_iff_isSome_getElem?, hold]
        rfl)]
      exact ⟨h, iff_of_true hl nofun⟩
  | setCanonicalHead newHead =>
    cases hrun
    have hs : Shrinks t (t.setCanonicalHead newHead) := .of_eq rfl rfl rfl
    exact ⟨hs.indexed h, iff_of_true (hs.linked hl) rfl⟩
  | removeUntil upperBound lastPersistedHash finalizedNumHash =>
    obtain ⟨h', hl'⟩ := removeUntil_keeps hrun h
    exact ⟨h', iff_of_true (hl' hl) rfl⟩
  | onCanonicalChainUpdate chainUpdate =>
    obtain ⟨tip, -, heq⟩ := bind_eq_some_iff.mp hrun
    cases heq
    have hs : Shrinks t (t.setCanonicalHead tip.numHash) := .of_eq rfl rfl rfl
    refine ⟨(reinsertReorgedBlocks_indexed _ (hs.indexed h)).1, ?_⟩
    rw [linked_reinsertReorgedBlocks _ (hs.indexed h) (hs.linked hl), reconnects, List.all_eq_true]
    exact forall₂_congr fun e _ => isSome_or_reconnected_iff.symm

/-- **THE INDEXES AGREE IN EVERY RUN** whose operations reconnect the blocks they put in, and an
    operation keeps the agreement exactly when it does so. -/
theorem indexesAgree_of_run {head : BlockNumHash} {kind : EngineApiKind} {t : TreeState T}
    (h : Runs.ReachedBy Step (fun t op => t.reconnects op = true) (new head kind) t) :
    IndexesAgree t ∧ ∀ op t', Step t op t' → (IndexesAgree t' ↔ t.reconnects op = true) := by
  have hinv : Indexed (fun _ => False) t ∧ Linked t := by
    refine h.invariant (I := fun t => Indexed (fun _ => False) t ∧ Linked t)
      ⟨indexed_new head kind, fun _ _ _ _ he => nomatch getElem?_empty.symm.trans he⟩ ?_
    intro t op t' _ hi hop hstep
    obtain ⟨h', hl'⟩ := hstep.keeps hi.1 hi.2
    exact ⟨h', hl'.mpr hop⟩
  refine ⟨hinv.1.linked_iff.mpr hinv.2, fun op t' hstep => ?_⟩
  obtain ⟨h', hl'⟩ := hstep.keeps hinv.1 hinv.2
  exact h'.linked_iff.trans hl'

/-- A parent and its child. -/
def sampleBlock (hash parentHash number : Nat) : ExecutedBlockWithTrieUpdates Unit :=
  ⟨⟨hash, parentHash, number⟩, some ()⟩

/-- The parent was persisted and removed; inserted again, it has no edge to the child that stayed.
    -/
theorem edge_lost_on_reinsert :
    ∃ t : TreeState Unit, Runs.Reachable Step (new ⟨0, 1⟩ .ethereum) t
      ∧ t.blocksByHash[(2 : BlockHash)]? = some (sampleBlock 2 1 1)
      ∧ t.blocksByHash[(3 : BlockHash)]? = some (sampleBlock 3 2 2)
      ∧ t.parentToChild[(2 : BlockHash)]? = none := by
  obtain ⟨t, ht, hcheck⟩ := Runs.exists_of_apply apply (fun _ _ => true) 9
    [.insertExecuted (sampleBlock 2 1 1), .insertExecuted (sampleBlock 3 2 2),
      .setCanonicalHead ⟨2, 3⟩, .removeUntil ⟨1, 2⟩ 2 none, .insertExecuted (sampleBlock 2 1 1)]
    (new ⟨0, 1⟩ .ethereum)
    (fun t => t.blocksByHash[(2 : BlockHash)]? == some (sampleBlock 2 1 1)
      && (t.blocksByHash[(3 : BlockHash)]? == some (sampleBlock 3 2 2)
      && t.parentToChild[(2 : BlockHash)]?.isNone)) (by decide +kernel)
  rw [Bool.and_eq_true, Bool.and_eq_true, beq_iff_eq, beq_iff_eq, isNone_iff_eq_none] at hcheck
  exact ⟨t, ht.reachable, hcheck⟩

theorem indexesAgree_of_run_sample :
    ∃ t : TreeState Unit,
      Runs.ReachedBy Step (fun t op => t.reconnects op = true) (new ⟨0, 1⟩ .ethereum) t
      ∧ t.blocksByHash.size = 2 ∧ IndexesAgree t := by
  obtain ⟨t, ht, hcheck⟩ := Runs.exists_of_apply apply reconnects 9
    [.insertExecuted (sampleBlock 2 1 1), .insertExecuted (sampleBlock 3 2 2),
      .insertExecuted (sampleBlock 4 2 2), .setCanonicalHead ⟨2, 3⟩,
      .removeUntil ⟨1, 2⟩ 2 (some ⟨1, 2⟩)]
    (new ⟨0, 1⟩ .ethereum) (fun t => t.blocksByHash.size == 2) (by decide +kernel)
  exact ⟨t, ht, beq_iff_eq.mp hcheck, (indexesAgree_of_run ht).1⟩

end TreeState

end Engine

import Pasifika.Engine.Block
import Pasifika.Runs

/-! # Canonical blocks in memory

The canonical blocks that are not on disk yet are kept twice: `blocks` maps a
hash to a `BlockState`, which holds the states of all blocks below it, and
`numbers` maps a number to a hash. The two maps always represent ONE chain of
blocks:

* a commit puts blocks on top of the chain, a reorg takes some off first;
* `remove_persisted_blocks` rebuilds what is above the persisted height, so that
  no remaining state holds a persisted block.

What readers rely on is read off the chain at the end. -/

namespace ChainState

open Std (ExtTreeMap)
open OrderedMap Engine List Option

variable {T : Type}

/-- `BlockState`: a block and the state of its parent, if that is in memory. -/
structure BlockState (T : Type) where
  block : ExecutedBlockWithTrieUpdates T
  parent : Option (BlockState T)

namespace BlockState

def withParent (block : ExecutedBlockWithTrieUpdates T) (parent : Option (BlockState T)) :
    BlockState T := ⟨block, parent⟩

def hash (st : BlockState T) : BlockHash := st.block.hash

def number (st : BlockState T) : BlockNumber := st.block.number

/-- `chain`: the state and the states it holds, newest first. -/
def chain : BlockState T → List (BlockState T)
  | ⟨block, none⟩ => [⟨block, none⟩]
  | ⟨block, some parent⟩ => ⟨block, some parent⟩ :: parent.chain

/-- `parent_num_hash` of a header; the subtraction saturates. -/
def parentNumHash (block : RecoveredBlock) : BlockNumHash := ⟨block.number - 1, block.parentHash⟩

def anchor : BlockState T → BlockNumHash
  | ⟨block, none⟩ => parentNumHash block.recoveredBlock
  | ⟨_, some parent⟩ => parent.anchor

end BlockState

structure InMemoryState (T : Type) where
  blocks : ExtTreeMap BlockHash (BlockState T)
  numbers : ExtTreeMap BlockNumber BlockHash
  pending : Option (BlockState T)

namespace InMemoryState

/-- `CanonicalInMemoryState::empty`, and the maps of `with_head`. -/
def empty : InMemoryState T where
  blocks := ∅
  numbers := ∅
  pending := none

/-- One round of the loops that append blocks. -/
def appendBlock (s : InMemoryState T) (block : ExecutedBlockWithTrieUpdates T) :
    InMemoryState T :=
  let blockState := BlockState.withParent block s.blocks[block.parentHash]?
  { s with
    blocks := s.blocks.insert blockState.hash blockState
    numbers := s.numbers.insert blockState.number blockState.hash }

/-- One round of the loop that removes the reorged blocks. -/
def removeReorged (s : InMemoryState T) (block : RecoveredBlock) : InMemoryState T :=
  { s with
    blocks := s.blocks.erase block.hash
    numbers := s.numbers.erase block.number }

def updateBlocks (s : InMemoryState T) (newBlocks : List (ExecutedBlockWithTrieUpdates T))
    (reorged : List RecoveredBlock) : InMemoryState T :=
  { newBlocks.foldl appendBlock (reorged.foldl removeReorged s) with pending := none }

def updateChain (s : InMemoryState T) : NewCanonicalChain T → InMemoryState T
  | .commit new => s.updateBlocks new []
  | .reorg new old => s.updateBlocks new old

def setPendingBlock (s : InMemoryState T) (pending : ExecutedBlockWithTrieUpdates T) :
    InMemoryState T :=
  { s with pending := some (.withParent pending s.blocks[pending.parentHash]?) }

/-- The states in memory. -/
def stored (s : InMemoryState T) : List (BlockState T) := s.blocks.toList.map Prod.snd

/-- The blocks above the persisted height, sorted by number. -/
def notPersisted (s : InMemoryState T) (persistedHeight : BlockNumber) :
    List (ExecutedBlockWithTrieUpdates T) :=
  ((s.stored.map BlockState.block).filter (fun b => decide (persistedHeight < b.number))).insertionSort
    (fun a b => a.number ≤ b.number)

def removePersistedBlocks (s : InMemoryState T) (persisted : BlockNumHash) : InMemoryState T :=
  match s.blocks[persisted.hash]? with
  -- the canonical blocks were not the ones that were persisted
  | none => s
  | some _ =>
    let s' := (s.notPersisted persisted.number).foldl appendBlock
      { s with blocks := ∅, numbers := ∅ }
    { s' with
      pending := s.pending.map (fun p => { p with parent := s'.blocks[p.block.parentHash]? }) }

def clearState (_ : InMemoryState T) : InMemoryState T := empty

/-- The operations. -/
inductive Op (T : Type) where
  | updateChain (newChain : NewCanonicalChain T)
  | setPendingBlock (pending : ExecutedBlockWithTrieUpdates T)
  | removePersistedBlocks (persisted : BlockNumHash)
  | clearState

def apply (s : InMemoryState T) : Op T → InMemoryState T
  | .updateChain newChain => s.updateChain newChain
  | .setPendingBlock pending => s.setPendingBlock pending
  | .removePersistedBlocks persisted => s.removePersistedBlocks persisted
  | .clearState => s.clearState

def Step (s : InMemoryState T) (op : Op T) (s' : InMemoryState T) : Prop := s.apply op = s'

/-! ## Chain updates -/

/-- A block on top of its parent. -/
def Follows (child parent : RecoveredBlock) : Prop :=
  child.parentHash = parent.hash ∧ child.number = parent.number + 1

instance (child parent : RecoveredBlock) : Decidable (Follows child parent) :=
  inferInstanceAs (Decidable (_ ∧ _))

/-- A chain of blocks, oldest first. -/
def Linked (blocks : List RecoveredBlock) : Prop := blocks.IsChain (fun b c => Follows c b)

instance (blocks : List RecoveredBlock) : Decidable (Linked blocks) :=
  inferInstanceAs (Decidable (List.IsChain _ _))

/-- The blocks of a chain without their trie updates. -/
def recovered (blocks : List (ExecutedBlockWithTrieUpdates T)) : List RecoveredBlock :=
  blocks.map ExecutedBlockWithTrieUpdates.recoveredBlock

/-- A hash names one block, among the new ones and those in memory. -/
def HashesNameBlocks (s : InMemoryState T) (new : List (ExecutedBlockWithTrieUpdates T)) : Prop :=
  ∀ b ∈ recovered new, (∀ c ∈ recovered new, b.hash = c.hash → b = c) ∧
    ∀ st ∈ s.stored, b.hash = st.hash → b = st.block.recoveredBlock

/-- The new blocks extend the head in memory, if there is one. -/
def ExtendsHead (s : InMemoryState T) (new : List (ExecutedBlockWithTrieUpdates T)) : Prop :=
  ∀ first ∈ (recovered new).head?, ∀ st ∈ s.stored, (∀ st' ∈ s.stored, st'.number ≤ st.number) →
    Follows first st.block.recoveredBlock

/-- The old blocks are the tip of the chain in memory. -/
def IsTip (s : InMemoryState T) (old : List RecoveredBlock) : Prop :=
  Linked old ∧ (∀ b ∈ old, ∃ st ∈ s.stored, st.block.recoveredBlock = b) ∧
    ∀ last ∈ old.getLast?, ∀ st ∈ s.stored, st.number ≤ last.number

/-- Two chains on the same parent. -/
def SameParent (new old : List RecoveredBlock) : Prop :=
  ∃ first ∈ old.head?, ∀ b ∈ new.head?, b.parentHash = first.parentHash ∧ b.number = first.number

/-- **CHAIN UPDATES**: a commit extends the head, a reorg replaces the tip by a chain on its parent.
    -/
def Op.Admissible (s : InMemoryState T) : Op T → Prop
  | .updateChain (.commit new) =>
    HashesNameBlocks s new ∧ Linked (recovered new) ∧ ExtendsHead s new
  | .updateChain (.reorg new old) =>
    HashesNameBlocks s new ∧ Linked (recovered new) ∧ IsTip s old ∧
      SameParent (recovered new) old
  | _ => True

instance (s : InMemoryState T) (new : List (ExecutedBlockWithTrieUpdates T)) :
    Decidable (HashesNameBlocks s new) := by
  unfold HashesNameBlocks; infer_instance

instance (s : InMemoryState T) (new : List (ExecutedBlockWithTrieUpdates T)) :
    Decidable (ExtendsHead s new) := by
  unfold ExtendsHead; infer_instance

instance (s : InMemoryState T) (old : List RecoveredBlock) : Decidable (IsTip s old) := by
  unfold IsTip; infer_instance

instance (new old : List RecoveredBlock) : Decidable (SameParent new old) := by
  unfold SameParent; infer_instance

instance (s : InMemoryState T) : (op : Op T) → Decidable (Op.Admissible s op)
  | .updateChain (.commit _) => inferInstanceAs (Decidable (_ ∧ _))
  | .updateChain (.reorg _ _) => inferInstanceAs (Decidable (_ ∧ _))
  | .setPendingBlock _ => inferInstanceAs (Decidable True)
  | .removePersistedBlocks _ => inferInstanceAs (Decidable True)
  | .clearState => inferInstanceAs (Decidable True)

/-! ## The chain that the maps represent -/

/-- The state of the newest block of a chain, newest first. -/
def stack : List (ExecutedBlockWithTrieUpdates T) → Option (BlockState T)
  | [] => none
  | b :: l => some ⟨b, stack l⟩

/-- Blocks from newest to oldest, each on its parent. -/
abbrev Chained (l : List (ExecutedBlockWithTrieUpdates T)) : Prop :=
  l.IsChain (fun b p => Follows b.recoveredBlock p.recoveredBlock)

/-- Numbers descend along a chain. -/
theorem descending_of_follows {l : List RecoveredBlock} (h : l.IsChain Follows) :
    l.Pairwise (fun b p => p.number < b.number) := by
  have htrans : Trans (fun b p : RecoveredBlock => p.number < b.number)
      (fun b p : RecoveredBlock => p.number < b.number)
      (fun b p : RecoveredBlock => p.number < b.number) :=
    ⟨fun h h' => lt_trans h' h⟩
  refine isChain_iff_pairwise.mp (h.imp ?_)
  intro b p hf
  exact Nat.lt_of_succ_le (le_of_eq hf.2.symm)

variable {l keep new : List (ExecutedBlockWithTrieUpdates T)} {s : InMemoryState T}
variable {b : ExecutedBlockWithTrieUpdates T}

theorem Chained.descending (h : Chained l) : l.Pairwise (fun b p => p.number < b.number) :=
  pairwise_map.mp (descending_of_follows ((isChain_map _).mpr h))

theorem Chained.eq_of_number (h : Chained l) (hb : b ∈ l) (hc : c ∈ l) (heq : b.number = c.number) :
    b = c := by
  by_contra hne
  have hp : l.Pairwise (·.number ≠ ·.number) := h.descending.imp (·.ne')
  have : Std.Symm (fun b c : ExecutedBlockWithTrieUpdates T => b.number ≠ c.number) :=
    ⟨fun _ _ h => h.symm⟩
  exact hp.forall hb hc hne heq

/-- **THE REPRESENTED CHAIN**: exactly its blocks are stored, each on the stack of those below it.
    -/
structure Represents (s : InMemoryState T) (l : List (ExecutedBlockWithTrieUpdates T)) : Prop where
  chained : Chained l
  blocks : ∀ h st, s.blocks[h]? = some st ↔
    ∃ b l', (b :: l') <:+ l ∧ b.hash = h ∧ st = ⟨b, stack l'⟩
  numbers : ∀ n h, s.numbers[n]? = some h ↔ ∃ b ∈ l, b.number = n ∧ b.hash = h

variable {st : BlockState T}

theorem mem_stored : st ∈ s.stored ↔ ∃ h : BlockHash, s.blocks[h]? = some st := by
  rw [stored, List.mem_map]
  constructor
  · rintro ⟨⟨h, st⟩, hmem, rfl⟩
    exact ⟨h, mem_toList.mp hmem⟩
  · rintro ⟨h, hst⟩
    exact ⟨(h, st), mem_toList.mpr hst, rfl⟩

theorem represents_empty (hb : s.blocks = ∅) (hn : s.numbers = ∅) : Represents s [] where
  chained := .nil
  blocks h st := by
    rw [hb]
    refine ⟨fun h => by simp at h, ?_⟩
    rintro ⟨b, l', hsuf, -, -⟩
    exact nomatch suffix_nil.mp hsuf
  numbers n h := by
    rw [hn]
    refine ⟨fun h => by simp at h, ?_⟩
    rintro ⟨b, hb, -⟩
    nomatch hb

theorem Represents.congr {s s' : InMemoryState T} (h : Represents s l) (hb : s'.blocks = s.blocks)
    (hn : s'.numbers = s.numbers) :
    Represents s' l where
  chained := h.chained
  blocks := by rw [hb]; exact h.blocks
  numbers := by rw [hn]; exact h.numbers

section

variable (h : Represents s l)

include h

theorem Represents.get_of_mem (hb : b ∈ l) :
    ∃ l', (b :: l') <:+ l ∧ s.blocks[b.hash]? = some ⟨b, stack l'⟩ := by
  obtain ⟨l1, l2, rfl⟩ := append_of_mem hb
  exact ⟨l2, ⟨l1, rfl⟩, (h.blocks _ _).mpr ⟨b, l2, ⟨l1, rfl⟩, rfl, rfl⟩⟩

theorem Represents.mem_stored_iff :
    st ∈ s.stored ↔ ∃ b l', (b :: l') <:+ l ∧ st = ⟨b, stack l'⟩ := by
  rw [mem_stored]
  constructor
  · rintro ⟨hash, hst⟩
    obtain ⟨b, l', hsuf, -, rfl⟩ := (h.blocks _ _).mp hst
    exact ⟨b, l', hsuf, rfl⟩
  · rintro ⟨b, l', hsuf, rfl⟩
    exact ⟨b.hash, (h.blocks _ _).mpr ⟨b, l', hsuf, rfl, rfl⟩⟩

theorem Represents.exists_stored (hb : b ∈ l) : ∃ st ∈ s.stored, st.block = b := by
  obtain ⟨l', hsuf, hget⟩ := h.get_of_mem hb
  exact ⟨_, mem_stored.mpr ⟨_, hget⟩, rfl⟩

theorem Represents.block_mem (hst : st ∈ s.stored) : st.block ∈ l := by
  obtain ⟨b, l', hsuf, rfl⟩ := h.mem_stored_iff.mp hst
  exact hsuf.subset (mem_cons_self ..)

/-- Hashes identify the blocks of the chain, because they are keys. -/
theorem Represents.eq_of_hash (hb : b ∈ l) (hc : c ∈ l) (heq : b.hash = c.hash) : b = c := by
  obtain ⟨l1, -, hb⟩ := h.get_of_mem hb
  obtain ⟨l2, -, hc⟩ := h.get_of_mem hc
  rw [heq, hc] at hb
  exact (congrArg BlockState.block (some.inj hb)).symm

/-! ## Appending blocks -/

/-- The parent lookup finds the stack of the whole chain. -/
theorem Represents.parent (hb : Chained (b :: l)) : s.blocks[b.parentHash]? = stack l := by
  cases l with
  | nil =>
    cases hget : s.blocks[b.parentHash]? with
    | none => rfl
    | some st =>
      obtain ⟨c, l', hsuf, -, -⟩ := (h.blocks _ _).mp hget
      exact nomatch suffix_nil.mp hsuf
  | cons p l =>
    rw [show b.parentHash = p.hash from (isChain_cons_cons.mp hb).1.1]
    exact (h.blocks _ _).mpr ⟨p, l, suffix_refl _, rfl, rfl⟩

theorem Represents.appendBlock (hb : Chained (b :: l)) (hnew : ∀ c ∈ l, b.hash ≠ c.hash) :
    Represents (s.appendBlock b) (b :: l) where
  chained := hb
  blocks hash st := by
    show (s.blocks.insert b.hash ⟨b, s.blocks[b.parentHash]?⟩)[hash]? = some st ↔ _
    rw [h.parent hb, get_insert]
    by_cases heq : b.hash = hash
    · rw [if_pos heq]
      constructor
      · intro hst
        exact ⟨b, l, suffix_refl _, heq, (some.inj hst).symm⟩
      · rintro ⟨c, l', hsuf, hc, rfl⟩
        rcases suffix_cons_iff.mp hsuf with hl | hsuf
        · cases hl
          rfl
        · exact absurd (heq.trans hc.symm) (hnew c (hsuf.subset (mem_cons_self ..)))
    · rw [if_neg heq, h.blocks]
      constructor
      · rintro ⟨c, l', hsuf, hc, hst⟩
        exact ⟨c, l', hsuf.trans (suffix_cons _ _), hc, hst⟩
      · rintro ⟨c, l', hsuf, hc, hst⟩
        rcases suffix_cons_iff.mp hsuf with hl | hsuf
        · cases hl
          exact absurd hc heq
        · exact ⟨c, l', hsuf, hc, hst⟩
  numbers n hash := by
    show (s.numbers.insert b.number b.hash)[n]? = some hash ↔ _
    have hlt := (pairwise_cons.mp hb.descending).1
    rw [get_insert]
    by_cases heq : b.number = n
    · rw [if_pos heq]
      constructor
      · intro hh
        exact ⟨b, mem_cons_self .., heq, some.inj hh⟩
      · rintro ⟨c, hc, hn, rfl⟩
        rcases mem_cons.mp hc with rfl | hc
        · rfl
        · exact absurd (hn.trans heq.symm) (hlt c hc).ne
    · rw [if_neg heq, h.numbers]
      constructor
      · rintro ⟨c, hc, hh⟩
        exact ⟨c, mem_cons_of_mem _ hc, hh⟩
      · rintro ⟨c, hc, hn, hh⟩
        rcases mem_cons.mp hc with rfl | hc
        · exact absurd hn heq
        · exact ⟨c, hc, hn, hh⟩

end

theorem Represents.appendBlocks (new : List (ExecutedBlockWithTrieUpdates T))
    (h : Represents s l) (hchain : Chained (new.reverse ++ l))
    (hnew : (new.reverse ++ l).Pairwise (·.hash ≠ ·.hash)) :
    Represents (new.foldl InMemoryState.appendBlock s) (new.reverse ++ l) := by
  induction new generalizing s l with
  | nil => exact h
  | cons b new ih =>
    rw [reverse_cons, append_assoc] at hchain hnew ⊢
    have hsuf : (b :: l) <:+ new.reverse ++ ([b] ++ l) := suffix_append _ _
    have hb := (pairwise_cons.mp (hnew.sublist hsuf.sublist)).1
    exact ih (h.appendBlock (hchain.suffix hsuf) hb) hchain hnew

/-! ## Taking the tip off -/

variable (reorged : List RecoveredBlock)

theorem get_removeReorged (s : InMemoryState T) (hash : BlockHash) (st : BlockState T) :
    (reorged.foldl removeReorged s).blocks[hash]? = some st ↔ (∀ b ∈ reorged, b.hash ≠ hash) ∧
      s.blocks[hash]? = some st := by
  induction reorged generalizing s hash st with
  | nil => simp
  | cons b reorged ih =>
    rw [foldl_cons, ih, removeReorged, get_erase, forall_mem_cons]
    by_cases heq : b.hash = hash
    · simp [heq]
    · simp [heq]

theorem number_removeReorged (s : InMemoryState T) (n : BlockNumber) (hash : BlockHash) :
    (reorged.foldl removeReorged s).numbers[n]? = some hash ↔ (∀ b ∈ reorged, b.number ≠ n) ∧
      s.numbers[n]? = some hash := by
  induction reorged generalizing s n hash with
  | nil => simp
  | cons b reorged ih =>
    rw [foldl_cons, ih, removeReorged, get_erase, forall_mem_cons]
    by_cases heq : b.number = n
    · simp [heq]
    · simp [heq]

/-- A suffix of two chains put together ends in the second, or starts in the first. -/
theorem suffix_append_cases (h : (b :: l') <:+ old ++ keep) :
    b ∈ old ∨ (b :: l') <:+ keep := by
  obtain ⟨l1, heq⟩ := h
  rcases append_eq_append_iff.mp heq with ⟨m, rfl, hm⟩ | ⟨m, rfl, hm⟩
  · cases m with
    | nil => exact .inr ⟨[], hm⟩
    | cons c m =>
      cases hm
      exact .inl (by simp)
  · exact .inr ⟨m, hm.symm⟩

theorem Represents.removeReorged {old keep : List (ExecutedBlockWithTrieUpdates T)}
    (h : Represents s (old ++ keep)) {reorged : List RecoveredBlock}
    (hold : reorged = (recovered old).reverse) :
    Represents (reorged.foldl InMemoryState.removeReorged s) keep := by
  have hmem : ∀ b, b ∈ reorged ↔ ∃ e ∈ old, e.recoveredBlock = b := by
    intro b
    rw [hold, List.mem_reverse, recovered, List.mem_map]
  have hlt := (pairwise_append.mp h.chained.descending).2.2
  refine ⟨h.chained.suffix (suffix_append _ _), ?_, ?_⟩
  · intro hash st
    rw [get_removeReorged, h.blocks]
    constructor
    · rintro ⟨hne, b, l', hsuf, hb, rfl⟩
      rcases suffix_append_cases hsuf with hbo | hsuf
      · exact absurd hb (hne _ ((hmem _).mpr ⟨b, hbo, rfl⟩))
      · exact ⟨b, l', hsuf, hb, rfl⟩
    · rintro ⟨b, l', hsuf, rfl, rfl⟩
      refine ⟨?_, b, l', hsuf.trans (suffix_append _ _), rfl, rfl⟩
      rintro r hr heq
      obtain ⟨e, he, rfl⟩ := (hmem r).mp hr
      have hbk : b ∈ keep := hsuf.subset (mem_cons_self ..)
      have hbe := h.eq_of_hash (mem_append_left _ he) (mem_append_right _ hbk) heq
      exact absurd (hlt e he b hbk) (by rw [hbe]; exact lt_irrefl _)
  · intro n hash
    rw [number_removeReorged, h.numbers]
    constructor
    · rintro ⟨hne, b, hb, rfl, rfl⟩
      rcases mem_append.mp hb with hbo | hbk
      · exact absurd rfl (hne _ ((hmem _).mpr ⟨b, hbo, rfl⟩))
      · exact ⟨b, hbk, rfl, rfl⟩
    · rintro ⟨b, hb, rfl, rfl⟩
      refine ⟨?_, b, mem_append_right _ hb, rfl, rfl⟩
      rintro r hr heq
      obtain ⟨e, he, rfl⟩ := (hmem r).mp hr
      exact absurd heq (hlt e he b hb).ne'

/-- Old blocks at the tip are the newest blocks of the chain. -/
theorem Chained.tip (newest : List RecoveredBlock) (hl : Chained l)
    (hnewest : newest.IsChain Follows) (hmem : ∀ b ∈ newest, ∃ e ∈ l, e.recoveredBlock = b)
    (htop : ∀ b ∈ newest.head?, ∀ e ∈ l, e.number ≤ b.number) :
    ∃ old keep, l = old ++ keep ∧ recovered old = newest := by
  induction newest generalizing l with
  | nil => exact ⟨[], l, rfl, rfl⟩
  | cons b newest ih =>
    obtain ⟨e, he, rfl⟩ := hmem b (mem_cons_self ..)
    cases l with
    | nil => nomatch he
    | cons c l =>
      -- the highest number is at the head of the chain
      have hlt := (pairwise_cons.mp hl.descending).1
      have hce : c = e := by
        rcases mem_cons.mp he with rfl | he
        · rfl
        · have hle : c.number ≤ e.number := htop _ rfl c (mem_cons_self ..)
          exact absurd (hlt e he) (not_lt.mpr hle)
      subst hce
      have hbelow : ∀ b ∈ newest, b.number < c.number :=
        (pairwise_cons.mp (descending_of_follows hnewest)).1
      obtain ⟨old, keep, rfl, hold⟩ := ih hl.tail hnewest.tail
        (by
          intro b hb
          obtain ⟨e, he, rfl⟩ := hmem b (mem_cons_of_mem _ hb)
          rcases mem_cons.mp he with rfl | he
          · exact absurd (hbelow _ hb) (lt_irrefl _)
          · exact ⟨e, he, rfl⟩)
        (by
          intro b hb e he
          cases newest with
          | nil => nomatch hb
          | cons b' newest =>
            obtain rfl : b' = b := some.inj hb
            have hnum : c.number = b'.number + 1 := (isChain_cons_cons.mp hnewest).1.2
            have hle := hlt e he
            rw [hnum] at hle
            exact Nat.le_of_lt_succ hle)
      exact ⟨c :: old, keep, rfl, by rw [← hold]; rfl⟩

/-! ## Rebuilding what is not persisted -/

/-- The numbers above a height are at the front of a descending list. -/
theorem filter_above (height : BlockNumber) (h : l.Pairwise fun b p => p.number < b.number) :
    l.filter (fun b => decide (height < b.number)) <+: l := by
  induction l with
  | nil => exact prefix_rfl
  | cons b l ih =>
    obtain ⟨hb, hl⟩ := pairwise_cons.mp h
    by_cases hlt : height < b.number
    · rw [filter_cons_of_pos (by simpa using hlt)]
      exact (prefix_cons_inj b).mpr (ih hl)
    have hnone : (b :: l).filter (fun b => decide (height < b.number)) = [] := by
      rw [filter_eq_nil_iff]
      intro c hc hlt'
      have hlt' : height < c.number := by simpa using hlt'
      rcases mem_cons.mp hc with rfl | hc
      · exact hlt hlt'
      · exact hlt (hlt'.trans (hb c hc))
    rw [hnone]
    exact nil_prefix

theorem Represents.stored_perm (h : Represents s l) : (s.stored.map BlockState.block).Perm l := by
  have hkey : ∀ e ∈ s.blocks.toList, e.2.block.hash = e.1 := by
    intro e he
    obtain ⟨b, l', -, hb, hst⟩ := (h.blocks e.1 e.2).mp (mem_toList.mp he)
    rw [hst]
    exact hb
  rw [perm_ext_iff_of_nodup ?_ (h.chained.descending.imp ?_)]
  · intro b
    rw [List.mem_map]
    constructor
    · rintro ⟨st, hst, rfl⟩
      exact h.block_mem hst
    · intro hb
      obtain ⟨st, hst, rfl⟩ := h.exists_stored hb
      exact ⟨st, hst, rfl⟩
  · refine Nodup.of_map (·.hash) ?_
    have hkeys : (s.stored.map BlockState.block).map (·.hash)
        = s.blocks.toList.map Prod.fst := by
      rw [stored, List.map_map, List.map_map]
      exact map_congr_left hkey
    rw [hkeys]
    exact nodup_keys s.blocks
  · rintro b _ hlt rfl
    exact lt_irrefl _ hlt

/-- The sorted blocks that are not persisted are the front of the chain. -/
theorem Represents.notPersisted_eq (h : Represents s l) (height : BlockNumber) :
    s.notPersisted height = (l.filter fun b => decide (height < b.number)).reverse := by
  have hdesc := h.chained.descending.sublist (filter_sublist
    (p := fun b : ExecutedBlockWithTrieUpdates T => decide (height < b.number)))
  have hperm : (s.notPersisted height).Perm
      (l.filter fun b => decide (height < b.number)).reverse :=
    (perm_insertionSort _ _).trans ((h.stored_perm.filter _).trans (reverse_perm _).symm)
  have : Std.Total (fun a b : ExecutedBlockWithTrieUpdates T => a.number ≤ b.number) :=
    ⟨fun a b => le_total _ _⟩
  have : IsTrans (ExecutedBlockWithTrieUpdates T) (·.number ≤ ·.number) :=
    ⟨fun _ _ _ => le_trans⟩
  refine hperm.eq_of_pairwise ?_ (pairwise_insertionSort _ _)
    (pairwise_reverse.mpr (hdesc.imp le_of_lt))
  intro a b ha hb hab hba
  have hmem : ∀ c ∈ (l.filter fun b => decide (height < b.number)).reverse, c ∈ l :=
    fun c hc => (mem_filter.mp (mem_reverse.mp hc)).1
  exact h.chained.eq_of_number (hmem a (hperm.mem_iff.mp ha)) (hmem b hb) (le_antisymm hab hba)

/-! ## Every operation keeps a chain represented -/

/-- A chain has distinct hashes if its hashes name blocks. -/
theorem Chained.distinct (h : Chained l)
    (hname : ∀ b ∈ l, ∀ c ∈ l, b.hash = c.hash → b.number = c.number) :
    l.Pairwise (·.hash ≠ ·.hash) := by
  refine h.descending.imp_of_mem ?_
  intro b c hb hc hlt heq
  exact absurd (hname b hb c hc heq) hlt.ne'

/-- New blocks on top of what remains of the chain. -/
theorem Represents.extend {s0 s : InMemoryState T} (h0 : Represents s0 l)
    (hname : HashesNameBlocks s0 new) (hsub : ∀ b ∈ keep, b ∈ l) (h : Represents s keep)
    (hnew : Linked (recovered new))
    (hfirst : ∀ first ∈ (recovered new).head?, ∀ b ∈ keep.head?, Follows first b.recoveredBlock) :
    Represents (new.foldl InMemoryState.appendBlock s) (new.reverse ++ keep) := by
  have hchain : Chained (new.reverse ++ keep) := by
    refine isChain_append.mpr ⟨?_, h.chained, ?_⟩
    · exact isChain_reverse.mpr ((isChain_map _).mp hnew)
    · intro b hb p hp
      rw [getLast?_reverse] at hb
      refine hfirst _ ?_ p hp
      rw [recovered, head?_map]
      exact mem_map_of_mem _ hb
  have hnamed : ∀ b ∈ new, ∀ c ∈ keep, b.hash = c.hash → b.number = c.number := by
    intro b hb c hc heq
    obtain ⟨st, hst, rfl⟩ := h0.exists_stored (hsub c hc)
    exact congrArg RecoveredBlock.number ((hname _ (mem_map_of_mem hb)).2 st hst heq)
  refine h.appendBlocks new hchain (hchain.distinct ?_)
  intro b hb c hc heq
  rcases mem_append.mp hb with hb | hb <;> rcases mem_append.mp hc with hc | hc
  · have hb := mem_map_of_mem (f := ExecutedBlockWithTrieUpdates.recoveredBlock) (mem_reverse.mp hb)
    have hc := mem_map_of_mem (f := ExecutedBlockWithTrieUpdates.recoveredBlock) (mem_reverse.mp hc)
    exact congrArg RecoveredBlock.number ((hname _ hb).1 _ hc heq)
  · exact hnamed b (mem_reverse.mp hb) c hc heq
  · exact (hnamed c (mem_reverse.mp hc) b hb heq.symm).symm
  · rw [h.eq_of_hash hb hc heq]

theorem Represents.commit (h : Represents s l) (hname : HashesNameBlocks s new)
    (hnew : Linked (recovered new)) (hext : ExtendsHead s new) :
    Represents (s.updateBlocks new []) (new.reverse ++ l) := by
  refine (h.extend hname (fun _ hb => hb) h hnew ?_).congr rfl rfl
  intro first hfirst b hb
  cases l with
  | nil => nomatch hb
  | cons c l =>
    obtain rfl : c = b := some.inj hb
    obtain ⟨st, hst, rfl⟩ := h.exists_stored (mem_cons_self ..)
    refine hext first hfirst st hst ?_
    intro st' hst'
    rcases mem_cons.mp (h.block_mem hst') with heq | hmem
    · exact le_of_eq (congrArg ExecutedBlockWithTrieUpdates.number heq)
    · exact le_of_lt ((pairwise_cons.mp h.chained.descending).1 _ hmem)

theorem Represents.reorg {old : List RecoveredBlock} (h : Represents s l)
    (hname : HashesNameBlocks s new) (hnew : Linked (recovered new)) (htip : IsTip s old)
    (hsame : SameParent (recovered new) old) :
    ∃ l', Represents (s.updateBlocks new old) l' := by
  obtain ⟨holdChain, hstored, htop⟩ := htip
  obtain ⟨tip, keep, rfl, htip⟩ := h.chained.tip old.reverse (isChain_reverse.mpr holdChain)
    (by
      intro b hb
      obtain ⟨st, hst, rfl⟩ := hstored b (mem_reverse.mp hb)
      exact ⟨st.block, h.block_mem hst, rfl⟩)
    (by
      intro b hb e he
      rw [head?_reverse] at hb
      obtain ⟨st, hst, rfl⟩ := h.exists_stored he
      exact htop b hb st hst)
  have hold : old = (recovered tip).reverse := by rw [htip, reverse_reverse]
  obtain ⟨first, hfirst, hsame⟩ := hsame
  refine ⟨_, (h.extend hname (fun _ => mem_append_right _) (h.removeReorged hold) hnew
    ?_).congr rfl rfl⟩
  -- the first old block is on what remains, and so is the first new one
  intro b hb p hp
  rw [hold, head?_reverse, recovered, getLast?_map] at hfirst
  obtain ⟨e, he, rfl⟩ := mem_map.mp hfirst
  have hf := (isChain_append.mp h.chained).2.2 e he p hp
  obtain ⟨hparent, hnumber⟩ := hsame b hb
  exact ⟨hparent.trans hf.1, hnumber.trans hf.2⟩

theorem Represents.removePersistedBlocks (h : Represents s l) (persisted : BlockNumHash) :
    ∃ l', Represents (s.removePersistedBlocks persisted) l' := by
  rw [InMemoryState.removePersistedBlocks]
  cases s.blocks[persisted.hash]? with
  | none => exact ⟨l, h⟩
  | some st =>
    have hpre := filter_above persisted.number h.chained.descending
    have hrep : Represents ((s.notPersisted persisted.number).foldl InMemoryState.appendBlock
        { s with blocks := ∅, numbers := ∅ })
        ((s.notPersisted persisted.number).reverse ++ []) := by
      have hrev := congrArg reverse (h.notPersisted_eq persisted.number)
      rw [reverse_reverse] at hrev
      have hchain : Chained (l.filter fun b => decide (persisted.number < b.number)) :=
        IsChain.prefix h.chained hpre
      refine (represents_empty rfl rfl).appendBlocks _ ?_ ?_
      · rw [append_nil, hrev]
        exact hchain
      · rw [append_nil, hrev]
        refine hchain.distinct ?_
        intro b hb c hc heq
        rw [h.eq_of_hash (hpre.subset hb) (hpre.subset hc) heq]
    exact ⟨_, hrep.congr rfl rfl⟩

/-- **STEP**: an admissible operation keeps a chain represented. -/
theorem Represents.step (h : Represents s l) (hop : op.Admissible s) (hstep : Step s op s') :
    ∃ l', Represents s' l' := by
  subst hstep
  match op, hop with
  | .updateChain (.commit new), ⟨hname, hnew, hext⟩ => exact ⟨_, h.commit hname hnew hext⟩
  | .updateChain (.reorg new old), ⟨hname, hnew, htip, hsame⟩ =>
    exact h.reorg hname hnew htip hsame
  | .setPendingBlock pending, _ => exact ⟨l, h.congr rfl rfl⟩
  | .removePersistedBlocks persisted, _ => exact h.removePersistedBlocks persisted
  | .clearState, _ => exact ⟨[], represents_empty rfl rfl⟩

/-! ## What readers see -/

/-- **ONE CHAIN IN MEMORY**: the maps are inverse on consecutive numbers; from every state the walk
    down visits exactly the stored states not above it, and ends on the parent of the lowest block.
    -/
structure OneChain (s : InMemoryState T) : Prop where
  inverse : ∀ n h, s.numbers[n]? = some h ↔
    ∃ st : BlockState T, s.blocks[h]? = some st ∧ st.number = n
  keyed : ∀ (h : BlockHash) (st : BlockState T), s.blocks[h]? = some st → st.hash = h
  consecutive : ∃ lo len : Nat, ∀ n : BlockNumber,
    (∃ h, s.numbers[n]? = some h) ↔ lo ≤ n ∧ n < lo + len
  chain_head : ∀ st ∈ s.stored, st.chain.head? = some st
  mem_chain : ∀ st ∈ s.stored, ∀ st', st' ∈ st.chain ↔ st' ∈ s.stored ∧ st'.number ≤ st.number
  chain_linked : ∀ st ∈ s.stored,
    st.chain.IsChain (fun st parent => Follows st.block.recoveredBlock parent.block.recoveredBlock)
  anchor : ∀ st ∈ s.stored, ∀ lowest ∈ s.stored, (∀ st' ∈ s.stored, lowest.number ≤ st'.number) →
    st.anchor = BlockState.parentNumHash lowest.block.recoveredBlock

theorem chain_head? (st : BlockState T) : st.chain.head? = some st := by
  obtain ⟨b, parent⟩ := st
  cases parent with
  | none | some p => rfl

theorem mem_chain_stack (l : List (ExecutedBlockWithTrieUpdates T))
    (b : ExecutedBlockWithTrieUpdates T) (st : BlockState T) :
    st ∈ BlockState.chain ⟨b, stack l⟩ ↔ ∃ c l', (c :: l') <:+ (b :: l) ∧ st = ⟨c, stack l'⟩ := by
  induction l generalizing b st with
  | nil =>
    rw [stack, BlockState.chain, mem_singleton]
    constructor
    · rintro rfl
      exact ⟨b, [], suffix_refl _, rfl⟩
    · rintro ⟨c, l', hsuf, rfl⟩
      rcases suffix_cons_iff.mp hsuf with heq | hsuf
      · cases heq
        rfl
      · exact nomatch suffix_nil.mp hsuf
  | cons p l ih =>
    rw [stack, BlockState.chain, mem_cons, ih]
    constructor
    · rintro (rfl | ⟨c, l', hsuf, rfl⟩)
      · exact ⟨b, p :: l, suffix_refl _, rfl⟩
      · exact ⟨c, l', hsuf.trans (suffix_cons _ _), rfl⟩
    · rintro ⟨c, l', hsuf, rfl⟩
      rcases suffix_cons_iff.mp hsuf with heq | hsuf
      · cases heq
        exact .inl rfl
      · exact .inr ⟨c, l', hsuf, rfl⟩

theorem isChain_stack : ∀ (l : List (ExecutedBlockWithTrieUpdates T))
    (b : ExecutedBlockWithTrieUpdates T), Chained (b :: l) →
    (BlockState.chain ⟨b, stack l⟩).IsChain
      (Follows ·.block.recoveredBlock ·.block.recoveredBlock) := by
  intro l
  induction l with
  | nil => intro b _; exact .singleton _
  | cons p l ih =>
    intro b hb
    obtain ⟨hf, hp⟩ := isChain_cons_cons.mp hb
    rw [stack, BlockState.chain]
    refine isChain_cons.mpr ⟨?_, ih p hp⟩
    intro st hst
    rw [chain_head?] at hst
    cases hst
    exact hf

theorem anchor_stack (hl : Chained l) (hmem : lowest ∈ l)
    (hlow : ∀ b ∈ l, lowest.number ≤ b.number) (l' : List (ExecutedBlockWithTrieUpdates T))
    (b : ExecutedBlockWithTrieUpdates T) (hsuf : (b :: l') <:+ l) :
    BlockState.anchor ⟨b, stack l'⟩ = BlockState.parentNumHash lowest.recoveredBlock := by
  induction l' generalizing b with
  | nil =>
    obtain ⟨above, rfl⟩ := hsuf
    have hlt := (pairwise_append.mp hl.descending).2.2
    rcases mem_append.mp hmem with habove | hb
    · have hle := hlow b (mem_append_right _ (mem_cons_self ..))
      exact absurd (hlt _ habove b (mem_cons_self ..)) (not_lt.mpr hle)
    · rw [mem_singleton.mp hb]
      rfl
  | cons p l' ih => exact ih p ((suffix_cons _ _).trans hsuf)

theorem add_to_run (lo len n : Nat) :
    (lo + len = n ∨ (lo ≤ n ∧ n < lo + len)) ↔ lo ≤ n ∧ n < lo + (len + 1) := by
  omega

theorem Chained.consecutive (l : List (ExecutedBlockWithTrieUpdates T))
    (b : ExecutedBlockWithTrieUpdates T) (hb : Chained (b :: l)) :
    ∃ lo, b.number = lo + l.length ∧ ∀ n, (∃ c ∈ b :: l, c.number = n) ↔ lo ≤ n ∧
      n < lo + (l.length + 1) := by
  induction l generalizing b with
  | nil =>
    refine ⟨b.number, rfl, ?_⟩
    intro n
    rw [length_nil, zero_add, Nat.lt_succ_iff]
    simp only [mem_singleton, exists_eq_left]
    exact ⟨fun h => ⟨h.le, h.ge⟩, fun h => le_antisymm h.1 h.2⟩
  | cons p l ih =>
    obtain ⟨hf, hp⟩ := isChain_cons_cons.mp hb
    obtain ⟨lo, hnum, hiff⟩ := ih p hp
    have hb : b.number = lo + (l.length + 1) := by rw [← add_assoc, ← hnum]; exact hf.2
    refine ⟨lo, hb, ?_⟩
    intro n
    rw [length_cons, ← add_to_run, ← hiff, ← hb]
    simp only [mem_cons, or_and_right, exists_or, exists_eq_left]

/-- Of two stacks the one with the lower number is part of the other. -/
theorem Chained.suffix_of_le (hl : Chained l) (hb : (b :: l1) <:+ l) (hc : (c :: l2) <:+ l)
    (hle : c.number ≤ b.number) : (c :: l2) <:+ (b :: l1) := by
  rcases suffix_or_suffix_of_suffix hc hb with h | h
  · exact h
  · rcases suffix_cons_iff.mp h with heq | h
    · rw [heq]
    · have hlt := (pairwise_cons.mp (Chained.descending (hl.suffix hc))).1 b
        (h.subset (mem_cons_self ..))
      exact absurd hlt (not_lt.mpr hle)

theorem Represents.oneChain (h : Represents s l) : OneChain s where
  inverse n hash := by
    rw [h.numbers]
    constructor
    · rintro ⟨b, hb, rfl, rfl⟩
      obtain ⟨l', -, hget⟩ := h.get_of_mem hb
      exact ⟨_, hget, rfl⟩
    · rintro ⟨st, hst, rfl⟩
      obtain ⟨b, l', hsuf, rfl, rfl⟩ := (h.blocks _ _).mp hst
      exact ⟨b, hsuf.subset (mem_cons_self ..), rfl, rfl⟩
  keyed hash st hst := by
    obtain ⟨b, l', hsuf, rfl, rfl⟩ := (h.blocks _ _).mp hst
    rfl
  consecutive := by
    have hnum : ∀ n, (∃ hash, s.numbers[n]? = some hash) ↔ ∃ c ∈ l, c.number = n := by
      intro n
      constructor
      · rintro ⟨hash, hn⟩
        obtain ⟨b, hb, hbn, -⟩ := (h.numbers n hash).mp hn
        exact ⟨b, hb, hbn⟩
      · rintro ⟨b, hb, hbn⟩
        exact ⟨b.hash, (h.numbers _ _).mpr ⟨b, hb, hbn, rfl⟩⟩
    cases l with
    | nil => exact ⟨0, 0, fun n => (hnum n).trans (by simp)⟩
    | cons b l =>
      obtain ⟨lo, -, hiff⟩ := Chained.consecutive l b h.chained
      exact ⟨lo, l.length + 1, fun n => (hnum n).trans (hiff n)⟩
  chain_head st _ := chain_head? st
  mem_chain st hst st' := by
    obtain ⟨b, l1, hb, rfl⟩ := h.mem_stored_iff.mp hst
    rw [mem_chain_stack, h.mem_stored_iff]
    constructor
    · rintro ⟨c, l2, hc, rfl⟩
      refine ⟨⟨c, l2, hc.trans hb, rfl⟩, ?_⟩
      rcases suffix_cons_iff.mp hc with heq | hc
      · cases heq
        exact le_rfl
      · exact le_of_lt ((pairwise_cons.mp (Chained.descending (h.chained.suffix hb))).1 c
          (hc.subset (mem_cons_self ..)))
    · rintro ⟨⟨c, l2, hc, rfl⟩, hle⟩
      exact ⟨c, l2, h.chained.suffix_of_le hb hc hle, rfl⟩
  chain_linked st hst := by
    obtain ⟨b, l', hsuf, rfl⟩ := h.mem_stored_iff.mp hst
    exact isChain_stack l' b (h.chained.suffix hsuf)
  anchor st hst lowest hlowest hlow := by
    obtain ⟨b, l', hsuf, rfl⟩ := h.mem_stored_iff.mp hst
    refine anchor_stack h.chained (h.block_mem hlowest) ?_ l' b hsuf
    intro c hc
    obtain ⟨st', hst', rfl⟩ := h.exists_stored hc
    exact hlow st' hst'

/-- **RUNS**: after any sequence of updates the memory holds one chain. -/
theorem oneChain_of_run {s : InMemoryState T}
    (h : Runs.ReachedBy Step (fun s op => op.Admissible s) empty s) : OneChain s := by
  obtain ⟨l, hl⟩ : ∃ l, Represents s l := by
    refine h.invariant (I := fun s => ∃ l, Represents s l) ⟨[], represents_empty rfl rfl⟩ ?_
    rintro s op s' - ⟨l, hl⟩ hop hstep
    exact hl.step hop hstep
  exact hl.oneChain

/-- Three blocks, a reorg of the last two, and the first one persisted. -/
theorem oneChain_of_run_sample :
    ∃ s : InMemoryState Unit, Runs.ReachedBy Step (fun s op => op.Admissible s) empty s ∧
      s.numbers.toList = [(6, 26), (7, 27)] ∧ OneChain s := by
  let block (hash parent number : Nat) : ExecutedBlockWithTrieUpdates Unit :=
    ⟨⟨hash, parent, number⟩, none⟩
  obtain ⟨s, hs, hcheck⟩ := Runs.exists_of_next (fun (s : InMemoryState Unit) op => some (s.apply op))
    (fun s op => decide (op.Admissible s))
    [.updateChain (.commit [block 15 14 5, block 16 15 6]), .setPendingBlock (block 17 16 7),
      .updateChain (.commit [block 17 16 7]),
      .updateChain (.reorg [block 26 15 6, block 27 26 7] [⟨16, 15, 6⟩, ⟨17, 16, 7⟩]),
      .removePersistedBlocks ⟨5, 15⟩]
    empty (fun s => s.numbers.toList == [(6, 26), (7, 27)]) (by decide +kernel)
  simp only [decide_eq_true_eq, some.injEq] at hs
  exact ⟨s, hs, beq_iff_eq.mp hcheck, oneChain_of_run hs⟩

end InMemoryState

end ChainState

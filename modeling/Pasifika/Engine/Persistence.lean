import Pasifika.Engine.Pruning
import Pasifika.Engine.TreeHandler
import Pasifika.OrderedMap.First

/-! # The persisted chain

Batches for the persistence service are found by walking back from the canonical
head through the tree. The walk comes down to the last persisted block because the
head is always CONNECTED: a path through the tree leads from it to a block on disk,
and to one that no removal in progress is about to take away.

* A new head is connected through the block where its chain leaves the old one.
* `find_disk_reorg` finds the number above which disk and canonical chain have no
  block in common, so that a removal leaves the block the path ends at.
* Pruning keeps the tower of blocks above the last persisted one.

Only a forkchoice update that moves the head back to a block it finds on disk can
choose a head that is not connected. -/

namespace Engine

open OrderedMap ChainState List Option Nat
open ChainState.InMemoryState (Follows Linked recovered descending_of_follows)

variable {T : Type}

/-! ## Blocks on disk -/

/-- **THE PERSISTED CHAIN**, newest first and down to the block 0. -/
structure OnDisk (B : HashedBlocks) (disk : List RecoveredBlock) : Prop where
  has : ∀ b ∈ disk, B.Has b
  chain : disk.IsChain Follows
  genesis : ∃ b ∈ disk.getLast?, b.number = 0

namespace OnDisk

variable {B : HashedBlocks} {disk : List RecoveredBlock}

theorem descending (h : OnDisk B disk) : disk.Pairwise (fun b p => p.number < b.number) :=
  descending_of_follows h.chain

/-- Numbers identify the blocks on disk. -/
theorem eq_of_number (h : OnDisk B disk) (hb : b ∈ disk) (hc : c ∈ disk)
    (heq : b.number = c.number) : b = c := by
  by_contra hne
  have hp : disk.Pairwise (·.number ≠ ·.number) := h.descending.imp (·.ne')
  have : Std.Symm (fun b c : RecoveredBlock => b.number ≠ c.number) := ⟨fun _ _ h => h.symm⟩
  exact hp.forall hb hc hne heq

variable {tip b : RecoveredBlock}

theorem number_le (h : OnDisk B disk) (htip : disk.head? = some tip) (hb : b ∈ disk) :
    b.number ≤ tip.number := by
  cases disk with
  | nil => nomatch htip
  | cons d disk =>
    cases htip
    rcases mem_cons.mp hb with rfl | hb
    · exact le_rfl
    · exact le_of_lt ((pairwise_cons.mp h.descending).1 b hb)

variable {b : RecoveredBlock}

theorem parent (h : OnDisk B disk) (hb : b ∈ disk) (hpos : 0 < b.number) :
    ∃ p ∈ disk, p.hash = b.parentHash := by
  obtain ⟨l1, l2, rfl⟩ := append_of_mem hb
  cases l2 with
  | nil =>
    obtain ⟨g, hg, hzero⟩ := h.genesis
    rw [getLast?_append_of_ne_nil _ (cons_ne_nil _ _)] at hg
    cases hg
    exact absurd hzero hpos.ne'
  | cons p l2 =>
    have hf := isChain_cons_cons.mp (isChain_append.mp h.chain).2.1
    exact ⟨p, mem_append_right _ (mem_cons_of_mem _ (mem_cons_self ..)), hf.1.1.symm⟩

/-- **REMOVING FROM DISK** down to a number leaves the block with that number on top. -/
theorem removeAbove (h : OnDisk B disk) (htip : disk.head? = some tip) :
    n ≤ tip.number → OnDisk B (PersistenceService.removeAbove n disk) ∧ ∃ b,
      (PersistenceService.removeAbove n disk).head? = some b ∧ b.number = n ∧
      disk.find? (·.number == n) = some b := by
  induction disk generalizing tip n with
  | nil => nomatch htip
  | cons b disk ih =>
    intro hn
    cases htip
    rcases lt_or_eq_of_le hn with hlt | rfl
    · -- the block goes, and there is one below it
      cases disk with
      | nil =>
        obtain ⟨g, hg, hzero⟩ := h.genesis
        cases hg
        exact absurd (lt_of_lt_of_eq hlt hzero) (not_lt_zero n)
      | cons p disk =>
        have hp : b.number = p.number + 1 := (isChain_cons_cons.mp h.chain).1.2
        have hdrop : PersistenceService.removeAbove n (b :: p :: disk) =
            PersistenceService.removeAbove n (p :: disk) :=
          filter_cons_of_neg (by simpa using hlt)
        rw [hdrop, find?_cons_of_neg (by simpa using hlt.ne')]
        exact ih ⟨fun c hc => h.has c (mem_cons_of_mem _ hc), h.chain.tail,
          by simpa only [getLast?_cons_cons] using h.genesis⟩ rfl
          (le_of_lt_succ (lt_of_lt_of_eq hlt hp))
    · have hall : PersistenceService.removeAbove b.number (b :: disk) = b :: disk :=
        filter_eq_self.mpr fun c hc => decide_eq_true (h.number_le rfl hc)
      rw [hall]
      exact ⟨h, b, rfl, rfl, find?_cons_of_pos (beq_self_eq_true _)⟩

/-- **SAVING A BATCH** that follows the newest block on disk. -/
theorem saveBlocks (h : OnDisk B disk) (htip : disk.head? = some tip)
    (hhas : ∀ b ∈ recovered blocks, B.Has b)
    (hchain : (tip :: recovered blocks).IsChain fun b c => Follows c b)
    (hsave : PersistenceService.saveBlocks blocks disk = some disk') :
    OnDisk B disk' ∧ (∀ b ∈ disk, b ∈ disk') ∧
      disk'.head? = (tip :: recovered blocks).getLast? := by
  induction blocks generalizing disk disk' tip with
  | nil =>
    cases hsave
    exact ⟨h, fun _ hb => hb, htip⟩
  | cons e blocks ih =>
    rw [PersistenceService.saveBlocks] at hsave
    split at hsave
    · obtain ⟨hf, hchain⟩ := isChain_cons_cons.mp hchain
      have hdisk : OnDisk B (e.recoveredBlock :: disk) := by
        refine ⟨?_, ?_, ?_⟩
        · intro b hb
          rcases mem_cons.mp hb with rfl | hb
          · exact hhas _ (mem_cons_self ..)
          · exact h.has b hb
        · cases disk with
          | nil => nomatch htip
          | cons d disk =>
            cases htip
            exact isChain_cons_cons.mpr ⟨hf, h.chain⟩
        · obtain ⟨g, hg, hzero⟩ := h.genesis
          cases disk with
          | nil => nomatch htip
          | cons d disk => exact ⟨g, by simpa only [getLast?_cons_cons] using hg, hzero⟩
      obtain ⟨h', hsub, hhead⟩ := ih hdisk rfl (fun b hb => hhas b (mem_cons_of_mem _ hb))
        hchain hsave
      refine ⟨h', fun b hb => hsub b (mem_cons_of_mem _ hb), ?_⟩
      rw [hhead]
      exact getLast?_cons_cons.symm
    · nomatch hsave

end OnDisk

/-! ## Connected blocks -/

/-- **CONNECTED**: a path through the tree leads to a block on disk. -/
inductive Connected (t : TreeState T) (disk : List RecoveredBlock) : BlockHash → Prop where
  | disk {b : RecoveredBlock} (hb : b ∈ disk) : Connected t disk b.hash
  | tree {i : BlockHash} {e : ExecutedBlockWithTrieUpdates T} (he : t.blocksByHash[i]? = some e)
      (h : Connected t disk e.parentHash) : Connected t disk i

/-- The path, followed for some steps. -/
def connected (t : TreeState T) (disk : List RecoveredBlock) : Nat → BlockHash → Bool
  | 0, _ => false
  | fuel + 1, i =>
    disk.any (fun b => b.hash == i) ||
      match t.blocksByHash[i]? with
      | none => false
      | some e => connected t disk fuel e.parentHash

section

variable {B : HashedBlocks} {t t' : TreeState T} {disk disk' : List RecoveredBlock} {i : BlockHash}

theorem connected_of (h : connected t disk fuel i = true) : Connected t disk i := by
  induction fuel generalizing i with
  | zero => nomatch h
  | succ fuel ih =>
    rcases Bool.or_eq_true_iff.mp h with h | h
    · obtain ⟨b, hb, heq⟩ := any_eq_true.mp h
      exact eq_of_beq heq ▸ .disk hb
    · cases he : t.blocksByHash[i]? with
      | none => rw [he] at h; nomatch h
      | some e => rw [he] at h; exact .tree he (ih h)

/-- More blocks, or the same ones with other trie updates, keep a path. -/
theorem Connected.mono (h : Connected t disk i)
    (htree : ∀ (i : BlockHash) e, t.blocksByHash[i]? = some e →
      ∃ e', t'.blocksByHash[i]? = some e' ∧ e'.parentHash = e.parentHash)
    (hdisk : ∀ b ∈ disk, b ∈ disk') : Connected t' disk' i := by
  induction h with
  | disk hb => exact .disk (hdisk _ hb)
  | tree he _ ih =>
    obtain ⟨e', he', hp⟩ := htree _ _ he
    exact .tree he' (hp ▸ ih)

theorem Connected.parent (h : Connected t disk i) (hknown : t.Known B) (hdisk : OnDisk B disk)
    (hpos : 0 < (B.block i).number) : Connected t disk (B.block i).parentHash := by
  cases h with
  | @disk b hb =>
    have hhas : B.block b.hash = b := hdisk.has b hb
    rw [hhas] at hpos ⊢
    obtain ⟨p, hp, hhash⟩ := hdisk.parent hb hpos
    exact hhash ▸ .disk hp
  | tree he h =>
    rw [← (hknown.block he).1]
    exact h

/-- A connected block that is not on disk is in the tree. -/
theorem Connected.of_not_mem (h : Connected t disk i) (hno : ∀ b ∈ disk, b.hash ≠ i) :
    ∃ e, t.blocksByHash[i]? = some e ∧ Connected t disk e.parentHash := by
  cases h with
  | disk hb => exact absurd rfl (hno _ hb)
  | tree he h => exact ⟨_, he, h⟩

theorem Connected.of_tower (htower : t.Tower base i l) (h : Connected t disk base) :
    Connected t disk i := by
  induction htower with
  | nil => exact h
  | cons he _ ih => exact .tree he ih

end

/-! ## Blocks in memory -/

variable {e : ExecutedBlockWithTrieUpdates T}

theorem mem_chain : st ∈ (⟨e, parent⟩ : BlockState T).chain ↔
      st = ⟨e, parent⟩ ∨ ∃ p ∈ parent, st ∈ p.chain := by
  cases parent with
  | none | some p => simp [BlockState.chain]

/-- The blocks in memory are those that their hashes name. -/
def InMemory (B : HashedBlocks) (m : InMemoryState T) : Prop :=
  ∀ (i : BlockHash) (st : BlockState T), m.blocks[i]? = some st →
    st.hash = i ∧ ∀ st' ∈ st.chain, B.Has st'.block.recoveredBlock

namespace InMemory

variable {B : HashedBlocks} {m : InMemoryState T}

theorem congr (h : InMemory B m) (hm : m'.blocks = m.blocks) :
    InMemory B m' := by
  rw [InMemory, hm]
  exact h

theorem appendBlock (h : InMemory B m)
    (he : B.Has e.recoveredBlock) : InMemory B (m.appendBlock e) := by
  intro i st hst
  replace hst := (get_insert _ _ _ _).symm.trans hst
  split at hst
  · next hi =>
    cases hst
    refine ⟨hi, fun st' hst' => ?_⟩
    rcases mem_chain.mp hst' with rfl | ⟨p, hp, hst'⟩
    · exact he
    · exact (h _ p hp).2 st' hst'
  · exact h i st hst

variable {new : List (ExecutedBlockWithTrieUpdates T)}

theorem appendBlocks (h : InMemory B m) (hnew : ∀ e ∈ new, B.Has e.recoveredBlock) :
    InMemory B (new.foldl InMemoryState.appendBlock m) := by
  induction new generalizing m with
  | nil => exact h
  | cons e new ih =>
    exact ih (h.appendBlock (hnew e (mem_cons_self ..)))
      (fun e' he' => hnew e' (mem_cons_of_mem _ he'))

theorem removeReorged {old : List RecoveredBlock} (h : InMemory B m) :
    InMemory B (old.foldl InMemoryState.removeReorged m) := by
  induction old generalizing m with
  | nil => exact h
  | cons b old ih =>
    refine ih fun i st hst => ?_
    replace hst := (get_erase _ _ _).symm.trans hst
    split at hst
    · nomatch hst
    · exact h i st hst

theorem updateBlocks (h : InMemory B m) (hnew : ∀ e ∈ new, B.Has e.recoveredBlock)
    (old : List RecoveredBlock) :
    InMemory B (m.updateBlocks new old) :=
  (h.removeReorged.appendBlocks hnew).congr rfl

theorem removePersistedBlocks (h : InMemory B m) (persisted : BlockNumHash) :
    InMemory B (m.removePersistedBlocks persisted) := by
  rw [InMemoryState.removePersistedBlocks]
  split
  · exact h
  refine InMemory.congr (InMemory.appendBlocks (fun i st hst => ?_) fun e he => ?_) rfl
  · simp at hst
  · rw [InMemoryState.notPersisted, mem_insertionSort, mem_filter] at he
    obtain ⟨st, hst, rfl⟩ := mem_map.mp he.1
    obtain ⟨i, hi⟩ := InMemoryState.mem_stored.mp hst
    refine (h i st hi).2 st ?_
    obtain ⟨e, parent⟩ := st
    exact mem_chain.mpr (.inl rfl)

end InMemory

/-! ## The invariant -/

namespace EngineApiTreeHandler

variable {B : HashedBlocks} {s s' : EngineApiTreeHandler T}

/-- The blocks on disk that no action in progress removes. -/
def stableDisk (s : EngineApiTreeHandler T) : List RecoveredBlock :=
  s.service.incoming.foldl (fun disk action => match action with
    | .saveBlocks _ => disk
    | .removeBlocksAbove newTipNum => PersistenceService.removeAbove newTipNum disk) s.service.disk

/-- **A BATCH**: a chain of blocks, oldest first, on top of the last persisted block. -/
structure IsBatch (B : HashedBlocks) (lastPersisted : BlockNumHash)
    (blocks : List (ExecutedBlockWithTrieUpdates T)) : Prop where
  has : ∀ b ∈ recovered blocks, B.Has b
  linked : Linked (recovered blocks)
  first : ∃ first ∈ (recovered blocks).head?,
    first.parentHash = lastPersisted.hash ∧ first.number = lastPersisted.number + 1

/-- An action that fits what is persisted. -/
def Fits (B : HashedBlocks) (lastPersisted : BlockNumHash) : PersistenceAction T → Prop
  | .saveBlocks blocks => IsBatch B lastPersisted blocks
  | .removeBlocksAbove newTipNum => newTipNum < lastPersisted.number

/-- The last persisted block is the newest one on disk. -/
def AtTip (s : EngineApiTreeHandler T) : Prop :=
  ∃ tip, s.service.disk.head? = some tip ∧ tip.numHash = s.persistenceState.lastPersistedBlock

/-- **ONE ACTION AT A TIME**: without a receiver the service is idle. With one, the action is the
    only one in the channel, or was answered with the newest block on disk. -/
def Waiting (B : HashedBlocks) (s : EngineApiTreeHandler T) : Prop :=
  match s.persistenceState.rx with
  | none => s.service.incoming = [] ∧ s.AtTip
  | some (index, _) =>
    (∃ action, s.service.incoming = [action] ∧ s.service.replies.length = index ∧ s.AtTip ∧
      Fits B s.persistenceState.lastPersistedBlock action) ∨
    s.service.incoming = [] ∧ s.service.replies.length = index + 1 ∧
      ∃ tip, s.service.disk.head? = some tip ∧ s.service.replies[index]? = some (some tip.numHash)

/-- **THE INVARIANT**: hashes name blocks, the head is connected to what stays on disk, and the
    service works on one action. -/
structure Inv (B : HashedBlocks) (s : EngineApiTreeHandler T) : Prop where
  known : s.treeState.Known B
  memory : InMemory B s.canonicalInMemoryState
  disk : OnDisk B s.service.disk
  head : (B.block s.treeState.currentCanonicalHead.hash).numHash =
    s.treeState.currentCanonicalHead
  connected : Connected s.treeState s.stableDisk s.treeState.currentCanonicalHead.hash
  waiting : Waiting B s

variable {b : RecoveredBlock} {i target : BlockHash} {fuel : Nat}

theorem Inv.providerHeader (h : Inv B s) (hb : s.providerHeader i = some b) : b = B.block i := by
  rw [EngineApiTreeHandler.providerHeader] at hb
  split at hb
  · next st hst =>
    cases hb
    obtain ⟨head, hhead, hfind⟩ := bind_eq_some_iff.mp hst
    obtain ⟨last, -, hget⟩ := bind_eq_some_iff.mp hhead
    have hhas := (h.memory _ head hget).2 st (mem_of_find?_eq_some hfind)
    have hhash : st.hash = i :=
      eq_of_beq (@find?_some (BlockState T) (·.hash == i) _ _ hfind)
    exact hhash ▸ hhas.symm
  · have hhas := h.disk.has b (mem_of_find?_eq_some hb)
    have hhash : b.hash = i := eq_of_beq (@find?_some RecoveredBlock (·.hash == i) _ _ hb)
    exact hhash ▸ hhas.symm

theorem Inv.sealedHeader (h : Inv B s) (hb : s.sealedHeaderByHash i = some b) : b = B.block i := by
  rw [sealedHeaderByHash] at hb
  cases he : s.treeState.blocksByHash[i]? with
  | none => rw [he] at hb; exact h.providerHeader hb
  | some e =>
    rw [he] at hb
    cases hb
    exact (h.known.block he).1

theorem Inv.canonicalHeader (h : Inv B s) (hb : s.findCanonicalHeader i = some b) :
    b = B.block i := by
  rw [findCanonicalHeader] at hb
  split at hb
  · next header hheader =>
    cases hb
    obtain ⟨st, hst, rfl⟩ := map_eq_some_iff.mp hheader
    obtain ⟨hhash, hchain⟩ := h.memory i st hst
    obtain ⟨e, parent⟩ := st
    exact hhash ▸ (hchain _ (mem_chain.mpr (.inl rfl))).symm
  · exact h.providerHeader hb

theorem Inv.stable (h : Inv B s) : OnDisk B s.stableDisk := by
  have hw := h.waiting
  rw [Waiting] at hw
  rw [stableDisk]
  split at hw
  · rw [hw.1]
    exact h.disk
  rcases hw with ⟨action, hin, -, ⟨tip, htip, heq⟩, hfits⟩ | ⟨hin, -⟩
  · rw [hin]
    cases action with
    | saveBlocks blocks => exact h.disk
    | removeBlocksAbove n =>
      rw [← heq] at hfits
      exact (h.disk.removeAbove htip (le_of_lt hfits)).1
  · rw [hin]
    exact h.disk

/-! ## New heads -/

section

variable {disk : List RecoveredBlock}

/-- The new chain above the canonical number comes from the tree. -/
theorem walkNew_spec {t : TreeState T} (hknown : t.Known B) {canonicalNumber : BlockNumber} :
    ∀ {fuel : Nat} {current current' : BlockHash} {n n' : BlockNumber}
      {acc new : List (ExecutedBlockWithTrieUpdates T)},
      walkNew t canonicalNumber fuel current n acc = some (some (new, current', n')) →
      (B.block current).number = n →
      (B.block current').number = n' ∧ n' ≤ canonicalNumber ∧
        (Connected t disk current' → Connected t disk current) ∧
        ∃ pre, new = pre ++ acc ∧ ∀ e ∈ pre, ∃ j : BlockHash, t.blocksByHash[j]? = some e := by
  intro fuel
  induction fuel with
  | zero => intro current current' n n' acc new h; cases h
  | succ fuel ih =>
    intro current current' n n' acc new h hn
    rw [walkNew] at h
    by_cases hlt : canonicalNumber < n
    · rw [if_pos hlt] at h
      cases he : t.blocksByHash[current]? with
      | none => rw [he] at h; cases h
      | some e =>
        rw [he] at h
        have hp : e.number = n := by
          rw [ExecutedBlockWithTrieUpdates.number, (hknown.block he).1, hn]
        have hparent := hknown.number_parent he
        obtain ⟨hnum, hle, hconn, pre, hnew, hpre⟩ := ih h (by rw [← hp, hparent]; rfl)
        refine ⟨hnum, hle, fun hc => .tree he (hconn hc), pre ++ [e], ?_, fun e' he' => ?_⟩
        · rw [hnew, append_assoc]
          rfl
        · rcases mem_append.mp he' with he' | he'
          · exact hpre e' he'
          · exact ⟨current, by rw [he, mem_singleton.mp he']⟩
    · rw [if_neg hlt] at h
      cases h
      exact ⟨hn, Nat.le_of_not_lt hlt, id, [], rfl, by simp⟩

variable (h : Inv B s) (hdisk : OnDisk B disk)

include h hdisk

/-- The old chain comes down to the number of the new one. -/
theorem walkOld_spec {currentNumber : BlockNumber} :
    ∀ {fuel} {old old'} {n} {acc chain},
      s.walkOld currentNumber fuel old n acc = some (some (chain, old')) →
      (B.block old).number = n → currentNumber ≤ n → Connected s.treeState disk old →
      (B.block old').number = currentNumber ∧ Connected s.treeState disk old' ∧
        ∃ pre, chain = pre ++ acc ∧ ∀ b ∈ pre, B.Has b ∧ 0 < b.number := by
  intro fuel
  induction fuel with
  | zero => intro old old' n acc chain hrun; nomatch hrun
  | succ fuel ih =>
    intro old old' n acc chain hrun hn hle hconn
    rw [walkOld] at hrun
    by_cases hlt : currentNumber < n
    · rw [if_pos hlt] at hrun
      have hpos : 0 < (B.block old).number := hn ▸ zero_lt_of_lt hlt
      cases hb : s.canonicalBlockByHash old with
      | none => rw [hb] at hrun; nomatch hrun
      | some b =>
        rw [hb] at hrun
        cases h.sealedHeader hb
        have hparent := B.number_block old hpos
        obtain ⟨hnum, hconn', pre, hchain, hpre⟩ := ih hrun (by rw [← hn, hparent]; rfl)
          (le_pred_of_lt hlt) (hconn.parent h.known hdisk hpos)
        refine ⟨hnum, hconn', pre ++ [B.block old], ?_, fun b hb => ?_⟩
        · rw [hchain, append_assoc]
          rfl
        · rcases mem_append.mp hb with hb | hb
          · exact hpre b hb
          · rw [mem_singleton.mp hb]
            exact ⟨B.has_block old, hpos⟩
    · rw [if_neg hlt] at hrun
      cases hrun
      exact ⟨hn.trans (le_antisymm (Nat.le_of_not_lt hlt) hle), hconn, [], rfl, nofun⟩

/-- Both chains come down to a block they have in common. -/
theorem walkFork_spec :
    ∀ {fuel : Nat} {old current : BlockHash} {new : List (ExecutedBlockWithTrieUpdates T)}
      {oldChain : List RecoveredBlock} {update : NewCanonicalChain T},
      s.walkFork fuel old current new oldChain = some (some update) →
      (B.block old).number = (B.block current).number → Connected s.treeState disk old →
      Connected s.treeState disk current ∧ ∃ pre preOld,
        update = .reorg (pre ++ new) (preOld ++ oldChain) ∧
        (∀ e ∈ pre, ∃ j : BlockHash, s.treeState.blocksByHash[j]? = some e) ∧
        ∀ b ∈ preOld, B.Has b ∧ 0 < b.number := by
  intro fuel
  induction fuel with
  | zero => intro old current new oldChain update hrun; nomatch hrun
  | succ fuel ih =>
    intro old current new oldChain update hrun hn hconn
    rw [walkFork] at hrun
    by_cases heq : old = current
    · rw [if_pos heq] at hrun
      cases hrun
      exact ⟨heq ▸ hconn, [], [], rfl, nofun, nofun⟩
    · rw [if_neg heq] at hrun
      cases hb : s.canonicalBlockByHash old with
      | none => rw [hb] at hrun; nomatch hrun
      | some b =>
        cases he : s.treeState.blocksByHash[current]? with
        | none => rw [hb, he] at hrun; nomatch hrun
        | some e =>
          rw [hb, he] at hrun
          cases h.sealedHeader hb
          obtain ⟨hblock, hpos⟩ := h.known.block he
          rw [ExecutedBlockWithTrieUpdates.number, hblock] at hpos
          have hposOld : 0 < (B.block old).number := hn ▸ hpos
          have hparent : (B.block (B.block old).parentHash).number =
              (B.block e.parentHash).number := by
            have hold := B.number_block old hposOld
            have hcur := B.number_block current hpos
            rw [ExecutedBlockWithTrieUpdates.parentHash, hblock]
            rw [hold, hcur] at hn
            exact succ.inj hn
          obtain ⟨hconn', pre, preOld, hupdate, hpre, hpreOld⟩ := ih hrun hparent
            (hconn.parent h.known hdisk hposOld)
          refine ⟨.tree he hconn', pre ++ [e], preOld ++ [B.block old], ?_, ?_, ?_⟩
          · rw [hupdate, append_assoc, append_assoc]
            rfl
          · intro e' he'
            rcases mem_append.mp he' with he' | he'
            · exact hpre e' he'
            · exact ⟨current, by rw [he, mem_singleton.mp he']⟩
          · intro b hb
            rcases mem_append.mp hb with hb | hb
            · exact hpreOld b hb
            · rw [mem_singleton.mp hb]
              exact ⟨B.has_block old, hposOld⟩

end

variable {update : NewCanonicalChain T} {n : BlockNumber}

/-- **A NEW HEAD** is a block of the tree that is connected. -/
theorem onNewHead_spec (h : Inv B s) (hrun : s.onNewHead fuel target = some (some update)) :
    ∃ new old, (update = .commit new ∨ update = .reorg new old) ∧
      (∃ e, new.getLast? = some e ∧ s.treeState.blocksByHash[target]? = some e) ∧
      (∀ e ∈ new, ∃ j : BlockHash, s.treeState.blocksByHash[j]? = some e) ∧
      (∀ b ∈ old, B.Has b ∧ 0 < b.number) ∧ Connected s.treeState s.stableDisk target := by
  have hheadnum : (B.block s.treeState.currentCanonicalHead.hash).number =
      s.treeState.currentCanonicalHead.number := congrArg BlockNumHash.number h.head
  rw [onNewHead] at hrun
  cases he : s.treeState.blocksByHash[target]? with
  | none => rw [he] at hrun; nomatch hrun
  | some e =>
    rw [he] at hrun
    dsimp only at hrun
    have hparent : (B.block e.parentHash).number = e.number - 1 := by
      rw [h.known.number_parent he]
      rfl
    have hmem : ∀ {pre},
        (∀ e ∈ pre, ∃ j : BlockHash, s.treeState.blocksByHash[j]? = some e) →
        ∀ e' ∈ pre ++ [e], ∃ j : BlockHash, s.treeState.blocksByHash[j]? = some e' := by
      intro pre hpre e' he'
      rcases mem_append.mp he' with he' | he'
      · exact hpre e' he'
      · exact ⟨target, by rw [he, mem_singleton.mp he']⟩
    split at hrun
    · nomatch hrun
    · nomatch hrun
    · next newChain current n hwalk =>
      obtain ⟨hnum, hle, hconn, pre, rfl, hpre⟩ := @walkNew_spec T B s.stableDisk _ h.known
        _ _ _ _ _ _ _ _ hwalk hparent
      split at hrun
      · -- an extension of the canonical chain
        next heq =>
          cases hrun
          exact ⟨pre ++ [e], [], .inl rfl, ⟨e, getLast?_concat, rfl⟩, hmem hpre,
            nofun, .tree he (hconn (heq ▸ h.connected))⟩
      · split at hrun
        · nomatch hrun
        · nomatch hrun
        · next oldChain old hold =>
          obtain ⟨hnumOld, hconnOld, preOld, rfl, hpreOld⟩ := walkOld_spec h h.stable hold
            hheadnum hle h.connected
          obtain ⟨hconnCur, pre', preOld', rfl, hpre', hpreOld'⟩ := walkFork_spec h h.stable
            hrun (hnumOld.trans hnum.symm) hconnOld
          refine ⟨_, _, .inr rfl, ⟨e, ?_, rfl⟩, ?_, ?_, .tree he (hconn hconnCur)⟩
          · rw [← append_assoc, getLast?_concat]
          · rw [← append_assoc]
            refine hmem fun e' he' => ?_
            rcases mem_append.mp he' with he' | he'
            · exact hpre' e' he'
            · exact hpre e' he'
          · intro b hb
            rw [append_nil] at hb
            rcases mem_append.mp hb with hb | hb
            · exact hpreOld' b hb
            · exact hpreOld b hb

/-! ## What the operations keep -/

/-- The service and the receiver are untouched by operations on the tree. -/
theorem Inv.of_tree (h : Inv B s) (hservice : s'.service = s.service)
    (hpersistence : s'.persistenceState = s.persistenceState) (hknown : s'.treeState.Known B)
    (hmemory : InMemory B s'.canonicalInMemoryState)
    (hhead : (B.block s'.treeState.currentCanonicalHead.hash).numHash =
      s'.treeState.currentCanonicalHead)
    (hconn : Connected s'.treeState s.stableDisk s'.treeState.currentCanonicalHead.hash) :
    Inv B s' where
  known := hknown
  memory := hmemory
  disk := by rw [hservice]; exact h.disk
  head := hhead
  connected := by rw [stableDisk, hservice]; exact hconn
  waiting := by
    have hw := h.waiting
    rw [Waiting, AtTip] at hw ⊢
    rw [hservice, hpersistence]
    exact hw

theorem Inv.insertPending (h : Inv B s)
    (he : B.Has e.recoveredBlock) (hpos : 0 < e.number) : Inv B (s.insertPending e) := by
  have hhead := s.treeState.head_insertExecuted e
  refine h.of_tree rfl rfl (h.known.insertExecuted he hpos) ?_ ?_ ?_
  · refine h.memory.congr ?_
    show (if _ then _ else _ : InMemoryState T).blocks = _
    split <;> rfl
  · show (B.block (s.treeState.insertExecuted e).currentCanonicalHead.hash).numHash =
      (s.treeState.insertExecuted e).currentCanonicalHead
    rw [hhead]
    exact h.head
  · show Connected (s.treeState.insertExecuted e) _ (s.treeState.insertExecuted e).currentCanonicalHead.hash
    rw [hhead]
    exact h.connected.mono (fun i e' he' => ⟨e', TreeState.get_insertExecuted e he', rfl⟩)
      (fun _ hb => hb)

theorem Inv.onCanonicalChainUpdate (h : Inv B s)
    (hnew : s.onNewHead fuel target = some (some update))
    (hrun : s.onCanonicalChainUpdate update = some s') : Inv B s' := by
  obtain ⟨new, old, hupdate, ⟨e, hlast, he⟩, hin, hold, hconn⟩ := onNewHead_spec h hnew
  obtain ⟨tree, htree, hrun⟩ := bind_eq_some_iff.mp hrun
  obtain ⟨tip, htip, htree⟩ := bind_eq_some_iff.mp htree
  cases hrun
  cases htree
  have hblock := (h.known.block he).1
  have htip' : tip = e.recoveredBlock := by
    rcases hupdate with rfl | rfl <;> simpa [NewCanonicalChain.tip, hlast] using htip.symm
  have hhas : ∀ e ∈ new, B.Has e.recoveredBlock ∧ 0 < e.number := by
    intro e' he'
    obtain ⟨j, hj⟩ := hin e' he'
    rw [(h.known.block hj).1]
    exact ⟨B.has_block j, (h.known.block hj).2⟩
  have hreorged : ∀ e ∈ s.treeState.reorged update, B.Has e.recoveredBlock ∧ 0 < e.number := by
    intro e' he'
    rcases hupdate with rfl | rfl
    · nomatch he'
    · rcases mem_append.mp he' with he' | he'
      · exact hhas e' he'
      · obtain ⟨b, hb, hsome⟩ := mem_filterMap.mp he'
        obtain ⟨u, -, rfl⟩ := map_eq_some_iff.mp hsome
        exact hold b hb
  have hset : (s.treeState.setCanonicalHead tip.numHash).Known B := h.known.congr rfl rfl rfl
  obtain ⟨hknown, hget, hhead⟩ := hset.reinsertReorgedBlocks hreorged
  refine h.of_tree rfl rfl hknown ?_ ?_ ?_
  · rcases hupdate with rfl | rfl
    · exact h.memory.updateBlocks (fun e he => (hhas e he).1) []
    · exact h.memory.updateBlocks (fun e he => (hhas e he).1) old
  · show (B.block (TreeState.reinsertReorgedBlocks _ _).currentCanonicalHead.hash).numHash = _
    rw [hhead]
    show (B.block tip.hash).numHash = tip.numHash
    rw [htip', hblock, B.hash_block]
  · show Connected (TreeState.reinsertReorgedBlocks _ _) _
      (TreeState.reinsertReorgedBlocks _ _).currentCanonicalHead.hash
    rw [hhead]
    show Connected _ _ tip.hash
    rw [show tip.hash = target by rw [htip', hblock, B.hash_block]]
    exact hconn.mono (fun i e' he' => ⟨e', hget i e' he', rfl⟩) fun _ hb => hb

theorem Inv.makeCanonical (h : Inv B s) (hrun : s.makeCanonical fuel target = some s') :
    Inv B s' := by
  obtain ⟨update, hnew, hrun⟩ := bind_eq_some_iff.mp hrun
  cases update with
  | none => cases hrun; exact h
  | some update => exact h.onCanonicalChainUpdate hnew hrun

/-- Moving the head back to a connected block. -/
theorem Inv.updateLatestBlockToCanonicalAncestor (h : Inv B s) (hheader : B.Has header)
    (hconn : Connected s.treeState s.stableDisk header.hash) :
    Inv B (s.updateLatestBlockToCanonicalAncestor header) := by
  have hblock : ∀ {b}, s.sealedHeaderByHash header.hash = some b → B.Has b := by
    intro b hb
    rw [h.sealedHeader hb]
    exact B.has_block _
  refine h.of_tree rfl rfl (h.known.congr rfl rfl rfl) ?_ ?_
    (hconn.mono (fun i e he => ⟨e, he, rfl⟩) fun _ hb => hb)
  · have hsingle : ∀ {b}, s.sealedHeaderByHash header.hash = some b →
        ∀ e ∈ [(⟨b, none⟩ : ExecutedBlockWithTrieUpdates T)], B.Has e.recoveredBlock := by
      intro b hb e he
      rw [mem_singleton.mp he]
      exact hblock hb
    rw [EngineApiTreeHandler.updateLatestBlockToCanonicalAncestor]
    dsimp only
    split
    · split
      · exact h.memory
      · next b hb => exact h.memory.updateBlocks (hsingle hb) _
    · split
      · next b _ hb => exact h.memory.updateBlocks (hsingle hb) _
      · exact h.memory
  · show (B.block header.hash).numHash = header.numHash
    rw [show B.block header.hash = header from hheader]

/-- **THE SERVICE** takes its one action and answers with the newest block on disk. -/
theorem Inv.runService (h : Inv B s) {service : PersistenceService T}
    (hrun : s.service.run = some service) : Inv B { s with service } := by
  have hw := h.waiting
  rw [Waiting] at hw
  split at hw
  · rw [PersistenceService.run, hw.1] at hrun
    nomatch hrun
  · next index current hrx =>
    rcases hw with ⟨action, hin, hlen, ⟨tip, htip, heq⟩, hfits⟩ | ⟨hin, -⟩
    · have hconn := h.connected
      rw [stableDisk, hin] at hconn
      have hreply : ∀ r, (s.service.replies ++ [r])[index]? = some r := by
        intro r
        rw [← hlen, getElem?_concat_length]
      rw [PersistenceService.run, hin] at hrun
      cases action with
      | saveBlocks blocks =>
        obtain ⟨disk, hsave, hrun⟩ := bind_eq_some_iff.mp hrun
        cases hrun
        obtain ⟨first, hfirst, hparent, hnum⟩ := hfits.first
        rw [← heq] at hparent hnum
        have hchain : (tip :: recovered blocks).IsChain (fun b c => Follows c b) := by
          refine isChain_cons.mpr ⟨fun b hb => ?_, hfits.linked⟩
          cases mem_unique hb hfirst
          exact ⟨hparent, hnum⟩
        obtain ⟨hdisk, hsub, hhead⟩ := h.disk.saveBlocks htip hfits.has hchain hsave
        refine ⟨h.known, h.memory, hdisk, h.head, hconn.mono (fun i e he => ⟨e, he, rfl⟩) hsub, ?_⟩
        rw [Waiting]
        simp only [hrx]
        refine .inr ⟨trivial, by rw [length_append, hlen]; rfl, ?_⟩
        cases hlast : blocks.getLast? with
        | none =>
          rw [getLast?_eq_none_iff.mp hlast] at hfirst
          nomatch hfirst
        | some last =>
          refine ⟨last.recoveredBlock, ?_, hreply _⟩
          rw [hhead]
          cases blocks with
          | nil => nomatch hlast
          | cons b blocks =>
            refine getLast?_cons_cons.trans ?_
            show ((b :: blocks).map (·.recoveredBlock)).getLast? = _
            rw [getLast?_map, hlast]
            rfl
      | removeBlocksAbove n =>
        cases hrun
        rw [← heq] at hfits
        obtain ⟨hdisk, b, hhead, hnum, hfind⟩ := h.disk.removeAbove htip (le_of_lt hfits)
        refine ⟨h.known, h.memory, hdisk, h.head, hconn, ?_⟩
        rw [Waiting]
        simp only [hrx]
        refine .inr ⟨trivial, by rw [length_append, hlen]; rfl, b, hhead, ?_⟩
        rw [hfind]
        exact hreply _
    · rw [PersistenceService.run, hin] at hrun
      nomatch hrun

/-! ## Disk reorgs -/

/-- Without a receiver the service is idle, and everything on disk stays. -/
theorem Inv.idle (h : Inv B s) (hrx : s.persistenceState.rx = none) :
    s.service.incoming = [] ∧ s.stableDisk = s.service.disk ∧
      ∃ tip, s.service.disk.head? = some tip ∧
        tip.numHash = s.persistenceState.lastPersistedBlock := by
  have hw := h.waiting
  rw [Waiting, hrx] at hw
  exact ⟨hw.1, by rw [stableDisk, hw.1]; rfl, hw.2⟩

section

variable {fuel : Nat} {c p r : BlockNumHash}

theorem Inv.parentNumHash (h : Inv B s) (hc : (B.block c.hash).numHash = c) (hpos : 0 < c.number)
    (hp : s.parentNumHash c = some p) :
    p.hash = (B.block c.hash).parentHash ∧ p.number + 1 = c.number ∧
      (B.block p.hash).numHash = p := by
  obtain ⟨b, hb, rfl⟩ := map_eq_some_iff.mp hp
  cases h.sealedHeader hb
  have hnum : (B.block c.hash).number = c.number := congrArg BlockNumHash.number hc
  have hparent := B.number_block c.hash (hnum ▸ hpos)
  refine ⟨rfl, ?_, ?_⟩
  · show (B.block c.hash).number - 1 + 1 = c.number
    rw [hnum]
    exact succ_pred hpos.ne'
  · show (⟨(B.block (B.block c.hash).parentHash).number,
      (B.block (B.block c.hash).parentHash).hash⟩ : BlockNumHash) =
      ⟨(B.block c.hash).number - 1, (B.block c.hash).parentHash⟩
    rw [B.hash_block, hparent]
    rfl

/-- Blocks above the newest one on disk are in the tree. -/
theorem Inv.walkTo_canonical (h : Inv B s) (hn : ∀ b ∈ s.service.disk, b.number ≤ n)
    (hrun : s.walkTo n fuel c = some r) :
    (B.block c.hash).numHash = c → Connected s.treeState s.service.disk c.hash →
      (B.block r.hash).numHash = r ∧ r.number ≤ n ∧ Connected s.treeState s.service.disk r.hash ∧
      ∃ l, s.treeState.Tower r.hash c.hash l ∧ ∀ e ∈ l, n < e.number := by
  induction fuel generalizing c r with
  | zero => cases hrun
  | succ fuel ih =>
    intro hc hconn
    rw [walkTo] at hrun
    have hnum : (B.block c.hash).number = c.number := congrArg BlockNumHash.number hc
    by_cases hlt : n < c.number
    · rw [if_pos hlt] at hrun
      obtain ⟨p, hp, hrun⟩ := bind_eq_some_iff.mp hrun
      obtain ⟨hhash, -, hp'⟩ := h.parentNumHash hc (zero_lt_of_lt hlt) hp
      obtain ⟨e, he, hconn'⟩ := hconn.of_not_mem (fun b hb heq => by
        have hle := hn b hb
        rw [← h.disk.has b hb, heq, hnum] at hle
        exact absurd hlt (Nat.not_lt_of_le hle))
      have hparent : p.hash = e.parentHash := by
        rw [hhash, ← (h.known.block he).1]
        rfl
      obtain ⟨hr, hle, hconnr, l, htower, hl⟩ := ih hrun hp' (hparent ▸ hconn')
      refine ⟨hr, hle, hconnr, e :: l, .cons he (hparent ▸ htower), fun e' he' => ?_⟩
      rcases mem_cons.mp he' with rfl | he'
      · rw [ExecutedBlockWithTrieUpdates.number, (h.known.block he).1, hnum]
        exact hlt
      · exact hl e' he'
    · rw [if_neg hlt] at hrun
      cases hrun
      exact ⟨hc, Nat.le_of_not_lt hlt, hconn, [], .nil, by simp⟩

theorem Inv.parent_disk (h : Inv B s) (hb : b ∈ s.service.disk) (hpos : 0 < b.number)
    (hp : s.parentNumHash b.numHash = some p) :
    ∃ b' ∈ s.service.disk, b.number = b'.number + 1 ∧ b'.numHash = p := by
  have hhas : B.block b.hash = b := h.disk.has b hb
  obtain ⟨hhash, hnum, hp'⟩ := h.parentNumHash (c := b.numHash)
    (show (B.block b.hash).numHash = _ by rw [hhas]) hpos hp
  obtain ⟨b', hb', hparent⟩ := h.disk.parent hb hpos
  have heq : b'.numHash = p := by
    rw [← hp', hhash]
    show _ = (B.block (B.block b.hash).parentHash).numHash
    rw [hhas, ← hparent, show B.block b'.hash = b' from h.disk.has b' hb']
  refine ⟨b', hb', ?_, heq⟩
  rw [← heq] at hnum
  exact hnum.symm

theorem Inv.walkTo_disk (h : Inv B s) (hrun : s.walkTo n fuel b.numHash = some r) :
    b ∈ s.service.disk → n ≤ b.number → ∃ b' ∈ s.service.disk, b'.numHash = r ∧
      b'.number = n := by
  induction fuel generalizing b r with
  | zero => nomatch hrun
  | succ fuel ih =>
    intro hb hle
    rw [walkTo] at hrun
    by_cases hlt : n < b.number
    · rw [if_pos (show n < b.numHash.number from hlt)] at hrun
      obtain ⟨p, hp, hrun⟩ := bind_eq_some_iff.mp hrun
      obtain ⟨b', hb', hnum, heq⟩ := h.parent_disk hb (zero_lt_of_lt hlt) hp
      rw [← heq] at hrun
      exact ih hrun hb' (le_of_lt_succ (lt_of_lt_of_eq hlt hnum))
    · rw [if_neg (show ¬ n < b.numHash.number from hlt)] at hrun
      cases hrun
      exact ⟨b, hb, rfl, le_antisymm (Nat.le_of_not_lt hlt) hle⟩

/-- **THE COMMON ANCESTOR**: above it the canonical chain has no block on disk, so it stays
    connected when all above is removed. -/
theorem Inv.walkCommon (h : Inv B s) (hrun : s.walkCommon fuel c b.numHash = some r) :
    (B.block c.hash).numHash = c → b ∈ s.service.disk → c.number = b.number →
      Connected s.treeState s.service.disk c.hash → r.number ≤ b.number ∧
      (c.hash ≠ b.hash → r.number < b.number) ∧
      Connected s.treeState (PersistenceService.removeAbove r.number s.service.disk) c.hash := by
  induction fuel generalizing c r b with
  | zero => nomatch hrun
  | succ fuel ih =>
    intro hc hb hnum hconn
    rw [EngineApiTreeHandler.walkCommon] at hrun
    have hnumc : (B.block c.hash).number = c.number := congrArg BlockNumHash.number hc
    by_cases heq : b.numHash.hash = c.hash
    · rw [if_neg (not_not.mpr heq)] at hrun
      cases hrun
      refine ⟨le_rfl, fun hne => absurd heq.symm hne, ?_⟩
      rw [← heq]
      exact .disk (mem_filter.mpr ⟨hb, decide_eq_true (le_refl b.number)⟩)
    · rw [if_pos heq] at hrun
      obtain ⟨c', hc', hrun⟩ := bind_eq_some_iff.mp hrun
      obtain ⟨p, hp, hrun⟩ := bind_eq_some_iff.mp hrun
      -- a block on disk with the same number would be the same block
      obtain ⟨e, he, hconn'⟩ := hconn.of_not_mem (fun b' hb' hhash => by
        have hb'num : b'.number = b.number := by
          rw [← h.disk.has b' hb', hhash, hnumc, hnum]
        exact heq (h.disk.eq_of_number hb' hb hb'num ▸ hhash))
      obtain ⟨hblock, hpos⟩ := h.known.block he
      have hposc : 0 < c.number := by
        rw [ExecutedBlockWithTrieUpdates.number, hblock, hnumc] at hpos
        exact hpos
      obtain ⟨hhash, hnum', hc''⟩ := h.parentNumHash hc hposc hc'
      obtain ⟨b', hb', hbnum, rfl⟩ := h.parent_disk hb (hnum ▸ hposc) hp
      have hparent : c'.hash = e.parentHash := by
        rw [hhash, ← hblock]
        rfl
      have hnums : c'.number = b'.number := succ.inj (hnum'.trans (hnum.trans hbnum))
      obtain ⟨hle, -, hconnr⟩ := ih hrun hc'' hb' hnums (hparent ▸ hconn')
      have hlt : r.number < b.number :=
        lt_of_le_of_lt hle (lt_of_lt_of_eq (lt_succ_self _) hbnum.symm)
      exact ⟨le_of_lt hlt, fun _ => hlt, .tree he (hparent ▸ hconnr)⟩

end

variable (h : Inv B s) (hrx : s.persistenceState.rx = none)

include h hrx

/-- **NO DISK REORG**: a tower of blocks stands on the last persisted one. -/
theorem Inv.findDiskReorg_none (hrun : s.findDiskReorg fuel = some none) :
    ∃ l, s.treeState.Tower s.persistenceState.lastPersistedBlock.hash
        s.treeState.currentCanonicalHead.hash l ∧
      ∀ e ∈ l, s.persistenceState.lastPersistedBlock.number < e.number := by
  obtain ⟨-, hstable, tip, htip, heq⟩ := h.idle hrx
  obtain ⟨c, hc, hrun⟩ := bind_eq_some_iff.mp hrun
  have hn : ∀ b ∈ s.service.disk, b.number ≤ s.persistenceState.lastPersistedBlock.number := by
    intro b hb
    rw [← heq]
    exact h.disk.number_le htip hb
  obtain ⟨-, -, -, l, htower, hl⟩ := h.walkTo_canonical hn hc h.head (hstable ▸ h.connected)
  by_cases hcp : c = s.persistenceState.lastPersistedBlock
  · exact ⟨l, hcp ▸ htower, hl⟩
  · simp only [if_neg hcp] at hrun
    obtain ⟨p, -, hrun⟩ := bind_eq_some_iff.mp hrun
    obtain ⟨r, -, hrun⟩ := bind_eq_some_iff.mp hrun
    nomatch hrun

/-- **A DISK REORG**: removing above the number that is found keeps the head connected. -/
theorem Inv.findDiskReorg_some (hrun : s.findDiskReorg fuel = some (some n)) :
    n < s.persistenceState.lastPersistedBlock.number ∧
      Connected s.treeState (PersistenceService.removeAbove n s.service.disk)
        s.treeState.currentCanonicalHead.hash := by
  obtain ⟨-, hstable, tip, htip, heq⟩ := h.idle hrx
  obtain ⟨c, hc, hrun⟩ := bind_eq_some_iff.mp hrun
  have hn : ∀ b ∈ s.service.disk, b.number ≤ s.persistenceState.lastPersistedBlock.number := by
    intro b hb
    rw [← heq]
    exact h.disk.number_le htip hb
  obtain ⟨hc', hle, hconn, l, htower, hl⟩ := h.walkTo_canonical hn hc h.head (hstable ▸ h.connected)
  by_cases hcp : c = s.persistenceState.lastPersistedBlock
  · simp only [if_pos hcp] at hrun
    nomatch hrun
  simp only [if_neg hcp] at hrun
  obtain ⟨p, hp, hrun⟩ := bind_eq_some_iff.mp hrun
  obtain ⟨r, hr, hrun⟩ := bind_eq_some_iff.mp hrun
  cases hrun
  rw [← heq] at hp hle hcp ⊢
  have htipmem : tip ∈ s.service.disk := mem_of_mem_head? htip
  obtain ⟨b, hb, rfl, hnum⟩ := h.walkTo_disk hp htipmem hle
  obtain ⟨hrle, hrlt, hconnr⟩ := h.walkCommon hr hc' hb hnum.symm hconn
  refine ⟨?_, Connected.of_tower htower hconnr⟩
  rcases lt_or_eq_of_le hle with hlt | hsame
  · exact lt_of_le_of_lt (hrle.trans (le_of_eq hnum)) hlt
  · -- at the height of the last persisted block the hashes differ
    have hbtip : b = tip := h.disk.eq_of_number hb htipmem (hnum.trans hsame)
    subst hbtip
    refine hrlt fun hhash => hcp ?_
    rw [← hc', hhash]
    exact congrArg RecoveredBlock.numHash (h.disk.has b hb)

/-- **STARTING A REMOVAL**. -/
theorem Inv.removeBlocks (hrun : s.findDiskReorg fuel = some (some n)) :
    Inv B (s.removeBlocks n) := by
  obtain ⟨hidle, -, htip⟩ := h.idle hrx
  obtain ⟨hlt, hconn⟩ := h.findDiskReorg_some hrx hrun
  rw [EngineApiTreeHandler.removeBlocks, if_pos hlt]
  refine ⟨h.known, h.memory, h.disk, h.head, ?_, ?_⟩
  · show Connected _ ((s.service.incoming ++ [_]).foldl _ _) _
    rw [hidle]
    exact hconn
  · refine .inl ⟨.removeBlocksAbove n, ?_, ?_, htip, hlt⟩
    · show s.service.incoming ++ [_] = _
      rw [hidle]
      rfl
    · show _ = s.service.replies.length + s.service.incoming.length
      rw [hidle]
      rfl

/-- **PRUNING** after a block was persisted. -/
theorem Inv.onNewPersistedBlock (hrun : s.onNewPersistedBlock fuel = some s') : Inv B s' := by
  obtain ⟨reorg, hreorg, hrun⟩ := bind_eq_some_iff.mp hrun
  cases reorg with
  | some n =>
    cases hrun
    exact h.removeBlocks hrx hreorg
  | none =>
    obtain ⟨-, hstable, tip, htip, heq⟩ := h.idle hrx
    have htipmem : tip ∈ s.service.disk := mem_of_mem_head? htip
    obtain ⟨l, htower, hl⟩ := h.findDiskReorg_none hrx hreorg
    obtain ⟨s1, hs1, hrun⟩ := bind_eq_some_iff.mp hrun
    obtain ⟨tree, htree, hs1⟩ := bind_eq_some_iff.mp hs1
    cases hs1
    cases hrun
    have hhead := TreeState.head_removeUntil htree
    obtain ⟨hknown, htower'⟩ := TreeState.removeUntil_keeps_tower h.known htree htower hl (by
      rw [← heq]
      exact congrArg RecoveredBlock.number (h.disk.has tip htipmem))
    refine h.of_tree rfl rfl hknown (h.memory.removePersistedBlocks _) ?_ ?_
    · show (B.block tree.currentCanonicalHead.hash).numHash = tree.currentCanonicalHead
      rw [hhead]
      exact h.head
    · show Connected tree _ tree.currentCanonicalHead.hash
      rw [hhead, hstable]
      refine Connected.of_tower htower' ?_
      rw [← heq]
      exact .disk htipmem

end EngineApiTreeHandler

end Engine

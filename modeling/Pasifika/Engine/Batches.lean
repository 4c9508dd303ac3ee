import Pasifika.Engine.Persistence

/-! # Batches for the persistence service

`get_canonical_blocks_to_persist` collects the TOWER of blocks between the last
persisted block and the canonical head, as far as a target number. In every run
whose inserted blocks are valid and whose unwound heads stay connected, each batch
is a chain on top of the last persisted block, the service works on one action at a
time, and what is on disk is a chain.

A forkchoice update that moves the head back to a block on disk, while the removal
of that block is in progress, leaves a gap below the next batch. -/

namespace Engine

open Std (ExtTreeMap)
open OrderedMap ChainState List Option Bool
open ChainState.InMemoryState (Follows Linked recovered)

namespace EngineApiTreeHandler

variable {T : Type} {B : HashedBlocks} {s s' : EngineApiTreeHandler T}

/-! ## Collecting a batch -/

section

variable {t : TreeState T} {base i : BlockHash} {l : List (ExecutedBlockWithTrieUpdates T)}

/-- The walk collects the blocks of the tower up to the target. -/
theorem blocksToPersistLoop_tower (hknown : t.Known B) (hbase : (B.block base).number ≤ n)
    (htower : t.Tower base i l) :
    ∀ {fuel : Nat} {acc blocks : List (ExecutedBlockWithTrieUpdates T)},
      blocksToPersistLoop t n target fuel i acc = some blocks → (∀ e ∈ l, n < e.number) →
      blocks = (l.filter fun e => decide (e.number ≤ target)).reverse ++ acc := by
  induction htower with
  | nil =>
    intro fuel acc blocks hrun _
    cases fuel with
    | zero => cases hrun
    | succ fuel =>
      rw [blocksToPersistLoop] at hrun
      cases he : t.blocksByHash[base]? with
      | none => rw [he] at hrun; cases hrun; rfl
      | some e =>
        rw [he] at hrun
        have hnum : e.number ≤ n := by
          rw [ExecutedBlockWithTrieUpdates.number, (hknown.block he).1]
          exact hbase
        simp only [if_pos hnum] at hrun
        cases hrun
        rfl
  | @cons i e l he _ ih =>
    intro fuel acc blocks hrun hl
    cases fuel with
    | zero => cases hrun
    | succ fuel =>
      rw [blocksToPersistLoop, he] at hrun
      have hnum : ¬ e.number ≤ n := Nat.not_le_of_lt (hl e (mem_cons_self ..))
      simp only [if_neg hnum] at hrun
      rw [ih hrun fun e he => hl e (mem_cons_of_mem _ he)]
      by_cases hle : e.number ≤ target
      · rw [if_pos hle, filter_cons_of_pos (by simpa using hle), reverse_cons, append_assoc]
        rfl
      · rw [if_neg hle, filter_cons_of_neg (by simpa using hle)]

/-- **THE BLOCKS UP TO A TARGET** are the lower part of the tower. -/
theorem isBatch_of_tower (hknown : t.Known B) (htower : t.Tower base i l)
    (hbase : B.block base = ⟨lastPersisted.hash, (B.block base).parentHash, lastPersisted.number⟩)
    (hblocks : recovered blocks = recovered (l.filter fun e => decide (e.number ≤
      target)).reverse) (hne : blocks ≠ []) : IsBatch B lastPersisted blocks := by
  have hchain := htower.chained hknown
  have hdesc : l.Pairwise (fun e p => p.number < e.number) :=
    pairwise_map.mp (pairwise_append.mp (InMemoryState.descending_of_follows hchain)).1
  have hsuffix : l.filter (fun e => decide (e.number ≤ target)) <:+ l := by
    have hdrop := dropWhile_eq_filter (a := fun e => decide (target < e.number)) hdesc
      (fun e p hlt hp => decide_eq_true (lt_trans (of_decide_eq_true hp) hlt))
    have heq : (fun e : ExecutedBlockWithTrieUpdates T => decide (e.number ≤ target)) =
        fun e => !decide (target < e.number) := by
      funext e
      rw [← decide_not, decide_eq_decide]
      exact not_lt.symm
    rw [heq, ← hdrop]
    exact dropWhile_suffix _
  obtain ⟨pre, hpre⟩ := hsuffix
  generalize l.filter (fun e => decide (e.number ≤ target)) = kept at hblocks hpre
  have hkept : (recovered kept ++ [B.block base]).IsChain Follows := by
    rw [← hpre, map_append, append_assoc] at hchain
    exact (isChain_append.mp hchain).2.1
  have hup : (B.block base :: recovered blocks).IsChain (fun b c => Follows c b) := by
    rw [hblocks, recovered, map_reverse, ← reverse_concat, isChain_reverse]
    exact hkept
  refine ⟨?_, hup.tail, ?_⟩
  · intro b hb
    rw [hblocks, recovered, map_reverse, mem_reverse] at hb
    obtain ⟨e, he, rfl⟩ := mem_map.mp hb
    obtain ⟨j, hj⟩ := htower.mem (hpre ▸ mem_append_right pre he)
    rw [(hknown.block hj).1]
    exact B.has_block j
  · cases blocks with
    | nil => exact absurd rfl hne
    | cons first blocks =>
      obtain ⟨hparent, hnum⟩ := (isChain_cons_cons.mp hup).1
      rw [hbase] at hparent hnum
      exact ⟨first.recoveredBlock, rfl, hparent, hnum⟩

end

/-- Calculating trie updates changes nothing else of the blocks, in the batch or in the tree. -/
theorem calculateTrieUpdates_spec (hrun : s.calculateTrieUpdates blocks = some (blocks', s'))
    (hknown : s.treeState.Known B) (hblocks : ∀ e ∈ blocks, B.Has e.recoveredBlock ∧ 0 < e.number) :
    recovered blocks' = recovered blocks ∧ s' = { s with treeState := s'.treeState } ∧
      s'.treeState.Known B ∧ s'.treeState.currentCanonicalHead =
      s.treeState.currentCanonicalHead ∧ ∀ (i : BlockHash) e, s.treeState.blocksByHash[i]? =
      some e → ∃ e', s'.treeState.blocksByHash[i]? = some e' ∧ e'.parentHash = e.parentHash := by
  induction blocks generalizing blocks' s s' with
  | nil =>
    cases hrun
    exact ⟨rfl, rfl, hknown, rfl, fun i e he => ⟨e, he, rfl⟩⟩
  | cons b blocks ih =>
    have hrest : ∀ e ∈ blocks, B.Has e.recoveredBlock ∧ 0 < e.number :=
      fun e he => hblocks e (mem_cons_of_mem _ he)
    rw [calculateTrieUpdates] at hrun
    cases htrie : b.trie with
    | some u =>
      rw [htrie] at hrun
      obtain ⟨⟨blocks1, s1⟩, hrun1, hrun⟩ := bind_eq_some_iff.mp hrun
      cases hrun
      obtain ⟨heq, hs, hk, hhead, hget⟩ := ih hrun1 hknown hrest
      refine ⟨?_, hs, hk, hhead, hget⟩
      show b.recoveredBlock :: recovered blocks1 = b.recoveredBlock :: recovered blocks
      rw [heq]
    | none =>
      rw [htrie] at hrun
      dsimp only at hrun
      split at hrun
      · nomatch hrun
      obtain ⟨⟨blocks1, s1⟩, hrun1, hrun⟩ := bind_eq_some_iff.mp hrun
      cases hrun
      obtain ⟨hhas, hpos⟩ := hblocks b (mem_cons_self ..)
      have hset := hknown.setBlock
        (e := { b with trie := some (s.trieUpdates b.recoveredBlock) }) hhas hpos
      obtain ⟨heq, hs, hk, hhead, hget⟩ := ih hrun1 hset hrest
      refine ⟨?_, hs, hk, hhead, fun i e he => ?_⟩
      · show b.recoveredBlock :: recovered blocks1 = b.recoveredBlock :: recovered blocks
        rw [heq]
      by_cases hi : b.hash = i
      · -- the block itself, now with its updates
        subst hi
        obtain ⟨e', he', hp⟩ := hget b.hash _ ((get_insert _ _ _ _).trans (if_pos rfl))
        refine ⟨e', he', hp.trans ?_⟩
        show b.recoveredBlock.parentHash = e.recoveredBlock.parentHash
        rw [(hknown.block he).1]
        exact congrArg RecoveredBlock.parentHash hhas.symm
      · exact hget i e (((get_insert _ _ _ _).trans (if_neg hi)).trans he)

/-! ## Starting and finishing actions -/

/-- **SENDING A BATCH** when the service is idle. -/
theorem Inv.persistBlocks (h : Inv B s) (hrx : s.persistenceState.rx = none)
    (hbatch : blocks ≠ [] → IsBatch B s.persistenceState.lastPersistedBlock blocks) :
    Inv B (s.persistBlocks blocks) := by
  obtain ⟨hidle, hstable, htip⟩ := h.idle hrx
  cases blocks with
  | nil => exact h
  | cons b blocks =>
    refine ⟨h.known, h.memory, h.disk, h.head, ?_, .inl ⟨.saveBlocks (b :: blocks), ?_, ?_, htip,
      hbatch (cons_ne_nil _ _)⟩⟩
    · show Connected _ ((s.service.incoming ++ [_]).foldl _ _) _
      rw [hidle]
      exact hstable ▸ h.connected
    · show s.service.incoming ++ [_] = _
      rw [hidle]
      rfl
    · show _ = s.service.replies.length + s.service.incoming.length
      rw [hidle]
      rfl

theorem Inv.getCanonicalBlocksToPersist (h : Inv B s) (hrx : s.persistenceState.rx = none)
    (hreorg : s.findDiskReorg fuel = some none)
    (hrun : s.getCanonicalBlocksToPersist fuel' = some r) : Inv B (r.2.persistBlocks r.1) := by
  obtain ⟨blocks', s'⟩ := r
  obtain ⟨-, -, tip, htip, heq⟩ := h.idle hrx
  obtain ⟨l, htower, hl⟩ := h.findDiskReorg_none hrx hreorg
  obtain ⟨blocks, hblocks, hrun⟩ := bind_eq_some_iff.mp hrun
  have hbase : B.block s.persistenceState.lastPersistedBlock.hash = tip := by
    rw [← heq]
    exact h.disk.has tip (mem_of_mem_head? htip)
  replace hblocks := blocksToPersistLoop_tower h.known (by rw [hbase, ← heq]; exact le_rfl)
    htower hblocks hl
  rw [append_nil] at hblocks
  obtain ⟨hrec, hs', hknown, hhead, hget⟩ := calculateTrieUpdates_spec hrun h.known (by
    intro e he
    rw [hblocks, mem_reverse] at he
    obtain ⟨j, hj⟩ := htower.mem (mem_of_mem_filter he)
    rw [(h.known.block hj).1]
    exact ⟨B.has_block j, (h.known.block hj).2⟩)
  have hinv : Inv B s' := by
    refine h.of_tree (by rw [hs']) (by rw [hs']) hknown (by rw [hs']; exact h.memory) ?_ ?_
    · rw [hhead]
      exact h.head
    · rw [hhead]
      exact h.connected.mono hget fun _ hb => hb
  have hlast : s'.persistenceState = s.persistenceState := by rw [hs']
  refine hinv.persistBlocks (hlast ▸ hrx) (isBatch_of_tower h.known htower ?_ (hblocks ▸ hrec))
  rw [hlast, hbase, ← heq]
  rfl

variable {fuel : Nat}

theorem Inv.startPersistence (h : Inv B s) (hrun : s.startPersistence fuel = some s') :
    Inv B s' := by
  rw [EngineApiTreeHandler.startPersistence] at hrun
  cases hrx : s.persistenceState.rx with
  | some r =>
    rw [PersistenceState.inProgress, hrx] at hrun
    cases hrun
    exact h
  | none =>
    rw [PersistenceState.inProgress, hrx] at hrun
    obtain ⟨reorg, hreorg, hrun⟩ := bind_eq_some_iff.mp hrun
    cases reorg with
    | some n =>
      cases hrun
      exact h.removeBlocks hrx hreorg
    | none =>
      dsimp only at hrun
      split at hrun
      · obtain ⟨r, hr, hrun⟩ := bind_eq_some_iff.mp hrun
        cases hrun
        exact h.getCanonicalBlocksToPersist hrx hreorg hr
      · cases hrun
        exact h

theorem Inv.advancePersistence (h : Inv B s) (hrun : s.advancePersistence fuel = some s') :
    Inv B s' := by
  rw [EngineApiTreeHandler.advancePersistence] at hrun
  cases hrx : s.persistenceState.rx with
  | none =>
    rw [hrx] at hrun
    exact h.startPersistence hrun
  | some rx =>
    obtain ⟨index, current⟩ := rx
    rw [hrx] at hrun
    dsimp only at hrun
    cases hr : s.service.replies[index]? with
    | none =>
      rw [hr] at hrun
      exact h.startPersistence hrun
    | some r =>
      have hw := h.waiting
      rw [Waiting, hrx] at hw
      rcases hw with ⟨action, -, hlen, -⟩ | ⟨hin, -, tip, htip, hreply⟩
      · -- an action in the channel has no answer yet
        rw [getElem?_eq_none (le_of_eq hlen)] at hr
        cases hr
      · -- the answer names the newest block on disk
        cases hreply.symm.trans hr
        have hfinish : Inv B
            { s with persistenceState := s.persistenceState.finish tip.numHash } :=
          ⟨h.known, h.memory, h.disk, h.head, h.connected, hin, tip, htip, rfl⟩
        rw [hr] at hrun
        obtain ⟨s1, hs1, hrun⟩ := bind_eq_some_iff.mp hrun
        exact (hfinish.onNewPersistedBlock rfl hs1).startPersistence hrun

/-! ## Runs -/

/-- **VALID BLOCKS** are inserted: those that their hashes name. -/
def Op.Valid (B : HashedBlocks) : Op T → Prop
  | .insertBlock executed => B.Has executed.recoveredBlock ∧ 0 < executed.number
  | .insertExecutedBlock executed => B.Has executed.recoveredBlock ∧ 0 < executed.number
  | _ => True

instance (B : HashedBlocks) : DecidablePred (Op.Valid (T := T) B)
  | .insertBlock executed =>
    inferInstanceAs (Decidable (B.Has executed.recoveredBlock ∧ 0 < executed.number))
  | .insertExecutedBlock executed =>
    inferInstanceAs (Decidable (B.Has executed.recoveredBlock ∧ 0 < executed.number))
  | .onForkchoiceUpdated _ _ => .isTrue trivial
  | .makeCanonical _ => .isTrue trivial
  | .trackForkchoice _ => .isTrue trivial
  | .advancePersistence => .isTrue trivial
  | .runService => .isTrue trivial

/-- **UNWINDING TO A CONNECTED BLOCK**: the head moves back to a canonical block only if a path
    through the tree leads from it to a block that no action in progress removes from disk. -/
def unwindsConnected (s : EngineApiTreeHandler T) : Op T → Bool
  | .onForkchoiceUpdated headBlockHash attrs =>
    s.treeState.currentCanonicalHead.hash == headBlockHash || !s.unwinds attrs ||
      (s.findCanonicalHeader headBlockHash).all (fun header =>
        Engine.connected s.treeState s.stableDisk (header.number + 1) header.hash)
  | _ => true

variable {headBlockHash : BlockHash}

theorem Inv.onForkchoiceUpdated (h : Inv B s)
    (hguard : s.unwindsConnected (.onForkchoiceUpdated headBlockHash attrs) = true)
    (hrun : s.onForkchoiceUpdated fuel headBlockHash attrs = some s') : Inv B s' := by
  rw [EngineApiTreeHandler.onForkchoiceUpdated] at hrun
  by_cases hsame : s.treeState.currentCanonicalHead.hash = headBlockHash
  · rw [if_pos hsame] at hrun
    cases hrun
    exact h
  · rw [if_neg hsame] at hrun
    cases hheader : s.findCanonicalHeader headBlockHash with
    | none =>
      rw [hheader] at hrun
      exact h.makeCanonical hrun
    | some header =>
      rw [hheader] at hrun
      cases hrun
      by_cases hunwinds : s.unwinds attrs = true
      · rw [if_pos hunwinds]
        have hheader' := h.canonicalHeader hheader
        refine h.updateLatestBlockToCanonicalAncestor ?_ ?_
        · rw [hheader']
          exact B.has_block _
        · rw [unwindsConnected, hheader, hunwinds, beq_eq_false_iff_ne.mpr hsame] at hguard
          exact connected_of hguard
      · rw [if_neg hunwinds]
        exact h

/-- **STEP LEMMA**. -/
theorem Inv.step (h : Inv B s) (hvalid : op.Valid B) (hguard : s.unwindsConnected op = true)
    (hstep : Step s op s') : Inv B s' := by
  obtain ⟨fuel, hrun⟩ := hstep
  cases op with
  | insertBlock executed =>
    cases hrun
    rw [EngineApiTreeHandler.insertBlock]
    split
    · exact h
    · split
      · exact h
      · exact h.insertPending hvalid.1 hvalid.2
  | insertExecutedBlock executed =>
    cases hrun
    rw [EngineApiTreeHandler.insertExecutedBlock]
    split
    · exact h
    · exact h.insertPending hvalid.1 hvalid.2
  | onForkchoiceUpdated headBlockHash attrs => exact h.onForkchoiceUpdated hguard hrun
  | makeCanonical target => exact h.makeCanonical hrun
  | trackForkchoice lastValidFinalized =>
    cases hrun
    exact ⟨h.known, h.memory, h.disk, h.head, h.connected, h.waiting⟩
  | advancePersistence => exact h.advancePersistence hrun
  | runService =>
    obtain ⟨service, hservice, rfl⟩ := map_eq_some_iff.mp hrun
    exact h.runService hservice

theorem inv_new (hdisk : OnDisk B (tip :: below)) (engineKind : EngineApiKind)
    (config : TreeConfig) (trieUpdates : RecoveredBlock → T) :
    Inv B (new tip below engineKind config trieUpdates) where
  known := TreeState.known_new _ _
  memory i st hst := by
    have hempty : (∅ : ExtTreeMap BlockHash (BlockState T))[i]? = some st := hst
    simp at hempty
  disk := hdisk
  head := congrArg RecoveredBlock.numHash (hdisk.has tip (mem_cons_self ..))
  connected := .disk (mem_cons_self ..)
  waiting := ⟨rfl, tip, rfl, rfl⟩

theorem service_makeCanonical (hrun : s.makeCanonical fuel target = some s') :
    s'.service = s.service := by
  obtain ⟨update, -, hrun⟩ := bind_eq_some_iff.mp hrun
  cases update with
  | none => cases hrun; rfl
  | some update =>
    obtain ⟨tree, -, hrun⟩ := bind_eq_some_iff.mp hrun
    cases hrun
    rfl

theorem service_onForkchoiceUpdated
    (hrun : s.onForkchoiceUpdated fuel headBlockHash attrs = some s') :
    s'.service = s.service := by
  rw [EngineApiTreeHandler.onForkchoiceUpdated] at hrun
  split at hrun
  · cases hrun; rfl
  · split at hrun
    · cases hrun
      split <;> rfl
    · exact service_makeCanonical hrun

theorem sent_run {service service' : PersistenceService T} (hrun : service.run = some service') :
    service'.sent = service.sent := by
  have hmove : ∀ (reply : Option BlockNumHash) (action : PersistenceAction T)
      (incoming : List (PersistenceAction T)),
      (service.replies ++ [reply]).length + incoming.length =
        service.replies.length + (action :: incoming).length := by
    intro reply action incoming
    rw [length_append, length_singleton, length_cons, add_assoc, add_comm 1]
  rw [PersistenceService.run] at hrun
  rw [PersistenceService.sent, PersistenceService.sent]
  split at hrun
  · cases hrun
  · next blocks incoming hin =>
    obtain ⟨disk, -, hrun⟩ := bind_eq_some_iff.mp hrun
    cases hrun
    rw [hin]
    exact hmove _ _ _
  · next n incoming hin =>
    cases hrun
    rw [hin]
    exact hmove _ _ _

/-- **ONE AT A TIME**: an action is sent only when every earlier one has been answered. -/
theorem Inv.sent (h : Inv B s) (hstep : Step s op s') (hsent : s'.service.sent ≠ s.service.sent) :
    s.service.incoming = [] := by
  obtain ⟨fuel, hrun⟩ := hstep
  cases op with
  | insertBlock executed =>
    cases hrun
    rw [EngineApiTreeHandler.insertBlock] at hsent
    split at hsent
    · exact absurd rfl hsent
    · split at hsent <;> exact absurd rfl hsent
  | insertExecutedBlock executed =>
    cases hrun
    rw [EngineApiTreeHandler.insertExecutedBlock] at hsent
    split at hsent <;> exact absurd rfl hsent
  | onForkchoiceUpdated headBlockHash attrs =>
    exact absurd (congrArg _ (service_onForkchoiceUpdated hrun)) hsent
  | makeCanonical target => exact absurd (congrArg _ (service_makeCanonical hrun)) hsent
  | trackForkchoice lastValidFinalized =>
    cases hrun
    exact absurd rfl hsent
  | runService =>
    obtain ⟨service, hservice, rfl⟩ := map_eq_some_iff.mp hrun
    exact absurd (sent_run hservice) hsent
  | advancePersistence =>
    have hw := h.waiting
    rw [Waiting] at hw
    replace hrun : s.advancePersistence fuel = some s' := hrun
    rw [EngineApiTreeHandler.advancePersistence] at hrun
    cases hrx : s.persistenceState.rx with
    | none =>
      rw [hrx] at hw
      exact hw.1
    | some rx =>
      obtain ⟨index, current⟩ := rx
      rw [hrx] at hw hrun
      rcases hw with ⟨action, -, hlen, -⟩ | ⟨hin, -⟩
      · -- the receiver is still waiting, so that nothing is started
        dsimp only at hrun
        rw [getElem?_eq_none (le_of_eq hlen)] at hrun
        dsimp only at hrun
        rw [EngineApiTreeHandler.startPersistence, PersistenceState.inProgress, hrx] at hrun
        cases hrun
        exact absurd rfl hsent
      · exact hin

/-- **ORDERLY PERSISTENCE**: the handler waits for at most one action in the channel, a batch there
    is a chain on the last persisted block, the newest one on disk, and the blocks on disk are a
    chain. -/
structure Orderly (s : EngineApiTreeHandler T) : Prop where
  single : s.service.incoming.length ≤ 1
  waiting : s.service.incoming ≠ [] → s.persistenceState.inProgress = true ∧ s.AtTip
  batch : ∀ blocks, .saveBlocks blocks ∈ s.service.incoming →
    Linked (recovered blocks) ∧ ∃ first ∈ (recovered blocks).head?,
      first.parentHash = s.persistenceState.lastPersistedBlock.hash ∧
        first.number = s.persistenceState.lastPersistedBlock.number + 1
  disk : s.service.disk.IsChain Follows

theorem Inv.orderly (h : Inv B s) : s.Orderly := by
  have hw := h.waiting
  rw [Waiting] at hw
  have hempty : s.service.incoming = [] → s.Orderly := fun hin =>
    ⟨by rw [hin]; exact Nat.zero_le _, fun hne => absurd hin hne,
      fun blocks hmem => absurd (hin ▸ hmem) not_mem_nil, h.disk.chain⟩
  cases hrx : s.persistenceState.rx with
  | none =>
    rw [hrx] at hw
    exact hempty hw.1
  | some rx =>
    rw [hrx] at hw
    rcases hw with ⟨action, hin, -, htip, hfits⟩ | ⟨hin, -⟩
    · refine ⟨by rw [hin]; exact le_rfl, fun _ => ⟨?_, htip⟩, fun blocks hmem => ?_,
        h.disk.chain⟩
      · rw [PersistenceState.inProgress, hrx]
        rfl
      · rw [hin] at hmem
        cases mem_singleton.mp hmem
        exact ⟨hfits.linked, hfits.first⟩
    · exact hempty hin

/-- **PERSISTENCE IS ORDERLY** in every run of valid blocks, unwinds to connected ones and the
    service; a step sends an action only when every earlier one has been answered. -/
theorem orderly_of_run {tip : RecoveredBlock} {below : List RecoveredBlock}
    (hdisk : OnDisk B (tip :: below)) {engineKind : EngineApiKind} {config : TreeConfig}
    {trieUpdates : RecoveredBlock → T}
    (h : Runs.ReachedBy Step (fun s op => op.Valid B ∧ s.unwindsConnected op = true)
      (new tip below engineKind config trieUpdates) s) :
    s.Orderly ∧ ∀ op s', Step s op s' → s'.service.sent ≠ s.service.sent →
      s.service.incoming = [] := by
  have hinv : Inv B s := h.invariant (I := Inv B) (inv_new hdisk engineKind config trieUpdates)
    (fun _ _ _ _ hs hguard hstep => hs.step hguard.1 hguard.2 hstep)
  exact ⟨hinv.orderly, fun op s' hstep hsent => hinv.sent hstep hsent⟩

/-! ## Sample runs -/

def sampleParent (h : Nat) : Nat := if h = 1000 then 104 else h - 1

def sampleNumber (h : Nat) : Nat := if h < 1000 then h - 100 else h - 995

theorem sampleNumber_parent (h : Nat) (hpos : 0 < sampleNumber h) :
    sampleNumber h = sampleNumber (sampleParent h) + 1 := by
  rw [sampleNumber] at hpos
  rw [sampleNumber, sampleNumber, sampleParent]
  split_ifs at hpos ⊢ <;> omega

/-- A chain of blocks from 100 on, and one that leaves it at 1000. -/
def sampleBlocks : HashedBlocks where
  block h := ⟨h, sampleParent h, sampleNumber h⟩
  hash_block _ := rfl
  number_block := sampleNumber_parent

def sampleExecuted (h : BlockHash) : ExecutedBlockWithTrieUpdates Unit :=
  ⟨sampleBlocks.block h, some ()⟩

/-- A handler with the blocks 0 to 5 on disk. -/
def sampleHandler (config : TreeConfig) : EngineApiTreeHandler Unit :=
  new (sampleBlocks.block 105) ([104, 103, 102, 101, 100].map sampleBlocks.block) .opStack config
    (fun _ => ())

/-- The batches in the channel, as hashes. -/
def batches (s : EngineApiTreeHandler T) : List (List BlockHash) :=
  s.service.incoming.filterMap (fun action => match action with
    | .saveBlocks blocks => some (blocks.map ExecutedBlockWithTrieUpdates.hash)
    | .removeBlocksAbove _ => none)

/-- The head moves to block 4 and, while block 5 is being removed, back to block 5. Blocks 6 and 7
    then come as a batch on top of block 4. -/
theorem batch_with_gap :
    ∃ s : EngineApiTreeHandler Unit,
      Runs.ReachedBy Step (fun _ op => op.Valid sampleBlocks) (sampleHandler ⟨2, 0, false, true⟩) s
        ∧ s.batches = [[106, 107]] ∧ s.persistenceState.lastPersistedBlock = ⟨4, 104⟩
        ∧ (sampleBlocks.block 106).parentHash = 105 := by
  obtain ⟨s, hs, hcheck⟩ := Runs.exists_of_apply apply (fun _ op => decide (op.Valid sampleBlocks)) 9
    [.onForkchoiceUpdated 104 false, .advancePersistence, .onForkchoiceUpdated 105 false,
      .runService, .advancePersistence, .insertBlock (sampleExecuted 106),
      .insertBlock (sampleExecuted 107), .onForkchoiceUpdated 107 false, .advancePersistence]
    (sampleHandler ⟨2, 0, false, true⟩)
    (fun s => s.batches == [[106, 107]] && s.persistenceState.lastPersistedBlock == ⟨4, 104⟩)
    (by decide +kernel)
  rw [and_eq_true, beq_iff_eq, beq_iff_eq] at hcheck
  simp only [decide_eq_true_eq] at hs
  exact ⟨s, hs, hcheck.1, hcheck.2, rfl⟩

/-- A batch in the channel after the blocks above 4 were replaced on disk. -/
theorem orderly_of_run_sample :
    ∃ s : EngineApiTreeHandler Unit,
      Runs.ReachedBy Step (fun s op => op.Valid sampleBlocks ∧ s.unwindsConnected op = true)
          (sampleHandler ⟨2, 0, false, true⟩) s
        ∧ (s.batches = [[1000, 1001, 1002]]
        ∧ s.persistenceState.lastPersistedBlock = ⟨4, 104⟩) ∧ s.Orderly := by
  obtain ⟨s, hs, hcheck⟩ := Runs.exists_of_apply apply
    (fun s op => decide (op.Valid sampleBlocks) && s.unwindsConnected op) 9
    [.insertBlock (sampleExecuted 1000), .insertBlock (sampleExecuted 1001),
      .insertBlock (sampleExecuted 1002), .onForkchoiceUpdated 1001 false, .advancePersistence,
      .runService, .onForkchoiceUpdated 1002 false, .advancePersistence]
    (sampleHandler ⟨2, 0, false, true⟩)
    (fun s => s.batches == [[1000, 1001, 1002]] &&
      s.persistenceState.lastPersistedBlock == ⟨4, 104⟩)
    (by decide +kernel)
  rw [and_eq_true, beq_iff_eq, beq_iff_eq] at hcheck
  simp only [and_eq_true, decide_eq_true_eq] at hs
  refine ⟨s, hs, hcheck, (orderly_of_run (B := sampleBlocks) ?_ hs).1⟩
  exact ⟨by decide, by decide, ⟨_, rfl, rfl⟩⟩

end EngineApiTreeHandler

end Engine

import Pasifika.Pool.Operations

/-! # Reachable pools

The pools that finitely many operations lead to from `TxPool::new` are sound.
Spelled out, this gives the two structural facts about them: the sub-pools
are an exact partition of the transactions, and the derived indexes of
`AllTransactions` are exact. -/

namespace TransactionPool

open Std OrderedMap AllTransactions Nat Option

variable {V : Type}

namespace TxPool

/-! ## Soundness of every run -/

theorem sound_new (ordering : TransactionOrdering V) (blobTxPriority : BlobTxPriority)
    (config : PoolConfig) : Sound (TxPool.new ordering blobTxPriority config) := by
  have hplace : (AllTransactions.new config).place = fun _ => none := by
    funext id
    rw [place_eq_none]
    exact ExtTreeMap.getElem?_empty
  refine ⟨indexed_new config, fun id t ht => ?_, ⟨ParkedPool.wf_default, ParkedPool.wf_default,
    BlobTransactions.wf_default _, PendingPool.wf_withBuffer _ _, fun s id => ?_⟩⟩
  · rw [show (TxPool.new ordering blobTxPriority config).allTransactions.txs[id]? = none from
      ExtTreeMap.getElem?_empty] at ht
    nomatch ht
  · rw [show (TxPool.new ordering blobTxPriority config).allTransactions.place = _ from hplace]
    have hparked : ParkedPool.default.get id = none :=
      ParkedPool.get_eq_none.mpr ExtTreeMap.getElem?_empty
    cases s with
    | queued | baseFee => exact hparked
    | blob => exact BlobTransactions.get_eq_none.mpr ExtTreeMap.getElem?_empty
    | pending => exact PendingPool.get_eq_none.mpr ExtTreeMap.getElem?_empty

variable [LinearOrder V]

/-- A pool that some run from a new pool leads to. -/
def Reachable (p : TxPool V) : Prop :=
  ∃ ordering blobTxPriority config,
    Runs.Reachable Step (TxPool.new ordering blobTxPriority config) p

/-- **EVERY REACHABLE POOL IS SOUND.** -/
theorem Reachable.sound {p : TxPool V} (h : Reachable p) : Sound p := by
  obtain ⟨ordering, blobTxPriority, config, hr⟩ := h
  refine hr.invariant (sound_new ordering blobTxPriority config) ?_
  intro s op s' _ hs _ hstep
  exact (step_cases hs hstep).sound hs

/-- Run a list of operations. -/
def run (fuel : Nat) : List Op → TxPool V → Option (TxPool V)
  | [], p => some p
  | op :: ops, p => (p.apply fuel op).bind (run fuel ops)

theorem reachable_of_run {fuel : Nat} {init : TxPool V} :
    ∀ ops {p p'}, Runs.Reachable Step init p →
      run fuel ops p = some p' → Runs.Reachable Step init p' := by
  intro ops
  induction ops with
  | nil =>
    intro p p' h heq
    cases heq
    exact h
  | cons op ops ih =>
    intro p p' h heq
    obtain ⟨p1, hop, hrest⟩ := bind_eq_some_iff.mp heq
    exact ih (h.step trivial ⟨fuel, hop⟩) hrest

/-! ## Sample transactions -/

/-- A dynamic fee transaction. -/
def sampleTx (hash : TxHash) (sender : SenderId) (nonce cost maxFee : Nat)
    (authorityIds : Option (List SenderId)) : ValidPoolTransaction where
  transaction :=
    { hash, sender, nonce, cost := BitVec.ofNat 256 cost, gasLimit := 21000, txType := 2
      maxFeePerGas := maxFee, maxPriorityFeePerGas := some 1, maxFeePerBlobGas := none
      size := 100, blobFee_isSome := rfl }
  transactionId := ⟨sender, nonce⟩
  origin := .external
  authorityIds
  id_nonce := rfl

/-- A blob transaction. -/
def sampleBlobTx (hash : TxHash) (sender : SenderId) (nonce cost maxFee maxBlobFee : Nat) :
    ValidPoolTransaction where
  transaction :=
    { hash, sender, nonce, cost := BitVec.ofNat 256 cost, gasLimit := 21000, txType := 3
      maxFeePerGas := maxFee, maxPriorityFeePerGas := some 1, maxFeePerBlobGas := some maxBlobFee
      size := 100, blobFee_isSome := rfl }
  transactionId := ⟨sender, nonce⟩
  origin := .external
  authorityIds := none
  id_nonce := rfl

/-- A pool that accepts every fee. -/
def samplePool (config : PoolConfig) : TxPool Nat :=
  TxPool.new coinbaseTipOrdering (fun _ _ _ _ => 0) { config with minimalProtocolBasefee := 0 }

theorem reachable_samplePool {fuel : Nat} {config : PoolConfig} {ops : List Op} {p : TxPool Nat}
    (h : run fuel ops (samplePool config) = some p) : Reachable p :=
  ⟨_, _, _, reachable_of_run ops .init h⟩

/-- The new state of one account. -/
def changedAccount (sender : SenderId) (stateNonce balance : Nat) :
    ExtTreeMap SenderId SenderInfo :=
  (∅ : ExtTreeMap SenderId SenderInfo).insert sender ⟨stateNonce, BitVec.ofNat 256 balance⟩

/-- A run that inserts, replaces, moves fees and removes. -/
def sampleOps : List Op :=
  [.addTransaction (sampleTx 1 1 0 5 100 none) 1000#256 0 none,
   .addTransaction (sampleTx 2 1 1 5 50 (some [7])) 1000#256 0 none,
   .addTransaction (sampleBlobTx 3 2 0 5 100 9) 1000#256 0 none,
   .addTransaction (sampleTx 4 1 0 5 200 none) 1000#256 0 none,
   .setBlockInfo ⟨0, 1, 30000000, 60, some 4⟩,
   .removeTransactions [9]]

/-! ## The partition -/

/-- **AN EXACT PARTITION**: `by_hash`, `txs`, the `subpool` fields, the four sub-pools and their
    sizes. -/
structure ExactPartition (p : TxPool V) : Prop where
  /-- A hash is bound exactly to the listed transaction with that hash. -/
  byHash : ∀ (hash : TxHash) (tx : ValidPoolTransaction),
    p.allTransactions.byHash[hash]? = some tx ↔ tx.hash = hash ∧
      ∃ (id : TransactionId) (t : PoolInternalTransaction),
        p.allTransactions.txs[id]? = some t ∧ t.transaction = tx
  routed : ∀ (id : TransactionId) (t : PoolInternalTransaction),
    p.allTransactions.txs[id]? = some t → t.subpool = t.state.subPool
  /-- A listed transaction is held by the recorded sub-pool and by no other one. -/
  held : ∀ (id : TransactionId) (t : PoolInternalTransaction),
    p.allTransactions.txs[id]? = some t →
      ∀ s, p.subpoolGet s id = if s = t.subpool then some t.transaction else none
  noGhosts : ∀ (s : SubPool) (id : TransactionId) (tx : ValidPoolTransaction),
    p.subpoolGet s id = some tx → ∃ t, p.allTransactions.txs[id]? = some t ∧ t.transaction = tx
  pendingSize : p.pendingPool.sizeOf.value
    = total (fun t => t.transaction.size) p.pendingPool.byId
  basefeeSize : p.basefeePool.sizeOf.value
    = total (fun t => t.transaction.size) p.basefeePool.byId
  queuedSize : p.queuedPool.sizeOf.value
    = total (fun t => t.transaction.size) p.queuedPool.byId
  blobSize : p.blobPool.sizeOf.value = total (fun t => t.transaction.size) p.blobPool.byId

omit [LinearOrder V] in
/-- Soundness, spelled out. -/
theorem exactPartition_of_sound (h : Sound p) : ExactPartition p where
  byHash := by
    intro hash tx
    rw [h.indexed.byHash, tx_eq_some]
    refine and_congr_right fun _ => ⟨?_, ?_⟩
    · rintro ⟨t, ht, htx⟩
      exact ⟨tx.id, t, ht, htx⟩
    · rintro ⟨id, t, ht, rfl⟩
      exact ⟨t, by rw [h.indexed.key ht, ht], rfl⟩
  routed := fun id t ht => (h.routed id t ht).subpool
  held := by
    intro id t ht s
    rw [h.located.holds, place_of_get ht]
    by_cases hs : s = t.subpool
    · rw [if_pos hs, hs, heldIn_self]
    · rw [if_neg hs, heldIn_ne (Ne.symm hs)]
  noGhosts := by
    intro s id tx hget
    obtain ⟨t, ht, -, htx⟩ := place_eq_some.mp (h.subpoolGet_eq_some.mp hget)
    exact ⟨t, ht, htx⟩
  pendingSize := h.located.pending.size
  basefeeSize := h.located.baseFee.size
  queuedSize := h.located.queued.size
  blobSize := h.located.blob.size

/-- An inserted transaction is not below the on-chain nonce. `discard_worst` is left out: it may not
    return. -/
def Op.Asserted : Op → Prop
  | .addTransaction tx _ onChainNonce _ => onChainNonce ≤ tx.nonce
  | .discardWorst => False
  | _ => True

/-- No assertion, `expect` or unwrap of the pool fails in a sound pool. -/
theorem step_of_asserted {p : TxPool V} (h : Sound p) {op : Op} (hop : op.Asserted) :
    ∃ p', Step p op p' := by
  cases op with
  | addTransaction tx balance nonce onChainCodeHash =>
    rcases addTransaction_spec h tx balance nonce onChainCodeHash with
      ⟨r, q, heq, -⟩ | ⟨-, hlt⟩
    · exact ⟨q, 0, by rw [apply, heq]; rfl⟩
    · exact absurd hlt (Nat.not_lt.mpr hop)
  | onCanonicalStateChange info mined changed =>
    obtain ⟨o, q, heq, -⟩ := onCanonicalStateChange_spec h info mined changed
    exact ⟨q, 0, by rw [apply, heq]; rfl⟩
  | setBlockInfo info =>
    obtain ⟨q, heq, -⟩ := setBlockInfo_spec h info
    exact ⟨q, 0, heq⟩
  | updateAccounts changed =>
    obtain ⟨o, q, heq, -⟩ := updateAccounts_spec h changed
    exact ⟨q, 0, by rw [apply, heq]; rfl⟩
  | removeTransactions hashes =>
    obtain ⟨out, q, heq, -⟩ := removeTransactions_spec hashes h
    exact ⟨q, 0, by rw [apply, heq]; rfl⟩
  | removeTransactionsAndDescendants hashes =>
    obtain ⟨out, q, heq, -⟩ := removeTransactionsAndDescendants_spec hashes h
    exact ⟨q, 0, by rw [apply, heq]; rfl⟩
  | removeTransactionsBySender sender =>
    obtain ⟨out, q, heq, -⟩ := removeTransactionsBySender_spec h sender
    exact ⟨q, 0, by rw [apply, heq]; rfl⟩
  | discardWorst => exact hop.elim

/-- **THE POOL IS AN EXACT PARTITION** in every reachable state, and from there
    every asserted operation returns. -/
theorem reachable_exactPartition {p : TxPool V} (h : Reachable p) :
    ExactPartition p ∧ ∀ op : Op, op.Asserted → ∃ p', Step p op p' :=
  ⟨exactPartition_of_sound h.sound, fun _ hop => step_of_asserted h.sound hop⟩

theorem reachable_exactPartition_sample :
    ∃ p, run 9 sampleOps (samplePool .default) = some p ∧ p.allTransactions.txs.size = 3
      ∧ ExactPartition p := by
  have hsize : (run 9 sampleOps (samplePool .default)).map
      (fun p => p.allTransactions.txs.size) = some 3 := by decide +kernel
  obtain ⟨p, hp, hs⟩ := map_eq_some_iff.mp hsize
  exact ⟨p, hp, hs, (reachable_exactPartition (reachable_samplePool hp)).1⟩

/-! ## The derived indexes -/

/-- **THE DERIVED INDEXES ARE EXACT**: the counters, the authorities and the
    exclusion of blob transactions. -/
structure ExactIndexes (a : AllTransactions) : Prop where
  /-- The counter of a sender; without transactions there is no entry. -/
  txCounter : ∀ s : SenderId, a.txCounter[s]? =
    if (a.txsIter s).length = 0 then none else some (a.txsIter s).length
  /-- The hashes under an authority. -/
  auths : ∀ (s : SenderId) (hash : TxHash), (∃ hashes, a.auths[s]? = some hashes ∧
    hash ∈ hashes) ↔ ∃ (id : TransactionId) (t : PoolInternalTransaction),
      a.txs[id]? = some t ∧ t.transaction.hash = hash ∧ s ∈ t.transaction.authorityIds.getD []
  nonempty : ∀ s : SenderId, a.auths[s]? ≠ some ∅
  exclusive : ∀ (id id' : TransactionId) (t t' : PoolInternalTransaction), a.txs[id]? = some t →
    a.txs[id']? = some t' → id.sender = id'.sender →
      t.transaction.isEip4844 = t'.transaction.isEip4844

omit [LinearOrder V] in
theorem exactIndexes_of_indexed (h : Indexed a) : ExactIndexes a where
  txCounter := h.counter
  auths := by
    intro s hash
    have hget : (∃ hashes, a.auths[s]? = some hashes ∧ hash ∈ hashes) ↔
        hash ∈ a.auths[s]?.getD ∅ := by
      cases a.auths[s]? with
      | none | some hashes => simp
    rw [hget, h.auths]
    constructor
    · rintro ⟨id, tx, htx, hh, hs⟩
      obtain ⟨t, ht, rfl⟩ := tx_eq_some.mp htx
      exact ⟨id, t, ht, hh, hs⟩
    · rintro ⟨id, t, ht, hh, hs⟩
      exact ⟨id, t.transaction, tx_eq_some.mpr ⟨t, ht, rfl⟩, hh, hs⟩
  nonempty := h.nonempty
  exclusive := fun _ _ t t' ht ht' hs =>
    h.exclusive (tx_eq_some.mpr ⟨t, ht, rfl⟩) (tx_eq_some.mpr ⟨t', ht', rfl⟩) hs

/-- Every reachable pool has exact indexes. -/
theorem reachable_exactIndexes {p : TxPool V} (h : Reachable p) : ExactIndexes p.allTransactions :=
  exactIndexes_of_indexed h.sound.indexed

theorem reachable_exactIndexes_sample :
    ∃ p, run 9 sampleOps (samplePool .default) = some p ∧ p.allTransactions.txCounter[(1 : SenderId)]? = some 2
      ∧ ExactIndexes p.allTransactions := by
  have hcount : (run 9 sampleOps (samplePool .default)).map
      (fun p => p.allTransactions.txCounter[(1 : SenderId)]?) = some (some 2) := by decide +kernel
  obtain ⟨p, hp, hs⟩ := map_eq_some_iff.mp hcount
  exact ⟨p, hp, hs, reachable_exactIndexes (reachable_samplePool hp)⟩

end TxPool

/-! ## Replacements -/

namespace ValidPoolTransaction

open TxPool

/-- The tip, zero where there is none. -/
def tip (tx : ValidPoolTransaction) : Nat := tx.transaction.maxPriorityFeePerGas.getD 0

/-- A replacement pays the bump in unbounded arithmetic, and more than before. -/
structure Outbids (bump : Nat) (existing tx : ValidPoolTransaction) : Prop where
  fee : existing.maxFeePerGas * (100 + bump) / 100 ≤ tx.maxFeePerGas ∧
    existing.maxFeePerGas < tx.maxFeePerGas
  blob : ∀ f, existing.maxFeePerBlobGas = some f →
    f * (100 + bump) / 100 ≤ tx.maxFeePerBlobGas.getD 0 ∧ f < tx.maxFeePerBlobGas.getD 0
  tip : existing.tip ≠ 0 → existing.tip * (100 + bump) / 100 ≤ tx.tip

/-- The bump on a fee is neither rounded away nor wrapped. -/
def Bumpable (bump fee : Nat) : Prop := 100 ≤ fee * bump ∧ fee * (100 + bump) < 2 ^ 128

/-- The fees of a transaction for which `is_underpriced` is exact. -/
structure Priced (bump : Nat) (tx : ValidPoolTransaction) : Prop where
  fee : Bumpable bump tx.maxFeePerGas
  blob : ∀ f, tx.maxFeePerBlobGas = some f → Bumpable bump f
  tip : tx.tip * (100 + bump) < 2 ^ 128

variable {bump fee : Nat} {existing tx : ValidPoolTransaction} {bumps : PriceBumpConfig}

theorem bumped_of_lt (h : fee * (100 + bump) < 2 ^ 128) :
    bumped fee bump = fee * (100 + bump) / 100 := by
  rw [bumped, mod_eq_of_lt h]

/-- A product that wraps loses more than the division does. -/
theorem bumped_of_le (h : 2 ^ 128 ≤ fee * (100 + bump)) :
    bumped fee bump + 1 < fee * (100 + bump) / 100 := by
  rw [bumped, mod_eq_sub_mod h]
  omega

theorem bumpable_iff : Bumpable bump fee ↔
    fee * (100 + bump) / 100 ≤ bumped fee bump ∧ fee < bumped fee bump := by
  rcases lt_or_ge (fee * (100 + bump)) (2 ^ 128) with h | h
  · rw [Bumpable, bumped_of_lt h, and_iff_left h, mul_add]
    omega
  · have := bumped_of_le h
    rw [Bumpable]
    omega

theorem isUnderpriced_eq_false : existing.isUnderpriced tx bumps = false ↔
    bumped existing.maxFeePerGas (bumps.priceBump existing.txType) ≤ tx.maxFeePerGas ∧
    (existing.tip ≠ 0 → tx.tip ≠ 0 →
      bumped existing.tip (bumps.priceBump existing.txType) ≤ tx.tip) ∧
    ∀ f, existing.maxFeePerBlobGas = some f →
      bumped f (bumps.priceBump existing.txType) ≤ tx.maxFeePerBlobGas.getD 0 := by
  unfold isUnderpriced
  cases existing.maxFeePerBlobGas <;> grind [tip]

/-- The same transaction at other fees. -/
def withFees (tx : ValidPoolTransaction) (maxFee tip blobFee : Nat) : ValidPoolTransaction :=
  { tx with
    transaction := { tx.transaction with
      maxFeePerGas := maxFee
      maxPriorityFeePerGas := some tip
      maxFeePerBlobGas := tx.transaction.maxFeePerBlobGas.map (fun _ => blobFee)
      blobFee_isSome := Option.isSome_map.trans tx.transaction.blobFee_isSome } }

/-- A replacement that pays the bump as `is_underpriced` computes it. -/
theorem withFees_accepted :
    existing.isUnderpriced
      (existing.withFees (bumped existing.maxFeePerGas (bumps.priceBump existing.txType))
        (bumped existing.tip (bumps.priceBump existing.txType) + 1)
        (bumped (existing.maxFeePerBlobGas.getD 0) (bumps.priceBump existing.txType))) bumps
      = false := by
  refine isUnderpriced_eq_false.mpr ⟨Nat.le_refl _, fun _ _ => Nat.le_succ _, fun f hf => ?_⟩
  show _ ≤ (existing.maxFeePerBlobGas.map _).getD 0
  rw [hf]
  exact Nat.le_refl _

/-- **THE BUMP IS PAID** by every replacement with a tip where the replaced one has a tip, exactly
    if the fees replaced are neither so low that the bump rounds away nor so high that it wraps;
    then fees of successive replacements exceed every bound. `insert_tx` makes such replacements. -/
theorem outbids_iff_priced (bumps : PriceBumpConfig) :
    (∀ existing : ValidPoolTransaction,
      (∀ tx : ValidPoolTransaction, existing.isUnderpriced tx bumps = false →
        tx.id = existing.id → (existing.tip ≠ 0 → tx.tip ≠ 0) →
          Outbids (bumps.priceBump existing.txType) existing tx) ↔
        Priced (bumps.priceBump existing.txType) existing) ∧
    (∀ txs : Nat → ValidPoolTransaction,
      (∀ i, Priced (bumps.priceBump (txs i).txType) (txs i) ∧
        (txs i).isUnderpriced (txs (i + 1)) bumps = false) → ∀ n, n ≤ (txs n).maxFeePerGas) ∧
    ∀ (a : AllTransactions) (tx : ValidPoolTransaction) (onChainBalance : U256)
      (onChainNonce : Nat) (existing : PoolInternalTransaction) (r : InsertOk × AllTransactions),
      a.txs[tx.id]? = some existing → a.insertTx tx onChainBalance onChainNonce = some (.ok r) →
        existing.transaction.isUnderpriced tx a.priceBumps = false := by
  refine ⟨fun existing => ⟨fun h => ?_, fun h tx hpriced _ htip => ?_⟩, fun txs htxs n => ?_, ?_⟩
  · obtain ⟨hfee, hblob, htip⟩ := h _ withFees_accepted rfl (fun _ => succ_ne_zero _)
    refine ⟨bumpable_iff.mpr hfee, fun f hf => bumpable_iff.mpr ?_, ?_⟩
    · have hcap := hblob f hf
      change _ ≤ (existing.maxFeePerBlobGas.map _).getD 0 ∧
        _ < (existing.maxFeePerBlobGas.map _).getD 0 at hcap
      rwa [hf] at hcap
    · by_contra hwrap
      rw [Nat.not_lt] at hwrap
      have hle := htip fun h0 => by rw [h0] at hwrap; omega
      exact absurd hle (Nat.not_le.mpr (bumped_of_le hwrap))
  · obtain ⟨hfee, htip', hblob⟩ := isUnderpriced_eq_false.mp hpriced
    obtain ⟨hle, hlt⟩ := bumpable_iff.mp h.fee
    refine ⟨⟨hle.trans hfee, hlt.trans_le hfee⟩, fun f hf => ?_, fun h0 => ?_⟩
    · obtain ⟨hle, hlt⟩ := bumpable_iff.mp (h.blob f hf)
      exact ⟨hle.trans (hblob f hf), hlt.trans_le (hblob f hf)⟩
    · rw [← bumped_of_lt h.tip]
      exact htip' h0 (htip h0)
  · induction n with
    | zero => exact zero_le _
    | succ n ih =>
      obtain ⟨hp, hr⟩ := htxs n
      exact ih.trans_lt ((bumpable_iff.mp hp.fee).2.trans_le (isUnderpriced_eq_false.mp hr).1)
  · intro a tx onChainBalance onChainNonce existing r hex hok
    unfold insertTx at hok
    split at hok
    · nomatch hok
    · split at hok
      · nomatch hok
      · simp only [hex] at hok
        split at hok
        · nomatch hok
        · exact Bool.eq_false_of_not_eq_true ‹_›

/-- A transaction is replaced by another one at the same fee: 9 and 10 % is 9. -/
theorem replaced_at_same_fee :
    ∃ p : TxPool Nat, run 9
      [.addTransaction (sampleTx 1 1 0 5 9 none) 1000#256 0 none,
       .addTransaction (sampleTx 2 1 0 5 9 none) 1000#256 0 none] (samplePool .default) = some p ∧
      p.allTransactions.tx ⟨1, 0⟩ = some (sampleTx 2 1 0 5 9 none) :=
  (map_eq_some_iff (f := fun p : TxPool Nat => p.allTransactions.tx ⟨1, 0⟩)).mp
    (by decide +kernel)

end ValidPoolTransaction

end TransactionPool

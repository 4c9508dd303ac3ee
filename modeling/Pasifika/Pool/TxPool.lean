import Pasifika.Pool.Pending
import Pasifika.Pool.Parked
import Pasifika.Pool.Blob
import Pasifika.Pool.AllTransactions

/-! # The transaction pool

`TxPool` of `pool/txpool.rs`: the set of all transactions and the four
sub-pools, with the operations that keep them in step.

Every function that can panic, directly or in a sub-pool, returns an
`Option`. The loops of `discard_worst` take fuel; metrics and traces are
left out. -/

namespace TransactionPool

open Std OrderedMap

structure TxPool (V : Type) where
  senderInfo : ExtTreeMap SenderId SenderInfo
  pendingPool : PendingPool V
  config : PoolConfig
  queuedPool : ParkedPool
  basefeePool : ParkedPool
  blobPool : BlobTransactions
  allTransactions : AllTransactions

/-- The rejections of `add_transaction`. -/
inductive PoolErrorKind
  | alreadyImported
  | replacementUnderpriced
  | feeCapBelowMinimumProtocolFeeCap (feeCap : Nat)
  | spammerExceededCapacity (sender : Address)
  | exceedsGasLimit (txGasLimit blockGasLimit : Nat)
  | eip4844NonceGap
  | overdraft (cost balance : U256)
  | existingConflictingTransactionType (sender : Address) (txType : Nat)
  | outOfOrderTxFromDelegated
  | inflightTxLimitReached
  | authorityReserved
deriving DecidableEq

/-- `PoolError`: the rejected transaction and why. -/
structure PoolError where
  hash : TxHash
  kind : PoolErrorKind
deriving DecidableEq

inductive AddedTransaction
  | pending (transaction : ValidPoolTransaction) (replaced : Option ValidPoolTransaction)
      (promoted discarded : List ValidPoolTransaction)
  | parked (transaction : ValidPoolTransaction) (replaced : Option ValidPoolTransaction)
      (subpool : SubPool) (queuedReason : Option QueuedReason)
deriving DecidableEq

structure OnNewCanonicalStateOutcome where
  blockHash : Nat
  mined : List TxHash
  promoted : List ValidPoolTransaction
  discarded : List ValidPoolTransaction
deriving DecidableEq

namespace TxPool

variable {V : Type}

def new (ordering : TransactionOrdering V) (blobTxPriority : BlobTxPriority)
    (config : PoolConfig) : TxPool V where
  senderInfo := ∅
  pendingPool := .withBuffer ordering config.maxNewPendingTxsNotifications
  config := config
  queuedPool := .default
  basefeePool := .default
  blobPool := .default blobTxPriority
  allTransactions := .new config

/-! ## Moving single transactions -/

def removeFromSubpool (p : TxPool V) (pool : SubPool) (tx : TransactionId) :
    Option (Option ValidPoolTransaction × TxPool V) :=
  match pool with
  | .queued => do
      let r ← p.queuedPool.removeTransaction tx
      some (r.1, { p with queuedPool := r.2 })
  | .pending =>
    let r := p.pendingPool.removeTransaction tx
    some (r.1, { p with pendingPool := r.2 })
  | .baseFee => do
      let r ← p.basefeePool.removeTransaction tx
      some (r.1, { p with basefeePool := r.2 })
  | .blob =>
    let r := p.blobPool.removeTransaction tx
    some (r.1, { p with blobPool := r.2 })

def addTransactionToSubpool (p : TxPool V) (pool : SubPool) (tx : ValidPoolTransaction) :
    Option (TxPool V) :=
  match pool with
  | .queued => some { p with queuedPool := p.queuedPool.addTransaction tx }
  | .pending =>
    some { p with
      pendingPool := p.pendingPool.addTransaction tx p.allTransactions.pendingFees.baseFee }
  | .baseFee => some { p with basefeePool := p.basefeePool.addTransaction tx }
  | .blob => do
      let blobPool ← p.blobPool.addTransaction tx
      some { p with blobPool }

def moveTransaction (p : TxPool V) (source target : SubPool) (id : TransactionId) :
    Option (Option ValidPoolTransaction × TxPool V) := do
  let r ← p.removeFromSubpool source id
  match r.1 with
  | none => some (none, r.2)
  | some tx =>
    let p ← r.2.addTransactionToSubpool target tx
    some (some tx, p)

def removeTransaction (p : TxPool V) (id : TransactionId) :
    Option (Option ValidPoolTransaction × TxPool V) :=
  let r := p.allTransactions.removeTransaction id
  let p := { p with allTransactions := r.2 }
  match r.1 with
  | none => some (none, p)
  | some (tx, pool) => p.removeFromSubpool pool tx.id

def pruneTransactionByHash (p : TxPool V) (txHash : TxHash) :
    Option (Option ValidPoolTransaction × TxPool V) :=
  let r := p.allTransactions.removeTransactionByHash txHash
  let p := { p with allTransactions := r.2 }
  match r.1 with
  | none => some (none, p)
  | some (tx, pool) => p.removeFromSubpool pool tx.id

def pruneTransactionById (p : TxPool V) (txId : TransactionId) :
    Option (Option ValidPoolTransaction × TxPool V) :=
  let r := p.allTransactions.removeTransactionById txId
  let p := { p with allTransactions := r.2 }
  match r.1 with
  | none => some (none, p)
  | some (tx, pool) => p.removeFromSubpool pool tx.id

def processUpdates : List PoolUpdate → TxPool V → Option (UpdateOutcome × TxPool V)
  | [], p => some (⟨[], []⟩, p)
  | ⟨id, current, destination⟩ :: updates, p =>
    match destination with
    | .discard => do
        let r ← p.pruneTransactionById id
        let rs ← processUpdates updates r.2
        some (⟨rs.1.promoted, r.1.toList ++ rs.1.discarded⟩, rs.2)
    | .pool moveTo => do
        let r ← p.moveTransaction current moveTo id
        let rs ← processUpdates updates r.2
        some (⟨(if moveTo = .pending then r.1.toList else []) ++ rs.1.promoted,
          rs.1.discarded⟩, rs.2)

/-- `remove_transaction_by_hash`: the descendants are parked. -/
def removeTransactionByHash (p : TxPool V) (txHash : TxHash) :
    Option (Option ValidPoolTransaction × TxPool V) :=
  let r := p.allTransactions.removeTransactionByHash txHash
  match r.1 with
  | none => some (none, { p with allTransactions := r.2 })
  | some (tx, pool) => do
      let parked := r.2.parkDescendantTransactions tx.id
      let o ← processUpdates parked.1 { p with allTransactions := parked.2 }
      o.2.removeFromSubpool pool tx.id

/-! ## Fee updates -/

/-- Rewrite the state of a transaction that is expected to exist, and route it. -/
def setState (p : TxPool V) (id : TransactionId) (f : TxState → TxState) :
    Option (SubPool × TxPool V) :=
  match p.allTransactions.txs[id]? with
  | none => none
  | some tx =>
    let state := f tx.state
    some (state.subPool,
      { p with
        allTransactions := { p.allTransactions with
          txs := p.allTransactions.txs.insert id { tx with state, subpool := state.subPool } } })

/-- The loop over what a sub-pool gave up: set the flags and add each where it belongs. The promoted
    ones are returned. -/
def rerouteRemoved (f : TxState → TxState) :
    List ValidPoolTransaction → TxPool V → Option (List ValidPoolTransaction × TxPool V)
  | [], p => some ([], p)
  | tx :: removed, p => do
      let r ← p.setState tx.id f
      let p ← r.2.addTransactionToSubpool r.1 tx
      let rs ← rerouteRemoved f removed p
      some ((if r.1 = .pending then [tx] else []) ++ rs.1, rs.2)

/-- `TxPool::update_blob_fee`, with the promoted transactions. -/
def updateBlobFee (p : TxPool V) (pendingBlobFee : Nat) (baseFeeUpdate : Ordering) :
    Option (List ValidPoolTransaction × TxPool V) :=
  let previous := p.allTransactions.pendingFees.blobFee
  let p := { p with
    allTransactions := { p.allTransactions with
      pendingFees := { p.allTransactions.pendingFees with blobFee := pendingBlobFee } } }
  match compare pendingBlobFee previous, baseFeeUpdate with
  | .eq, .eq | .eq, .gt => some ([], p)
  | .gt, .eq | .gt, .gt => do
      let r := p.pendingPool.updateBlobFee pendingBlobFee
      let rs ← rerouteRemoved (fun s => { s with enoughBlobFeeCapBlock := false }) r.1
        { p with pendingPool := r.2 }
      some ([], rs.2)
  | .lt, _ | _, .lt => do
      let r ← p.blobPool.enforcePendingFees p.allTransactions.pendingFees
      rerouteRemoved
        (fun s => { s with enoughBlobFeeCapBlock := true, enoughFeeCapBlock := true }) r.1
        { p with blobPool := r.2 }

/-- The handler of `update_basefee` for what `enforce_basefee_with` takes out; one that is routed
    back is dropped. -/
def promoteBasefee (currentBaseFee : Nat) :
    List TransactionId → TxPool V → Option (List ValidPoolTransaction × TxPool V)
  | [], p => some ([], p)
  | id :: ids, p => do
      let r ← p.basefeePool.removeTransaction id
      let p := { p with basefeePool := r.2 }
      match r.1 with
      | none => promoteBasefee currentBaseFee ids p
      | some tx =>
        let m ← p.setState tx.id (fun s => { s with enoughFeeCapBlock := true })
        let p ←
          match m.1 with
          | .queued => some { m.2 with queuedPool := m.2.queuedPool.addTransaction tx }
          | .pending =>
            some { m.2 with pendingPool := m.2.pendingPool.addTransaction tx currentBaseFee }
          | .blob => do
              let blobPool ← m.2.blobPool.addTransaction tx
              some { m.2 with blobPool }
          | .baseFee => some m.2
        let rs ← promoteBasefee currentBaseFee ids p
        some ((if m.1 = .pending then [tx] else []) ++ rs.1, rs.2)

/-- `TxPool::update_basefee`, with the promoted transactions and the direction of the change. -/
def updateBasefee (p : TxPool V) (pendingBasefee : Nat) :
    Option (List ValidPoolTransaction × Ordering × TxPool V) :=
  let previous := p.allTransactions.pendingFees.baseFee
  let p := { p with
    allTransactions := { p.allTransactions with
      pendingFees := { p.allTransactions.pendingFees with baseFee := pendingBasefee } } }
  match compare pendingBasefee previous with
  | .eq => some ([], .eq, p)
  | .gt => do
      let r := p.pendingPool.updateBaseFee pendingBasefee
      let rs ← rerouteRemoved (fun s => { s with enoughFeeCapBlock := false }) r.1
        { p with pendingPool := r.2 }
      some ([], .gt, rs.2)
  | .lt => do
      let rs ← promoteBasefee pendingBasefee (p.basefeePool.satisfyBaseFeeIds pendingBasefee) p
      some (rs.1, .lt, rs.2)

def setBlockInfo (p : TxPool V) (info : BlockInfo) : Option (TxPool V) := do
  let r ← p.updateBasefee info.pendingBasefee
  let p ←
    match info.pendingBlobFee with
    | some blobFee => do
        let rs ← r.2.2.updateBlobFee blobFee r.2.1
        some rs.2
    | none => some r.2.2
  some { p with allTransactions := p.allTransactions.setBlockInfo info }

/-- `update_pending_fees_only`: the previous fees are returned. -/
def updatePendingFeesOnly (p : TxPool V) (newBaseFee : Nat) (newBlobFee : Option Nat) :
    (Nat × Nat) × TxPool V :=
  let fees := p.allTransactions.pendingFees
  ((fees.baseFee, fees.blobFee),
    { p with
      allTransactions := { p.allTransactions with
        pendingFees := ⟨newBaseFee, newBlobFee.getD fees.blobFee⟩ } })

/-- `apply_fee_updates`, with the transactions it promotes. -/
def applyFeeUpdates (p : TxPool V) (prevBaseFee prevBlobFee : Nat) :
    Option (List ValidPoolTransaction × TxPool V) :=
  let fees := p.allTransactions.pendingFees
  if fees.baseFee = prevBaseFee ∧ fees.blobFee = prevBlobFee then some ([], p)
  else do
    let p := { p with
      allTransactions := { p.allTransactions with pendingFees := ⟨prevBaseFee, prevBlobFee⟩ } }
    let r ← p.updateBasefee fees.baseFee
    let rs ← r.2.2.updateBlobFee fees.blobFee r.2.1
    some (r.1 ++ rs.1, rs.2)

/-! ## Account updates -/

/-- `FxHashMap::extend`. -/
def extend (m changes : ExtTreeMap SenderId SenderInfo) : ExtTreeMap SenderId SenderInfo :=
  changes.toList.foldl (fun m e => m.insert e.1 e.2) m

def updateAccounts (p : TxPool V) (changedSenders : ExtTreeMap SenderId SenderInfo) :
    Option (UpdateOutcome × TxPool V) :=
  let u := p.allTransactions.update changedSenders
  processUpdates u.1
    { p with allTransactions := u.2, senderInfo := extend p.senderInfo changedSenders }

/-- The mined transactions leave the pool. -/
def pruneMined : List TxHash → TxPool V → Option (TxPool V)
  | [], p => some p
  | txHash :: hashes, p => do
      let r ← p.pruneTransactionByHash txHash
      pruneMined hashes r.2

def onCanonicalStateChange (p : TxPool V) (blockInfo : BlockInfo) (minedTransactions : List TxHash)
    (changedSenders : ExtTreeMap SenderId SenderInfo) :
    Option (OnNewCanonicalStateOutcome × TxPool V) := do
  let p ← pruneMined minedTransactions p
  let prev := p.updatePendingFeesOnly blockInfo.pendingBasefee blockInfo.pendingBlobFee
  let o ← prev.2.updateAccounts changedSenders
  let r ← o.2.applyFeeUpdates prev.1.1 prev.1.2
  some
    (⟨blockInfo.lastSeenBlockHash, minedTransactions, o.1.promoted ++ r.1, o.1.discarded⟩,
      { r.2 with allTransactions := r.2.allTransactions.setBlockInfo blockInfo })

/-! ## Insertion -/

/-- `KECCAK_EMPTY`. -/
def keccakEmpty : Nat := 0xc5d2460186f7233c927e7db2dcc703c0e500b653ca82273b7bfad8045d85a470

def checkDelegationLimit (p : TxPool V) (transaction : ValidPoolTransaction) (onChainNonce : Nat)
    (onChainCodeHash : Option Nat) : Except PoolError Unit :=
  if (onChainCodeHash.isNone || onChainCodeHash == some keccakEmpty) &&
      !p.allTransactions.auths.contains transaction.senderId then .ok ()
  else
    let txsBySender := p.pendingPool.iterTxsBySender transaction.senderId
    if txsBySender = [] then
      if p.config.maxInflightDelegatedSlotLimit ≤ transaction.nonce - onChainNonce then
        .error ⟨transaction.hash, .outOfOrderTxFromDelegated⟩
      else .ok ()
    else if txsBySender.contains transaction.transactionId then .ok ()
    else if txsBySender.length < p.config.maxInflightDelegatedSlotLimit then .ok ()
    else .error ⟨transaction.hash, .inflightTxLimitReached⟩

/-- `validate_auth`: an authority has at most one transaction in flight. -/
def validateAuth (p : TxPool V) (transaction : ValidPoolTransaction) (onChainNonce : Nat)
    (onChainCodeHash : Option Nat) : Except PoolError Unit := do
  p.checkDelegationLimit transaction onChainNonce onChainCodeHash
  if (transaction.authorityIds.getD []).any
      (fun senderId => decide (1 < (p.allTransactions.txsIter senderId).length)) then
    .error ⟨transaction.hash, .authorityReserved⟩

/-- How `add_transaction` reports a rejection of `insert_tx`. -/
def insertError (onChainBalance : U256) : InsertErr → PoolError
  | .underpriced tx _ => ⟨tx.hash, .replacementUnderpriced⟩
  | .feeCapBelowMinimumProtocolFeeCap tx feeCap =>
    ⟨tx.hash, .feeCapBelowMinimumProtocolFeeCap feeCap⟩
  | .exceededSenderTransactionsCapacity tx => ⟨tx.hash, .spammerExceededCapacity tx.sender⟩
  | .txGasLimitMoreThanAvailableBlockGas tx blockGasLimit txGasLimit =>
    ⟨tx.hash, .exceedsGasLimit txGasLimit blockGasLimit⟩
  | .blobTxHasNonceGap tx => ⟨tx.hash, .eip4844NonceGap⟩
  | .overdraft tx => ⟨tx.hash, .overdraft tx.cost onChainBalance⟩
  | .txTypeConflict tx => ⟨tx.hash, .existingConflictingTransactionType tx.sender tx.txType⟩

def addNewTransaction (p : TxPool V) (transaction : ValidPoolTransaction)
    (replaced : Option (ValidPoolTransaction × SubPool)) (pool : SubPool) : Option (TxPool V) := do
  let p ←
    match replaced with
    | some (replaced, replacedPool) => do
        let r ← p.removeFromSubpool replacedPool replaced.id
        some r.2
    | none => some p
  p.addTransactionToSubpool pool transaction

/-- The sub-pool half of `add_transaction`, after a successful `insert_tx`. -/
def finishAdd (p : TxPool V) (ok : InsertOk) : Option (AddedTransaction × TxPool V) := do
  let p ← p.addNewTransaction ok.transaction ok.replacedTx ok.moveTo
  let o ← processUpdates ok.updates p
  let replaced := ok.replacedTx.map Prod.fst
  let res :=
    if ok.moveTo = .pending then
      AddedTransaction.pending ok.transaction replaced o.1.promoted o.1.discarded
    else
      .parked ok.transaction replaced ok.moveTo (ok.state.determineQueuedReason ok.moveTo)
  some (res, o.2)

def addTransaction (p : TxPool V) (tx : ValidPoolTransaction) (onChainBalance : U256)
    (onChainNonce : Nat) (onChainCodeHash : Option Nat) :
    Option (Except PoolError AddedTransaction × TxPool V) :=
  if p.allTransactions.contains tx.hash then some (.error ⟨tx.hash, .alreadyImported⟩, p)
  else
    match p.validateAuth tx onChainNonce onChainCodeHash with
    | .error e => some (.error e, p)
    | .ok () => do
        let p := { p with
          senderInfo := p.senderInfo.insert tx.senderId ⟨onChainNonce, onChainBalance⟩ }
        match ← p.allTransactions.insertTx tx onChainBalance onChainNonce with
        | .error err => some (.error (insertError onChainBalance err), p)
        | .ok (ok, allTransactions) => do
            let r ← { p with allTransactions }.finishAdd ok
            some (.ok r.1, r.2)

/-! ## Removals -/

def removeTransactions : List TxHash → TxPool V → Option (List ValidPoolTransaction × TxPool V)
  | [], p => some ([], p)
  | hash :: hashes, p => do
      let r ← p.removeTransactionByHash hash
      let rs ← removeTransactions hashes r.2
      some (r.1.toList ++ rs.1, rs.2)

/-- The loop of `remove_descendants`, which pops one descendant a round. -/
def removeDescendantsLoop : Nat → TransactionId → TxPool V →
    Option (List ValidPoolTransaction × TxPool V)
  | 0, _, _ => none
  | fuel + 1, id, p =>
    match p.allTransactions.descendantTxsExclusive id with
    | [] => some ([], p)
    | (descendant, _) :: _ => do
        let r ← p.removeTransaction descendant
        let rs ← removeDescendantsLoop fuel descendant r.2
        some (r.1.toList ++ rs.1, rs.2)

/-- `remove_descendants`: as many rounds as there are transactions are enough. -/
def removeDescendants (p : TxPool V) (tx : TransactionId) :
    Option (List ValidPoolTransaction × TxPool V) :=
  removeDescendantsLoop (p.allTransactions.txs.size + 1) tx p

def removeTransactionsAndDescendants :
    List TxHash → TxPool V → Option (List ValidPoolTransaction × TxPool V)
  | [], p => some ([], p)
  | hash :: hashes, p => do
      let r ← p.removeTransactionByHash hash
      match r.1 with
      | none => removeTransactionsAndDescendants hashes r.2
      | some tx =>
        let d ← r.2.removeDescendants tx.id
        let rs ← removeTransactionsAndDescendants hashes d.2
        some (tx :: d.1 ++ rs.1, rs.2)

/-- Remove the listed transactions from the entire pool. -/
def removeEach : List TransactionId → TxPool V → Option (List ValidPoolTransaction × TxPool V)
  | [], p => some ([], p)
  | id :: ids, p => do
      let r ← p.removeTransaction id
      let rs ← removeEach ids r.2
      some (r.1.toList ++ rs.1, rs.2)

def removeTransactionsBySender (p : TxPool V) (senderId : SenderId) :
    Option (List ValidPoolTransaction × TxPool V) :=
  removeEach ((p.allTransactions.txsIter senderId).map (fun e => e.2.transaction.id)) p

/-! ## Eviction -/

/-- The transactions a sub-pool evicted leave the total set, each with all of its descendants. -/
def discardRemoved :
    List ValidPoolTransaction → TxPool V → Option (List ValidPoolTransaction × TxPool V)
  | [], p => some ([], p)
  | tx :: removed, p => do
      let p := { p with allTransactions := (p.allTransactions.removeTransaction tx.id).2 }
      let r ← p.removeDescendants tx.id
      let rs ← discardRemoved removed r.2
      some (tx :: r.1 ++ rs.1, rs.2)

/-- One `while` loop of `discard_worst`, for the sub-pool that `exceeds` and `truncate` look at. -/
def discardWorstFrom (exceeds : TxPool V → Bool)
    (truncate : TxPool V → Option (List ValidPoolTransaction × TxPool V)) :
    Nat → TxPool V → Option (List ValidPoolTransaction × TxPool V)
  | 0, _ => none
  | fuel + 1, p =>
    if exceeds p then do
      let t ← truncate p
      let d ← discardRemoved t.1 t.2
      let rest ← discardWorstFrom exceeds truncate fuel d.2
      some (d.1 ++ rest.1, rest.2)
    else some ([], p)

/-- Whether a sub-pool is over its limit. -/
def exceeds (p : TxPool V) : SubPool → Bool
  | .pending => p.pendingPool.exceeds p.config.pendingLimit
  | .baseFee => p.basefeePool.exceeds p.config.basefeeLimit
  | .blob => p.blobPool.exceeds p.config.blobLimit
  | .queued => p.queuedPool.exceeds p.config.queuedLimit

variable [LinearOrder V]

/-- Truncate a sub-pool to its limit. -/
def truncate (fuel : Nat) (p : TxPool V) :
    SubPool → Option (List ValidPoolTransaction × TxPool V)
  | .pending => do
      let r ← p.pendingPool.truncatePool fuel p.config.pendingLimit
      some (r.1, { p with pendingPool := r.2 })
  | .baseFee => do
      let r ← p.basefeePool.truncatePool fuel p.config.basefeeLimit
      some (r.1, { p with basefeePool := r.2 })
  | .blob => do
      let r ← p.blobPool.truncatePool fuel p.config.blobLimit
      some (r.1, { p with blobPool := r.2 })
  | .queued => do
      let r ← p.queuedPool.truncatePool fuel p.config.queuedLimit
      some (r.1, { p with queuedPool := r.2 })

/-- Discard from the listed sub-pools, one after the other. -/
def discardWorstOf (fuel : Nat) :
    List SubPool → TxPool V → Option (List ValidPoolTransaction × TxPool V)
  | [], p => some ([], p)
  | pool :: pools, p => do
      let r ← discardWorstFrom (fun p => p.exceeds pool) (fun p => p.truncate fuel pool) fuel p
      let rs ← discardWorstOf fuel pools r.2
      some (r.1 ++ rs.1, rs.2)

def discardWorst (fuel : Nat) (p : TxPool V) : Option (List ValidPoolTransaction × TxPool V) :=
  discardWorstOf fuel [.pending, .baseFee, .blob, .queued] p

end TxPool

end TransactionPool

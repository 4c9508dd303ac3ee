import Pasifika.Pool.State

/-! # The set of all transactions

`AllTransactions` of `pool/txpool.rs`: every transaction of the pool by
hash and by id, with its state flags, the number of transactions of each
sender and the pending authorizations. Its functions decide where each
transaction belongs; they change the metadata and return the `PoolUpdate`s
that the sub-pools still have to carry out.

The `iter_mut()` loops are `sweep`s: the local variables of a loop are its
cursor, and a `break` or a skipped sender is a cursor that visits without
writing. -/

namespace TransactionPool

open Std OrderedMap

structure AllTransactions where
  minimalProtocolBasefee : Nat
  blockGasLimit : Nat
  maxAccountSlots : Nat
  byHash : ExtTreeMap TxHash ValidPoolTransaction
  txs : ExtTreeMap TransactionId PoolInternalTransaction
  txCounter : ExtTreeMap SenderId Nat
  lastSeenBlockNumber : Nat
  lastSeenBlockHash : Nat
  pendingFees : PendingFees
  priceBumps : PriceBumpConfig
  localTransactionsConfig : LocalTransactionConfig
  auths : ExtTreeMap SenderId (Finset TxHash)

/-- Why `insert_tx` rejects a transaction. -/
inductive InsertErr
  | underpriced (transaction : ValidPoolTransaction) (existing : TxHash)
  | blobTxHasNonceGap (transaction : ValidPoolTransaction)
  | overdraft (transaction : ValidPoolTransaction)
  | feeCapBelowMinimumProtocolFeeCap (transaction : ValidPoolTransaction) (feeCap : Nat)
  | exceededSenderTransactionsCapacity (transaction : ValidPoolTransaction)
  | txGasLimitMoreThanAvailableBlockGas (transaction : ValidPoolTransaction)
      (blockGasLimit txGasLimit : Nat)
  | txTypeConflict (transaction : ValidPoolTransaction)
deriving DecidableEq

/-- What a successful `insert_tx` returns. -/
structure InsertOk where
  transaction : ValidPoolTransaction
  moveTo : SubPool
  state : TxState
  replacedTx : Option (ValidPoolTransaction × SubPool)
  updates : List PoolUpdate
deriving DecidableEq

namespace AllTransactions

def new (config : PoolConfig) : AllTransactions where
  minimalProtocolBasefee := config.minimalProtocolBasefee
  blockGasLimit := config.gasLimit
  maxAccountSlots := config.maxAccountSlots
  byHash := ∅
  txs := ∅
  txCounter := ∅
  lastSeenBlockNumber := 0
  lastSeenBlockHash := 0
  pendingFees := .default
  priceBumps := config.priceBumps
  localTransactionsConfig := config.localTransactionsConfig
  auths := ∅

def contains (a : AllTransactions) (txHash : TxHash) : Bool := a.byHash.contains txHash

def txInc (a : AllTransactions) (sender : SenderId) : AllTransactions :=
  { a with txCounter := a.txCounter.insert sender (a.txCounter[sender]?.getD 0 + 1) }

def txDecr (a : AllTransactions) (sender : SenderId) : AllTransactions :=
  match a.txCounter[sender]? with
  | some count =>
    if count = 1 then { a with txCounter := a.txCounter.erase sender }
    else { a with txCounter := a.txCounter.insert sender (count - 1) }
  | none => a

def setBlockInfo (a : AllTransactions) (info : BlockInfo) : AllTransactions :=
  { a with
    lastSeenBlockNumber := info.lastSeenBlockNumber
    lastSeenBlockHash := info.lastSeenBlockHash
    pendingFees := ⟨info.pendingBasefee, info.pendingBlobFee.getD a.pendingFees.blobFee⟩
    blockGasLimit := info.blockGasLimit }

/-! ## Listings -/

/-- `txs_iter`: the transactions of a sender, which are contiguous in `txs`. -/
def txsIter (a : AllTransactions) (sender : SenderId) :
    List (TransactionId × PoolInternalTransaction) :=
  a.txs.toList.filter (fun e => e.1.sender == sender)

/-- `descendant_txs_inclusive` and `descendant_txs_mut`: the transactions of a
    sender from the given nonce on. -/
def descendantTxsInclusive (txs : ExtTreeMap TransactionId PoolInternalTransaction)
    (id : TransactionId) : List (TransactionId × PoolInternalTransaction) :=
  txs.toList.filter (fun e => e.1.sender == id.sender && decide (id.nonce ≤ e.1.nonce))

def descendantTxsExclusive (a : AllTransactions) (id : TransactionId) :
    List (TransactionId × PoolInternalTransaction) :=
  a.txs.toList.filter (fun e => e.1.sender == id.sender && decide (id.nonce < e.1.nonce))

/-! ## Removals -/

/-- One step of `remove_auths`. -/
def removeAuth (txHash : TxHash) (auths : ExtTreeMap SenderId (Finset TxHash)) (auth : SenderId) :
    ExtTreeMap SenderId (Finset TxHash) :=
  match auths[auth]? with
  | some list =>
    if list.erase txHash = ∅ then auths.erase auth else auths.insert auth (list.erase txHash)
  | none => auths

def removeAuths (a : AllTransactions) (tx : PoolInternalTransaction) : AllTransactions :=
  match tx.transaction.authorityIds with
  | none => a
  | some auths => { a with auths := auths.foldl (removeAuth tx.transaction.hash) a.auths }

def removeTransactionByHash (a : AllTransactions) (txHash : TxHash) :
    Option (ValidPoolTransaction × SubPool) × AllTransactions :=
  match a.byHash[txHash]? with
  | none => (none, a)
  | some tx =>
    let a := { a with byHash := a.byHash.erase txHash }
    match a.txs[tx.transactionId]? with
    | none => (none, a)
    | some internal =>
      let a := { a with txs := a.txs.erase tx.transactionId }
      (some (tx, internal.subpool), (a.removeAuths internal).txDecr tx.senderId)

def removeTransactionById (a : AllTransactions) (txId : TransactionId) :
    Option (ValidPoolTransaction × SubPool) × AllTransactions :=
  match a.txs[txId]? with
  | none => (none, a)
  | some internal =>
    let a := { a with txs := a.txs.erase txId }
    match a.byHash[internal.transaction.hash]? with
    | none => (none, a)
    | some tx =>
      let a := { a with byHash := a.byHash.erase internal.transaction.hash }
      (some (tx, internal.subpool), (a.removeAuths internal).txDecr tx.senderId)

def removeTransaction (a : AllTransactions) (id : TransactionId) :
    Option (ValidPoolTransaction × SubPool) × AllTransactions :=
  match a.txs[id]? with
  | none => (none, a)
  | some internal =>
    let a := { a with txs := a.txs.erase id }.txDecr internal.transaction.senderId
    let result := (a.byHash[internal.transaction.hash]?).map (fun tx => (tx, internal.subpool))
    let a := { a with byHash := a.byHash.erase internal.transaction.hash }
    (result, a.removeAuths internal)

/-! ## Metadata passes -/

/-- Recompute the sub-pool of a transaction and record the move, if it is one. -/
def reroute (id : TransactionId) (tx : PoolInternalTransaction) :
    PoolInternalTransaction × List PoolUpdate :=
  ({ tx with subpool := tx.state.subPool },
    if tx.subpool ≠ tx.state.subPool then [⟨id, tx.subpool, .pool tx.state.subPool⟩] else [])

/-- The visit of `park_descendant_transactions`. -/
def parkVisit (_ : Unit) (id : TransactionId) (tx : PoolInternalTransaction) :
    Unit × PoolInternalTransaction × List PoolUpdate :=
  ((), reroute id { tx with state := { tx.state with noNonceGaps := false } })

def parkDescendantTransactions (a : AllTransactions) (txId : TransactionId) :
    List PoolUpdate × AllTransactions :=
  let r := sweep parkVisit (descendantTxsInclusive a.txs txId) () a.txs []
  (r.2.2, { a with txs := r.2.1 })

def updateTxBaseFee (pendingBlockBaseFee : Nat) (tx : PoolInternalTransaction) :
    PoolInternalTransaction :=
  { tx with
    state := { tx.state with
      enoughFeeCapBlock := decide (pendingBlockBaseFee ≤ tx.transaction.maxFeePerGas) } }

/-- The variables of `update`: at a new sender, skipping the rest of one, or following its
    consecutive nonces. -/
inductive Cursor
  | next
  | skipping (sender : SenderId)
  | running (sender : SenderId) (nextNonceInLine : Nat) (hasParkedAncestor : Bool)
      (cumulativeCost : U256) (changedBalance : Option U256)
deriving DecidableEq

/-- The first transaction of a changed sender when it is the next one on chain. -/
def openSender (info : SenderInfo) (tx : PoolInternalTransaction) : PoolInternalTransaction :=
  { tx with
    state := { tx.state with
      noNonceGaps := true
      noParkedAncestors := true
      enoughBalance := decide (tx.transaction.cost ≤ info.balance) }
    cumulativeCost := 0 }

/-- The rest of the outer loop body of `update`, once the account was looked at. -/
def visitFirst (baseFee : Nat) (changedBalance : Option U256) (id : TransactionId)
    (tx : PoolInternalTransaction) : Cursor × PoolInternalTransaction × List PoolUpdate :=
  if tx.state.hasNonceGap then (.skipping id.sender, tx, [])
  else
    let tx := { tx with state := { tx.state with noParkedAncestors := true } }
    let tx := updateTxBaseFee baseFee tx
    let r := reroute tx.transaction.id tx
    (.running id.sender (tx.transaction.nonce + 1) (!tx.state.isPending)
      tx.nextCumulativeCost changedBalance, r)

/-- The outer loop body of `update`. -/
def visitSender (changedAccounts : ExtTreeMap SenderId SenderInfo) (baseFee : Nat)
    (id : TransactionId) (tx : PoolInternalTransaction) :
    Cursor × PoolInternalTransaction × List PoolUpdate :=
  match changedAccounts[id.sender]? with
  | some info =>
    if id.nonce < info.stateNonce then
      (.next, tx, [⟨tx.transaction.id, tx.subpool, .discard⟩])
    else
      let tx :=
        match TransactionId.ancestor id.nonce info.stateNonce id.sender with
        | none => openSender info tx
        | some _ => tx
      visitFirst baseFee (some info.balance) id tx
  | none => visitFirst baseFee none id tx

/-- `update` at the next nonce. Whether the one after it has a parked ancestor is decided before the
    fee flag is refreshed. -/
def visitConsecutive (baseFee : Nat) (hasParkedAncestor : Bool) (cumulativeCost : U256)
    (changedBalance : Option U256) (id : TransactionId) (tx : PoolInternalTransaction) :
    Cursor × PoolInternalTransaction × List PoolUpdate :=
  let tx := { tx with state := { tx.state with noNonceGaps := true }, cumulativeCost }
  let cumulativeCost := tx.nextCumulativeCost
  let tx :=
    match changedBalance with
    | some balance =>
      { tx with state := { tx.state with enoughBalance := decide (cumulativeCost ≤ balance) } }
    | none => tx
  let tx := { tx with state := { tx.state with noParkedAncestors := !hasParkedAncestor } }
  let hasParkedAncestor := !tx.state.isPending
  let tx := updateTxBaseFee baseFee tx
  (.running id.sender (tx.transaction.nonce + 1) hasParkedAncestor cumulativeCost changedBalance,
    reroute tx.transaction.id tx)

/-- The visit of `update`. -/
def updateVisit (changedAccounts : ExtTreeMap SenderId SenderInfo) (baseFee : Nat)
    (c : Cursor) (id : TransactionId) (tx : PoolInternalTransaction) :
    Cursor × PoolInternalTransaction × List PoolUpdate :=
  match c with
  | .next => visitSender changedAccounts baseFee id tx
  | .skipping sender =>
    if id.sender = sender then (.skipping sender, tx, [])
    else visitSender changedAccounts baseFee id tx
  | .running sender nextNonceInLine hasParkedAncestor cumulativeCost changedBalance =>
    if id.sender = sender then
      if tx.transaction.nonce = nextNonceInLine then
        visitConsecutive baseFee hasParkedAncestor cumulativeCost changedBalance id tx
      else (.skipping sender, tx, [])
    else visitSender changedAccounts baseFee id tx

def update (a : AllTransactions) (changedAccounts : ExtTreeMap SenderId SenderInfo) :
    List PoolUpdate × AllTransactions :=
  let r := sweep (updateVisit changedAccounts a.pendingFees.baseFee) a.txs.toList .next a.txs []
  (r.2.2, { a with txs := r.2.1 })

/-! ## Insertion -/

/-- `contains_conflicting_transaction`: only the first transaction of the sender is looked at. -/
def containsConflictingTransaction (a : AllTransactions) (tx : ValidPoolTransaction) : Bool :=
  match a.txsIter tx.transactionId.sender with
  | [] => false
  | (_, existing) :: _ => tx.txTypeConflictsWith existing.transaction

def ensureValid (a : AllTransactions) (transaction : ValidPoolTransaction) (onChainNonce : Nat) :
    Except InsertErr Unit :=
  if !a.localTransactionsConfig.isLocal transaction.origin transaction.sender &&
      decide (a.maxAccountSlots ≤ a.txCounter[transaction.senderId]?.getD 0) &&
      decide (onChainNonce < transaction.nonce) then
    .error (.exceededSenderTransactionsCapacity transaction)
  else if a.blockGasLimit < transaction.gasLimit then
    .error (.txGasLimitMoreThanAvailableBlockGas transaction a.blockGasLimit transaction.gasLimit)
  else if a.containsConflictingTransaction transaction then .error (.txTypeConflict transaction)
  else .ok ()

/-- Whether a blob transaction after a replaced one would go into overdraft. -/
def shiftsIntoOverdraft (onChainBalance : U256) :
    U256 → List (TransactionId × PoolInternalTransaction) → Bool
  | _, [] => false
  | cumulativeCost, (_, tx) :: rest =>
    let cumulativeCost := cumulativeCost + tx.transaction.cost
    if tx.transaction.isEip4844 && decide (onChainBalance < cumulativeCost) then true
    else shiftsIntoOverdraft onChainBalance cumulativeCost rest

def ensureValidBlobTransaction (a : AllTransactions) (newBlobTx : ValidPoolTransaction)
    (onChainBalance : U256) (ancestor : Option TransactionId) : Except InsertErr Unit :=
  match ancestor with
  | some ancestor =>
    match a.txs[ancestor]? with
    | none => .error (.blobTxHasNonceGap newBlobTx)
    | some ancestorTx =>
      if ancestorTx.state.hasNonceGap then .error (.blobTxHasNonceGap newBlobTx)
      else
        let cumulativeCost := ancestorTx.nextCumulativeCost + newBlobTx.cost
        if onChainBalance < cumulativeCost then .error (.overdraft newBlobTx)
        else
          match descendantTxsInclusive a.txs newBlobTx.transactionId with
          | (maybeReplacement, _) :: descendants =>
            if maybeReplacement = newBlobTx.transactionId ∧
                shiftsIntoOverdraft onChainBalance cumulativeCost descendants = true then
              .error (.overdraft newBlobTx)
            else .ok ()
          | [] => .ok ()
  | none => if onChainBalance < newBlobTx.cost then .error (.overdraft newBlobTx) else .ok ()

/-- The state a transaction is inserted with, before its sender is rechecked. -/
def initialState (a : AllTransactions) (transaction : ValidPoolTransaction)
    (ancestor : Option TransactionId) : TxState where
  noParkedAncestors := ancestor.isNone
  noNonceGaps := ancestor.isNone
  enoughBalance := false
  notTooMuchGas := true
  enoughFeeCapBlock := decide (a.pendingFees.baseFee ≤ transaction.maxFeePerGas)
  enoughBlobFeeCapBlock :=
    !transaction.isEip4844 ||
      decide (a.pendingFees.blobFee ≤ transaction.maxFeePerBlobGas.getD 0)
  blobTransaction := transaction.isEip4844

/-- The local variables of the loop of `insert_tx`; `stopped` is its `break`. -/
structure InsertCursor where
  stopped : Bool
  nextNonce : Nat
  hasParkedAncestor : Bool
  cumulativeCost : U256
  state : TxState
deriving DecidableEq

/-- The loop body of `insert_tx`: moves of the inserted transaction itself are not recorded. -/
def insertVisit (onChainBalance : U256) (insertedTxId : TransactionId)
    (c : InsertCursor) (id : TransactionId) (tx : PoolInternalTransaction) :
    InsertCursor × PoolInternalTransaction × List PoolUpdate :=
  if c.stopped = true ∨ c.nextNonce ≠ id.nonce then ({ c with stopped := true }, tx, [])
  else
    let tx :=
      { tx with state := { tx.state with noNonceGaps := true }, cumulativeCost := c.cumulativeCost }
    let cumulativeCost := tx.nextCumulativeCost
    let tx := { tx with
      state := { tx.state with
        enoughBalance := decide (cumulativeCost ≤ onChainBalance)
        noParkedAncestors := !c.hasParkedAncestor } }
    let r := reroute id tx
    ({ stopped := false, nextNonce := id.nextNonce, hasParkedAncestor := !tx.state.isPending,
       cumulativeCost, state := if insertedTxId = id then tx.state else c.state },
      r.1, if insertedTxId = id then [] else r.2)

/-- The rest of `insert_tx`: index the authorities and recheck the sender from the on-chain nonce.
    -/
def finishInsert (a : AllTransactions) (transaction : ValidPoolTransaction)
    (onChainBalance : U256) (onChainNonce : Nat) (state : TxState)
    (replacedTx : Option (ValidPoolTransaction × SubPool)) : InsertOk × AllTransactions :=
  let auths := (transaction.authorityIds.getD []).foldl
    (fun m auth => m.insert auth (insert transaction.hash (m[auth]?.getD ∅))) a.auths
  let r := sweep (insertVisit onChainBalance transaction.id)
    (descendantTxsInclusive a.txs ⟨transaction.senderId, onChainNonce⟩)
    ⟨false, onChainNonce, false, 0, state⟩ a.txs []
  let a := { a with auths, txs := r.2.1 }
  ({ transaction, moveTo := r.1.state.subPool, state := r.1.state, replacedTx, updates := r.2.2 },
    if replacedTx.isNone then a.txInc transaction.senderId else a)

/-- The checks of `insert_tx` before it touches the maps, in their order. -/
def ensureInsertable (a : AllTransactions) (transaction : ValidPoolTransaction)
    (onChainBalance : U256) (onChainNonce : Nat) : Except InsertErr Unit :=
  match a.ensureValid transaction onChainNonce with
  | .error err => .error err
  | .ok () =>
    let ancestor := TransactionId.ancestor transaction.nonce onChainNonce transaction.id.sender
    match (if transaction.isEip4844 then
        a.ensureValidBlobTransaction transaction onChainBalance ancestor else .ok ()) with
    | .error err => .error err
    | .ok () =>
      let feeCap := transaction.maxFeePerGas
      if feeCap < a.minimalProtocolBasefee then
        .error (.feeCapBelowMinimumProtocolFeeCap transaction feeCap)
      else .ok ()

/-- `AllTransactions::insert_tx`; the assertion on the nonce is the outer `Option`. -/
def insertTx (a : AllTransactions) (transaction : ValidPoolTransaction) (onChainBalance : U256)
    (onChainNonce : Nat) : Option (Except InsertErr (InsertOk × AllTransactions)) :=
  if transaction.nonce < onChainNonce then none
  else
    match a.ensureInsertable transaction onChainBalance onChainNonce with
    | .error err => some (.error err)
    | .ok () =>
      let ancestor := TransactionId.ancestor transaction.nonce onChainNonce transaction.id.sender
      let state := a.initialState transaction ancestor
      let poolTx : PoolInternalTransaction :=
        { transaction, subpool := state.subPool, state, cumulativeCost := 0 }
      match a.txs[transaction.id]? with
      | none =>
        let a := { a with
          byHash := a.byHash.insert transaction.hash transaction
          txs := a.txs.insert transaction.id poolTx }
        some (.ok (a.finishInsert transaction onChainBalance onChainNonce state none))
      | some existing =>
        if existing.transaction.isUnderpriced transaction a.priceBumps then
          some (.error (.underpriced transaction existing.transaction.hash))
        else
          let a := { a with
            byHash := (a.byHash.erase existing.transaction.hash).insert
              transaction.hash transaction
            txs := a.txs.insert transaction.id poolTx }
          let a := a.removeAuths existing
          some (.ok (a.finishInsert transaction onChainBalance onChainNonce state
            (some (existing.transaction, existing.subpool))))

end AllTransactions

end TransactionPool

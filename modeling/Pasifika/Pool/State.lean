import Pasifika.Pool.Transaction

/-! # Transaction state flags and the sub-pool they select

`pool/state.rs`. A `TxState` is a set of flags; which sub-pool a
transaction belongs to is read off the numeric value of the flags. The
numeric comparisons of the source are kept (`bits`), and `isPending_iff`
and `subPool_eq` say what they amount to. -/

namespace TransactionPool

inductive SubPool
  | queued
  | baseFee
  | blob
  | pending
deriving DecidableEq, Repr

/-- The flags of `TxState`. -/
structure TxState where
  noParkedAncestors : Bool
  noNonceGaps : Bool
  enoughBalance : Bool
  notTooMuchGas : Bool
  enoughFeeCapBlock : Bool
  enoughBlobFeeCapBlock : Bool
  blobTransaction : Bool
deriving DecidableEq, Repr

namespace TxState

/-- The `u8` of a flag set. -/
def bits (s : TxState) : Nat :=
  s.noParkedAncestors.toNat * 0b10000000 + s.noNonceGaps.toNat * 0b01000000
    + s.enoughBalance.toNat * 0b00100000 + s.notTooMuchGas.toNat * 0b00010000
    + s.enoughFeeCapBlock.toNat * 0b00001000 + s.enoughBlobFeeCapBlock.toNat * 0b00000100
    + s.blobTransaction.toNat * 0b00000010

/-- `PENDING_POOL_BITS`. -/
def pendingPoolBits : Nat := 0b11111100

/-- `BASE_FEE_POOL_BITS`. -/
def baseFeePoolBits : Nat := 0b11110000

def isPending (s : TxState) : Bool := pendingPoolBits ≤ s.bits

def isBlob (s : TxState) : Bool := s.blobTransaction

def hasNonceGap (s : TxState) : Bool := !s.noNonceGaps

/-- `SubPool::from(TxState)`. -/
def subPool (s : TxState) : SubPool :=
  if s.isPending then .pending
  else if s.isBlob then .blob
  else if s.bits < baseFeePoolBits then .queued
  else .baseFee

/-- The four flags of `BASE_FEE_POOL_BITS`: everything but the fees. -/
def ready (s : TxState) : Bool :=
  s.noParkedAncestors && s.noNonceGaps && s.enoughBalance && s.notTooMuchGas

variable {s : TxState}

/-- The numeric threshold is the conjunction of the six flags. -/
theorem isPending_iff :
    s.isPending = true ↔
      s.ready = true ∧ s.enoughFeeCapBlock = true ∧ s.enoughBlobFeeCapBlock = true := by
  obtain ⟨a, b, c, d, e, f, g⟩ := s
  revert a b c d e f g
  decide

theorem ready_iff :
    s.ready = true ↔ s.noParkedAncestors = true ∧ s.noNonceGaps = true ∧
      s.enoughBalance = true ∧ s.notTooMuchGas = true := by
  simp only [ready, Bool.and_eq_true, and_assoc]

theorem subPool_eq_pending : s.subPool = .pending ↔ s.isPending = true := by
  obtain ⟨a, b, c, d, e, f, g⟩ := s
  revert a b c d e f g
  decide

theorem subPool_eq_baseFee :
    s.subPool = .baseFee ↔ s.ready = true ∧ s.blobTransaction = false ∧
      (s.enoughFeeCapBlock && s.enoughBlobFeeCapBlock) = false := by
  obtain ⟨a, b, c, d, e, f, g⟩ := s
  revert a b c d e f g
  decide

end TxState

/-- Why a transaction is parked. -/
inductive QueuedReason
  | nonceGap
  | parkedAncestors
  | insufficientBalance
  | tooMuchGas
  | insufficientBaseFee
  | insufficientBlobFee
deriving DecidableEq, Repr

def TxState.determineQueuedReason (s : TxState) : SubPool → Option QueuedReason
  | .pending => none
  | .queued =>
    if !s.noNonceGaps then some .nonceGap
    else if !s.enoughBalance then some .insufficientBalance
    else if !s.noParkedAncestors then some .parkedAncestors
    else if !s.notTooMuchGas then some .tooMuchGas
    else some .nonceGap
  | .baseFee => some .insufficientBaseFee
  | .blob => some .insufficientBlobFee

/-- Where an update sends a transaction. -/
inductive Destination
  | discard
  | pool (subPool : SubPool)
deriving DecidableEq, Repr

/-- A change of a transaction's location. -/
structure PoolUpdate where
  id : TransactionId
  current : SubPool
  destination : Destination
deriving DecidableEq, Repr

/-- The transactions a series of updates promoted and discarded. -/
structure UpdateOutcome where
  promoted : List ValidPoolTransaction
  discarded : List ValidPoolTransaction
deriving DecidableEq

/-- A transaction with the metadata `AllTransactions` keeps for it. -/
structure PoolInternalTransaction where
  transaction : ValidPoolTransaction
  subpool : SubPool
  state : TxState
  cumulativeCost : U256
deriving DecidableEq

def PoolInternalTransaction.nextCumulativeCost (t : PoolInternalTransaction) : U256 :=
  t.cumulativeCost + t.transaction.cost

end TransactionPool

import Pasifika.OrderedMap.Withdraw

/-! # Pool transactions, identifiers and configuration

The data the pool's functions read: `identifier.rs` (sender and transaction
ids with their derived order), the observations of the `PoolTransaction`
trait, `ValidPoolTransaction` of `validate/mod.rs`, the limits and price
bumps of `config.rs`, and the size tracker of `pool/size.rs`.

Nonces, fees, gas and sizes are natural numbers; the balance arithmetic is
on 256-bit words, because whether it wraps is a question about the pool. -/

namespace TransactionPool

open Std (ExtTreeMap TransOrd LawfulEqOrd)
open OrderedMap Option

abbrev SenderId := Nat
abbrev TxHash := Nat
abbrev Address := Nat

/-- `U256`: addition wraps modulo `2 ^ 256`, comparison is unsigned. -/
abbrev U256 := BitVec 256

/-! ## Identifiers -/

/-- A transaction of a sender, by nonce. -/
@[ext] structure TransactionId where
  sender : SenderId
  nonce : Nat
deriving DecidableEq, Repr

namespace TransactionId

/-- The derived order: by sender, then by nonce. -/
instance : Ord TransactionId := ⟨compareLex (compareOn sender) (compareOn nonce)⟩

theorem compare_def (a b : TransactionId) :
    compare a b = (compare a.sender b.sender).then (compare a.nonce b.nonce) := rfl

instance : TransOrd TransactionId :=
  inferInstanceAs (Std.TransCmp (compareLex (compareOn sender) (compareOn nonce)))

instance : LawfulEqOrd TransactionId where
  eq_of_compare {a b} h := by
    rw [compare_def, Ordering.then_eq_eq] at h
    obtain ⟨hs, hn⟩ := h
    cases a
    cases b
    rw [mk.injEq]
    exact ⟨Std.compare_eq_iff_eq.mp hs, Std.compare_eq_iff_eq.mp hn⟩

variable {a b : TransactionId}

theorem compare_eq_lt :
    compare a b = .lt ↔ a.sender < b.sender ∨ a.sender = b.sender ∧ a.nonce < b.nonce := by
  rw [compare_def, Ordering.then_eq_lt, Nat.compare_eq_lt, Nat.compare_eq_eq, Nat.compare_eq_lt]

/-- `TransactionId::ancestor`: the id a transaction waits for, if its nonce is
    above the on-chain nonce. -/
def ancestor (transactionNonce onChainNonce : Nat) (sender : SenderId) : Option TransactionId :=
  if onChainNonce < transactionNonce then some ⟨sender, transactionNonce - 1⟩ else none

def uncheckedAncestor (id : TransactionId) : Option TransactionId :=
  if id.nonce ≠ 0 then some ⟨id.sender, id.nonce - 1⟩ else none

theorem uncheckedAncestor_eq_some {id a : TransactionId} :
    id.uncheckedAncestor = some a ↔ a.sender = id.sender ∧ a.nonce + 1 = id.nonce := by
  obtain ⟨s, n⟩ := id
  obtain ⟨s', m⟩ := a
  cases n with
  | zero => simp [uncheckedAncestor]
  | succ n =>
    simp only [uncheckedAncestor, ne_eq, Nat.succ_ne_zero, not_false_eq_true, if_true,
      some.injEq, TransactionId.mk.injEq, Nat.add_sub_cancel, Nat.add_right_cancel_iff]
    exact and_congr eq_comm eq_comm

def nextNonce (id : TransactionId) : Nat := id.nonce + 1

def descendant (id : TransactionId) : TransactionId := ⟨id.sender, id.nextNonce⟩

theorem compare_asymm (h : compare a b = .lt) : ¬ compare b a = .lt := by
  rw [compare_eq_lt] at h ⊢
  rintro (h' | ⟨hs', hn'⟩) <;> rcases h with h | ⟨hs, hn⟩
  · exact lt_asymm h h'
  · exact lt_irrefl _ (hs ▸ h')
  · exact lt_irrefl _ (hs' ▸ h)
  · omega

variable {W : Type} {m : ExtTreeMap TransactionId W} {ok : TransactionId × W → Bool}
  {e : TransactionId × W}

/-- A pass that drops the rest of a sender keeps what passes together with all before it. -/
theorem mem_retain_sender :
    e ∈ (retain (·.1.sender) ok none m.toList).1 ↔
      m[e.1]? = some e.2 ∧ ∀ id w, m[id]? = some w →
        id.sender = e.1.sender → id.nonce ≤ e.1.nonce → ok (id, w) = true := by
  have hle : m.toList.Pairwise (·.1.sender ≤ ·.1.sender) := by
    refine (sorted_toList m).imp fun h => ?_
    rcases compare_eq_lt.mp h with h | h
    · exact le_of_lt h
    · exact le_of_eq h.1
  rw [mem_retain_of (fun a b => compare_asymm) m.toList none (sorted_toList m) hle
    (fun g h => nomatch h)]
  constructor
  · rintro ⟨hmem, hok, -, hall⟩
    have he := mem_toList.mp hmem
    refine ⟨he, fun id w hw hs hn => ?_⟩
    by_cases heq : id = e.1
    · subst heq
      rw [he] at hw
      exact some.inj hw ▸ hok
    · refine hall (id, w) (mem_toList.mpr hw) hs (compare_eq_lt.mpr (Or.inr ⟨hs, ?_⟩))
      exact Nat.lt_of_not_le fun hge => heq (congrArg₂ mk hs (le_antisymm hn hge))
  · rintro ⟨he, hall⟩
    refine ⟨mem_toList.mpr he, hall e.1 e.2 he rfl le_rfl, by simp, ?_⟩
    rintro ⟨id, w⟩ hmem hs hlt
    refine hall id w (mem_toList.mp hmem) hs ?_
    rcases compare_eq_lt.mp hlt with h | h
    · exact absurd h (ne_of_lt · hs)
    · exact le_of_lt h.2

theorem mem_retain_sender_snd :
    e ∈ (retain (·.1.sender) ok none m.toList).2 ↔
      m[e.1]? = some e.2 ∧ ∃ (id : TransactionId) (w : W), m[id]? = some w ∧
        id.sender = e.1.sender ∧ id.nonce ≤ e.1.nonce ∧ ok (id, w) = false := by
  rw [mem_retain_snd (nodup_toList m), mem_retain_sender, not_and]
  constructor
  · rintro ⟨hmem, h⟩
    have he := mem_toList.mp hmem
    have := h he
    push Not at this
    obtain ⟨id, w, hw, hs, hn, hok⟩ := this
    exact ⟨he, id, w, hw, hs, hn, Bool.eq_false_of_not_eq_true hok⟩
  · rintro ⟨he, id, w, hw, hs, hn, hok⟩
    refine ⟨mem_toList.mpr he, fun _ h => ?_⟩
    rw [h id w hw hs hn] at hok
    nomatch hok

end TransactionId

/-! ## Transactions -/

/-- `EIP4844_TX_TYPE_ID`. -/
def eip4844TxTypeId : Nat := 3

/-- What the pool observes of a `PoolTransaction`. Only EIP-4844 transactions
    have a blob fee cap. -/
structure Transaction where
  hash : TxHash
  sender : Address
  nonce : Nat
  cost : U256
  gasLimit : Nat
  txType : Nat
  maxFeePerGas : Nat
  maxPriorityFeePerGas : Option Nat
  maxFeePerBlobGas : Option Nat
  size : Nat
  blobFee_isSome : maxFeePerBlobGas.isSome = (txType == eip4844TxTypeId)
deriving DecidableEq

inductive TransactionOrigin
  | localTx
  | external
  | privateTx
deriving DecidableEq, Repr

def TransactionOrigin.isLocal : TransactionOrigin → Bool
  | .localTx => true
  | _ => false

/-- A validated transaction as the pool stores it. The pool builds its id from its own nonce. -/
structure ValidPoolTransaction where
  transaction : Transaction
  transactionId : TransactionId
  origin : TransactionOrigin
  authorityIds : Option (List SenderId)
  id_nonce : transactionId.nonce = transaction.nonce
deriving DecidableEq

/-- Price bumps (in %) for replacements. -/
structure PriceBumpConfig where
  defaultPriceBump : Nat
  replaceBlobTxPriceBump : Nat
deriving DecidableEq

def PriceBumpConfig.priceBump (c : PriceBumpConfig) (txType : Nat) : Nat :=
  if txType = eip4844TxTypeId then c.replaceBlobTxPriceBump else c.defaultPriceBump

namespace ValidPoolTransaction

def hash (tx : ValidPoolTransaction) : TxHash := tx.transaction.hash
def sender (tx : ValidPoolTransaction) : Address := tx.transaction.sender
def senderId (tx : ValidPoolTransaction) : SenderId := tx.transactionId.sender
def id (tx : ValidPoolTransaction) : TransactionId := tx.transactionId
def nonce (tx : ValidPoolTransaction) : Nat := tx.transaction.nonce
def cost (tx : ValidPoolTransaction) : U256 := tx.transaction.cost
def gasLimit (tx : ValidPoolTransaction) : Nat := tx.transaction.gasLimit
def txType (tx : ValidPoolTransaction) : Nat := tx.transaction.txType
def size (tx : ValidPoolTransaction) : Nat := tx.transaction.size
def maxFeePerGas (tx : ValidPoolTransaction) : Nat := tx.transaction.maxFeePerGas
def maxFeePerBlobGas (tx : ValidPoolTransaction) : Option Nat := tx.transaction.maxFeePerBlobGas
def isLocal (tx : ValidPoolTransaction) : Bool := tx.origin.isLocal

/-- `is_eip4844`: the transaction type is the blob type. -/
def isEip4844 (tx : ValidPoolTransaction) : Bool := tx.transaction.txType == eip4844TxTypeId

/-- `tx_type_conflicts_with`: one of the two is a blob transaction, the other one is not. -/
def txTypeConflictsWith (tx other : ValidPoolTransaction) : Bool :=
  tx.isEip4844 != other.isEip4844

variable (tx : ValidPoolTransaction)

theorem nonce_eq : tx.nonce = tx.id.nonce := tx.id_nonce.symm

theorem id_eq : tx.id = ⟨tx.senderId, tx.nonce⟩ := by
  rw [nonce_eq]
  rfl

/-- Whether the blob fee cap covers a blob fee; without a cap it does not. -/
def coversBlobFee (tx : ValidPoolTransaction) (blobFee : Nat) : Bool :=
  !tx.maxFeePerBlobGas.all (· < blobFee)

/-- A blob transaction has a cap to compare. -/
theorem coversBlobFee_iff {tx : ValidPoolTransaction} (h : tx.isEip4844 = true) (blobFee : Nat) :
    tx.coversBlobFee blobFee = true ↔ blobFee ≤ tx.maxFeePerBlobGas.getD 0 := by
  have hsome : tx.maxFeePerBlobGas.isSome = true := tx.transaction.blobFee_isSome.trans h
  obtain ⟨cap, hcap⟩ := isSome_iff_exists.mp hsome
  simp [coversBlobFee, hcap]

/-- A price after a bump, in `u128` arithmetic: the product wraps. -/
def bumped (price priceBump : Nat) : Nat := price * (100 + priceBump) % 2 ^ 128 / 100

/-- `is_underpriced`: the bump is missed on the fee cap, on the priority fee (when both have one) or
    on the blob fee cap. -/
def isUnderpriced (tx maybeReplacement : ValidPoolTransaction) (priceBumps : PriceBumpConfig) :
    Bool :=
  let priceBump := priceBumps.priceBump tx.txType
  let existingPriority := tx.transaction.maxPriorityFeePerGas.getD 0
  let replacementPriority := maybeReplacement.transaction.maxPriorityFeePerGas.getD 0
  if maybeReplacement.maxFeePerGas < bumped tx.maxFeePerGas priceBump then true
  else if existingPriority ≠ 0 ∧ replacementPriority ≠ 0 ∧
      replacementPriority < bumped existingPriority priceBump then true
  else
    match tx.maxFeePerBlobGas with
    | some existingBlobFee =>
      decide (maybeReplacement.maxFeePerBlobGas.getD 0 < bumped existingBlobFee priceBump)
    | none => false

end ValidPoolTransaction

/-! ## Configuration -/

/-- Size limits for a sub-pool. -/
structure SubPoolLimit where
  maxTxs : Nat
  maxSize : Nat
deriving DecidableEq

def SubPoolLimit.isExceeded (l : SubPoolLimit) (txs size : Nat) : Bool :=
  l.maxTxs < txs || l.maxSize < size

/-- Nothing exceeds a limit when the sub-pool is empty. -/
theorem SubPoolLimit.isExceeded_zero (l : SubPoolLimit) : l.isExceeded 0 0 = false := by
  simp [isExceeded]

/-- How locally received transactions are treated. -/
structure LocalTransactionConfig where
  noExemptions : Bool
  localAddresses : List Address
deriving DecidableEq

def LocalTransactionConfig.isLocal (c : LocalTransactionConfig) (origin : TransactionOrigin)
    (sender : Address) : Bool :=
  if c.noExemptions then false else origin.isLocal || c.localAddresses.contains sender

/-- The settings of `PoolConfig` that the pool reads. -/
structure PoolConfig where
  pendingLimit : SubPoolLimit
  basefeeLimit : SubPoolLimit
  queuedLimit : SubPoolLimit
  blobLimit : SubPoolLimit
  maxAccountSlots : Nat
  priceBumps : PriceBumpConfig
  minimalProtocolBasefee : Nat
  gasLimit : Nat
  localTransactionsConfig : LocalTransactionConfig
  maxNewPendingTxsNotifications : Nat
  maxInflightDelegatedSlotLimit : Nat
deriving DecidableEq

/-- `SubPoolLimit::default`: 10k transactions or 20 MB. -/
def SubPoolLimit.default : SubPoolLimit := ⟨10000, 20 * 1024 * 1024⟩

/-- `PoolConfig::default`, on the modelled settings. -/
def PoolConfig.default : PoolConfig where
  pendingLimit := SubPoolLimit.default
  basefeeLimit := SubPoolLimit.default
  queuedLimit := SubPoolLimit.default
  blobLimit := SubPoolLimit.default
  maxAccountSlots := 16
  priceBumps := ⟨10, 100⟩
  minimalProtocolBasefee := 7
  gasLimit := 30000000
  localTransactionsConfig := ⟨false, []⟩
  maxNewPendingTxsNotifications := 200
  maxInflightDelegatedSlotLimit := 1

/-- Expected fees of the pending block. -/
structure PendingFees where
  baseFee : Nat
  blobFee : Nat
deriving DecidableEq

/-- `PendingFees::default`: no base fee and `BLOB_TX_MIN_BLOB_GASPRICE`. -/
def PendingFees.default : PendingFees := ⟨0, 1⟩

/-- The block values the pool tracks. -/
structure BlockInfo where
  lastSeenBlockHash : Nat
  lastSeenBlockNumber : Nat
  blockGasLimit : Nat
  pendingBasefee : Nat
  pendingBlobFee : Option Nat
deriving DecidableEq

/-- What the pool last heard about a sender. -/
structure SenderInfo where
  stateNonce : Nat
  balance : U256
deriving DecidableEq

/-! ## Size tracking -/

/-- `SizeTracker`: a signed running size. -/
structure SizeTracker where
  value : Int
deriving DecidableEq

namespace SizeTracker

def zero : SizeTracker := ⟨0⟩
def add (s : SizeTracker) (rhs : Nat) : SizeTracker := ⟨s.value + rhs⟩
def sub (s : SizeTracker) (rhs : Nat) : SizeTracker := ⟨s.value - rhs⟩

/-- The tracked size as a `usize`. -/
def toUsize (s : SizeTracker) : Nat := s.value.toNat

@[simp] theorem zero_value : zero.value = 0 := rfl
@[simp] theorem add_value (s : SizeTracker) (n : Nat) : (s.add n).value = s.value + n := rfl
@[simp] theorem sub_value (s : SizeTracker) (n : Nat) : (s.sub n).value = s.value - n := rfl

end SizeTracker

end TransactionPool

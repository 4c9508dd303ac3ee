import Pasifika.Consensus.ChainSpec

/-! # Header validation

`EthBeaconConsensus` accepts a header by itself and against its parent. From the
two checks alone follow, along every chain of accepted headers:

* consecutive numbers that never wrap, strictly increasing timestamps, and gas
  limits within their bounds, so that no base fee divides by zero;
* the base fee of every header, which stays 0 on a chain that starts at 0 as long
  as no block uses more than half of its gas limit. -/

namespace Consensus

/-- The errors of `ConsensusError` that header validation returns. -/
inductive ConsensusError where
  | theMergeDifficultyIsNotZero
  | theMergeNonceIsNotZero
  | theMergeOmmerRootIsNotEmpty
  | timestampIsInFuture (timestamp presentTimestamp : UInt64)
  | extraDataExceedsMax (len : Nat)
  | headerGasUsedExceedsGasLimit (gasUsed gasLimit : UInt64)
  | headerGasLimitExceedsMax (gasLimit : UInt64)
  | baseFeeMissing
  | withdrawalsRootMissing
  | withdrawalsRootUnexpected
  | blobGasUsedMissing
  | parentBeaconBlockRootMissing
  | blobGasUsedNotMultipleOfBlobGasPerBlob (blobGasUsed blobGasPerBlob : UInt64)
  | blobGasUsedExceedsMaxBlobGasPerBlock (blobGasUsed maxBlobGasPerBlock : UInt64)
  | blobGasUsedUnexpected
  | excessBlobGasUnexpected
  | parentBeaconBlockRootUnexpected
  | requestsHashMissing
  | requestsHashUnexpected
  | parentBlockNumberMismatch (parentBlockNumber blockNumber : UInt64)
  | parentHashMismatch (got expected : B256)
  | timestampIsInPast (parentTimestamp timestamp : UInt64)
  | gasLimitInvalidIncrease (parentGasLimit childGasLimit : UInt64)
  | gasLimitInvalidDecrease (parentGasLimit childGasLimit : UInt64)
  | gasLimitInvalidMinimum (childGasLimit : UInt64)
  | baseFeeDiff (got expected : UInt64)
  | excessBlobGasMissing
  | excessBlobGasDiff (got expected parentExcessBlobGas parentBlobGasUsed : UInt64)
deriving DecidableEq, Repr

/-- How a check ends early. -/
inductive Stop where
  | error (e : ConsensusError)
  /-- A division by zero. -/
  | panic
deriving DecidableEq, Repr

/-- The result of a check. -/
abbrev Check := Except Stop Unit

/-- `return Err(e)` if the condition holds. -/
def failIf (condition : Bool) (e : ConsensusError) : Check :=
  if condition then .error (.error e) else .ok ()

def maximumExtraDataSize : Nat := 32

def minimumGasLimit : UInt64 := 5000

def maximumGasLimitBlock : UInt64 := 9223372036854775807

def gasLimitBoundDivisor : UInt64 := 1024

def allowedFutureBlockTimeSeconds : UInt64 := 15

/-! ## A header by itself -/

def validateHeaderExtraData (header : Header) : Check :=
  failIf (header.extraData.length > maximumExtraDataSize)
    (.extraDataExceedsMax header.extraData.length)

def validateHeaderGas (header : Header) : Check := do
  failIf (header.gasUsed > header.gasLimit)
    (.headerGasUsedExceedsGasLimit header.gasUsed header.gasLimit)
  failIf (header.gasLimit > maximumGasLimitBlock) (.headerGasLimitExceedsMax header.gasLimit)

def validateHeaderBaseFee (header : Header) (chainSpec : ChainSpec) : Check :=
  failIf (chainSpec.isLondonActiveAtBlock header.number && header.baseFeePerGas.isNone)
    .baseFeeMissing

def validate4844HeaderStandalone (header : Header) (blobParams : BlobParams) : Check :=
  match header.blobGasUsed with
  | none => .error (.error .blobGasUsedMissing)
  | some blobGasUsed => do
      failIf header.parentBeaconBlockRoot.isNone .parentBeaconBlockRootMissing
      failIf (blobGasUsed % dataGasPerBlob != 0)
        (.blobGasUsedNotMultipleOfBlobGasPerBlob blobGasUsed dataGasPerBlob)
      failIf (blobGasUsed > blobParams.maxBlobGasPerBlock)
        (.blobGasUsedExceedsMaxBlobGasPerBlock blobGasUsed blobParams.maxBlobGasPerBlock)

/-- The checks that depend on the merge; before it, timestamps are compared with the clock. -/
def validateMergeFields (chainSpec : ChainSpec) (presentTimestamp : UInt64) (header : Header) :
    Check :=
  if chainSpec.isParisActiveAtBlock header.number then do
    failIf (header.difficulty != 0) .theMergeDifficultyIsNotZero
    failIf (header.nonce != some 0) .theMergeNonceIsNotZero
    failIf (header.ommersHash != emptyOmmerRootHash) .theMergeOmmerRootIsNotEmpty
  else
    failIf (header.timestamp > presentTimestamp + allowedFutureBlockTimeSeconds)
      (.timestampIsInFuture header.timestamp presentTimestamp)

/-- The checks of `validate_header` for fields that hard forks introduced. -/
def validateForkFields (chainSpec : ChainSpec) (header : Header) : Check := do
  let shanghai := (chainSpec.hardforks .shanghai).activeAtTimestamp header.timestamp
  failIf (shanghai && header.withdrawalsRoot.isNone) .withdrawalsRootMissing
  failIf (!shanghai && header.withdrawalsRoot.isSome) .withdrawalsRootUnexpected
  if (chainSpec.hardforks .cancun).activeAtTimestamp header.timestamp then
    validate4844HeaderStandalone header
      ((chainSpec.blobParamsAtTimestamp header.timestamp).getD .cancun)
  else do
    failIf header.blobGasUsed.isSome .blobGasUsedUnexpected
    failIf header.excessBlobGas.isSome .excessBlobGasUnexpected
    failIf header.parentBeaconBlockRoot.isSome .parentBeaconBlockRootUnexpected
  if (chainSpec.hardforks .prague).activeAtTimestamp header.timestamp then
    failIf header.requestsHash.isNone .requestsHashMissing
  else
    failIf header.requestsHash.isSome .requestsHashUnexpected

/-- `EthBeaconConsensus::validate_header`. -/
def validateHeader (chainSpec : ChainSpec) (presentTimestamp : UInt64) (sealed : SealedHeader) :
    Check := do
  let header := sealed.header
  validateMergeFields chainSpec presentTimestamp header
  validateHeaderExtraData header
  validateHeaderGas header
  validateHeaderBaseFee header chainSpec
  validateForkFields chainSpec header

/-! ## A header against its parent -/

/-- `validate_against_parent_hash_number`; the sum wraps. -/
def validateAgainstParentHashNumber (header : Header) (parent : SealedHeader) : Check := do
  failIf (parent.header.number + 1 != header.number)
    (.parentBlockNumberMismatch parent.header.number header.number)
  failIf (parent.hash != header.parentHash) (.parentHashMismatch header.parentHash parent.hash)

def validateAgainstParentTimestamp (header parent : Header) : Check :=
  failIf (header.timestamp ≤ parent.timestamp)
    (.timestampIsInPast parent.timestamp header.timestamp)

/-- The gas limit of the parent, scaled at the London fork. -/
def parentGasLimit (header parent : Header) (chainSpec : ChainSpec) : UInt64 :=
  if !chainSpec.isLondonActiveAtBlock parent.number && chainSpec.isLondonActiveAtBlock header.number
  then parent.gasLimit
    * UInt64.ofNat (chainSpec.baseFeeParamsAtTimestamp header.timestamp).elasticityMultiplier
  else parent.gasLimit

/-- The minimum is only checked if the limit does not increase. -/
def validateAgainstParentGasLimit (header parent : Header) (chainSpec : ChainSpec) : Check :=
  let parentGasLimit := parentGasLimit header parent chainSpec
  if header.gasLimit > parentGasLimit then
    failIf (header.gasLimit - parentGasLimit ≥ parentGasLimit / gasLimitBoundDivisor)
      (.gasLimitInvalidIncrease parentGasLimit header.gasLimit)
  else do
    failIf (parentGasLimit - header.gasLimit ≥ parentGasLimit / gasLimitBoundDivisor)
      (.gasLimitInvalidDecrease parentGasLimit header.gasLimit)
    failIf (header.gasLimit < minimumGasLimit) (.gasLimitInvalidMinimum header.gasLimit)

/-- `next_block_base_fee`, where a missing base fee of the parent is an error. -/
def nextBlockBaseFee (chainSpec : ChainSpec) (parent : Header) (targetTimestamp : UInt64) :
    Except Stop UInt64 :=
  match parent.baseFeePerGas with
  | none => .error (.error .baseFeeMissing)
  | some baseFee =>
    match calcNextBlockBaseFee parent.gasUsed parent.gasLimit baseFee
      (chainSpec.baseFeeParamsAtTimestamp targetTimestamp) with
    | none => .error .panic
    | some next => .ok next

/-- The base fee a header must have. -/
def expectedBaseFee (header parent : Header) (chainSpec : ChainSpec) : Except Stop UInt64 :=
  if (chainSpec.hardforks .london).transitionsAtBlock header.number then .ok initialBaseFee
  else nextBlockBaseFee chainSpec parent header.timestamp

def validateAgainstParentEip1559BaseFee (header parent : Header) (chainSpec : ChainSpec) : Check :=
  if chainSpec.isLondonActiveAtBlock header.number then
    match header.baseFeePerGas with
    | none => .error (.error .baseFeeMissing)
    | some baseFee => do
        let expected ← expectedBaseFee header parent chainSpec
        failIf (expected != baseFee) (.baseFeeDiff baseFee expected)
  else .ok ()

def validateAgainstParent4844 (header parent : Header) (blobParams : BlobParams) : Check :=
  let parentBlobGasUsed := parent.blobGasUsed.getD 0
  let parentExcessBlobGas := parent.excessBlobGas.getD 0
  if header.blobGasUsed.isNone then .error (.error .blobGasUsedMissing)
  else
    match header.excessBlobGas with
    | none => .error (.error .excessBlobGasMissing)
    | some excessBlobGas =>
      let expected := blobParams.nextBlockExcessBlobGasOsaka parentExcessBlobGas
        parentBlobGasUsed (parent.baseFeePerGas.getD 0)
      failIf (expected != excessBlobGas)
        (.excessBlobGasDiff excessBlobGas expected parentExcessBlobGas parentBlobGasUsed)

/-- `EthBeaconConsensus::validate_header_against_parent`. -/
def validateHeaderAgainstParent (chainSpec : ChainSpec) (header parent : SealedHeader) : Check := do
  validateAgainstParentHashNumber header.header parent
  validateAgainstParentTimestamp header.header parent.header
  validateAgainstParentGasLimit header.header parent.header chainSpec
  validateAgainstParentEip1559BaseFee header.header parent.header chainSpec
  match chainSpec.blobParamsAtTimestamp header.header.timestamp with
  | none => .ok ()
  | some blobParams => validateAgainstParent4844 header.header parent.header blobParams

/-! ## What the checks say -/

@[simp] theorem failIf_eq_ok :
    failIf condition e = .ok u ↔ condition = false := by
  cases condition
  · exact ⟨fun _ => rfl, fun _ => rfl⟩
  · exact ⟨nofun, nofun⟩

/-- A sequence of checks passes if each of them does. -/
theorem check_bind_eq_ok {A B : Type} {x : Except Stop A} {f : A → Except Stop B} {b : B} :
    (x >>= f) = .ok b ↔ ∃ a, x = .ok a ∧ f a = .ok b := by
  cases x with
  | error e => exact ⟨nofun, fun ⟨_, h, _⟩ => (nomatch h)⟩
  | ok a =>
    constructor
    · intro h
      exact ⟨a, rfl, h⟩
    · rintro ⟨a', h, hf⟩
      cases h
      exact hf

variable {header : SealedHeader} {spec : ChainSpec} {parent : Header}

theorem validateHeader_gas {now : UInt64} (h : validateHeader spec now header = .ok ()) :
    header.header.gasLimit ≤ maximumGasLimitBlock := by
  obtain ⟨_, -, h⟩ := check_bind_eq_ok.mp h
  obtain ⟨_, -, h⟩ := check_bind_eq_ok.mp h
  obtain ⟨_, hgas, -⟩ := check_bind_eq_ok.mp h
  obtain ⟨_, -, hlimit⟩ := check_bind_eq_ok.mp hgas
  rw [failIf_eq_ok, decide_eq_false_iff_not] at hlimit
  exact UInt64.not_lt.mp hlimit

theorem gasLimitBoundDivisor_toNat : gasLimitBoundDivisor.toNat = 1024 := rfl

/-- The gas limit moves by less than a 1024th of the parent's, and only upwards from
    below the minimum. -/
theorem validateAgainstParentGasLimit_ok {header parent : Header}
    (hlondon : spec.isLondonActiveAtBlock parent.number = true)
    (h : validateAgainstParentGasLimit header parent spec = .ok ()) :
    (header.gasLimit.toNat - parent.gasLimit.toNat < parent.gasLimit.toNat / 1024 ∧
        parent.gasLimit.toNat - header.gasLimit.toNat < parent.gasLimit.toNat / 1024) ∧
      (parent.gasLimit < header.gasLimit ∨ minimumGasLimit ≤ header.gasLimit) := by
  have hparent : parentGasLimit header parent spec = parent.gasLimit := by
    rw [parentGasLimit, hlondon]
    rfl
  rw [validateAgainstParentGasLimit, hparent] at h
  by_cases hlt : header.gasLimit > parent.gasLimit
  · rw [if_pos hlt, failIf_eq_ok, decide_eq_false_iff_not, ge_iff_le, UInt64.not_le,
      UInt64.lt_iff_toNat_lt, UInt64.toNat_div, gasLimitBoundDivisor_toNat,
      UInt64.toNat_sub_of_le _ _ (UInt64.le_of_lt hlt)] at h
    have hlt' := UInt64.lt_iff_toNat_lt.mp hlt
    exact ⟨⟨h, by omega⟩, .inl hlt⟩
  · rw [if_neg hlt] at h
    obtain ⟨_, hdiff, hmin⟩ := check_bind_eq_ok.mp h
    have hle := UInt64.not_lt.mp hlt
    rw [failIf_eq_ok, decide_eq_false_iff_not] at hmin
    rw [failIf_eq_ok, decide_eq_false_iff_not, ge_iff_le, UInt64.not_le,
      UInt64.lt_iff_toNat_lt, UInt64.toNat_div, gasLimitBoundDivisor_toNat,
      UInt64.toNat_sub_of_le _ _ hle] at hdiff
    have hle' := UInt64.le_iff_toNat_le.mp hle
    exact ⟨⟨by omega, hdiff⟩, .inr (UInt64.not_lt.mp hmin)⟩

theorem nextBlockBaseFee_ok (h : nextBlockBaseFee spec parent timestamp = .ok next) :
    ∃ base, parent.baseFeePerGas = some base ∧
      calcNextBlockBaseFee parent.gasUsed parent.gasLimit base
        (spec.baseFeeParamsAtTimestamp timestamp) = some next := by
  rw [nextBlockBaseFee] at h
  cases hbase : parent.baseFeePerGas with
  | none =>
    rw [hbase] at h
    nomatch h
  | some base =>
    rw [hbase] at h
    dsimp only at h
    cases hcalc : calcNextBlockBaseFee parent.gasUsed parent.gasLimit base
        (spec.baseFeeParamsAtTimestamp timestamp) with
    | none =>
      rw [hcalc] at h
      nomatch h
    | some next' =>
      rw [hcalc] at h
      cases h
      exact ⟨base, rfl, hcalc⟩

/-- The base fee follows from the parent's. -/
theorem validateAgainstParentEip1559BaseFee_ok {header parent : Header}
    (hlondon : spec.isLondonActiveAtBlock header.number = true)
    (htrans : (spec.hardforks .london).transitionsAtBlock header.number = false)
    (h : validateAgainstParentEip1559BaseFee header parent spec = .ok ()) :
    ∃ base next, parent.baseFeePerGas = some base ∧ header.baseFeePerGas = some next ∧
      calcNextBlockBaseFee parent.gasUsed parent.gasLimit base
        (spec.baseFeeParamsAtTimestamp header.timestamp) = some next := by
  rw [validateAgainstParentEip1559BaseFee, if_pos hlondon] at h
  cases hbase : header.baseFeePerGas with
  | none =>
    rw [hbase] at h
    nomatch h
  | some next =>
    rw [hbase] at h
    obtain ⟨expected, hexpected, heq⟩ := check_bind_eq_ok.mp h
    rw [failIf_eq_ok, bne_eq_false_iff_eq] at heq
    subst heq
    obtain ⟨base, hparent, hcalc⟩ := nextBlockBaseFee_ok
      (show nextBlockBaseFee spec parent header.timestamp = .ok expected by
        rwa [expectedBaseFee, htrans, if_neg Bool.false_ne_true] at hexpected)
    exact ⟨base, expected, hparent, rfl, hcalc⟩

/-- **A HEADER ON ITS PARENT**: what the checks against the parent say. -/
theorem validateHeaderAgainstParent_ok {header parent : SealedHeader}
    (h : validateHeaderAgainstParent spec header parent = .ok ()) :
    parent.header.number + 1 = header.header.number ∧
      parent.header.timestamp < header.header.timestamp ∧
      validateAgainstParentGasLimit header.header parent.header spec = .ok () ∧
      validateAgainstParentEip1559BaseFee header.header parent.header spec = .ok () := by
  obtain ⟨_, hnumber, h⟩ := check_bind_eq_ok.mp h
  obtain ⟨_, htime, h⟩ := check_bind_eq_ok.mp h
  obtain ⟨_, hgas, h⟩ := check_bind_eq_ok.mp h
  obtain ⟨_, hfee, -⟩ := check_bind_eq_ok.mp h
  obtain ⟨_, hnumber, -⟩ := check_bind_eq_ok.mp hnumber
  rw [failIf_eq_ok, bne_eq_false_iff_eq] at hnumber
  rw [validateAgainstParentTimestamp, failIf_eq_ok, decide_eq_false_iff_not, UInt64.not_le] at htime
  exact ⟨hnumber, htime, hgas, hfee⟩

/-! ## Chains of accepted headers -/

/-- A header accepted on its parent, at some time. -/
def Accepted (spec : ChainSpec) (parent header : SealedHeader) : Prop :=
  (∃ now, validateHeader spec now header = .ok ()) ∧
    validateHeaderAgainstParent spec header parent = .ok ()

/-- **AN ACCEPTED CHAIN**: headers from the genesis header on, each accepted on the
    one before it. -/
def AcceptedChain (spec : ChainSpec) (genesisHash : B256) (headers : List SealedHeader) : Prop :=
  (⟨spec.genesisHeader, genesisHash⟩ :: headers).IsChain (Accepted spec)

/-- Blob parameters for a configuration without a schedule; only Cancun's are used. -/
def sampleBlobParams : BlobScheduleBlobParams := ⟨[], .cancun, .cancun, .cancun⟩

/-- A header of the Pasifika chain. -/
def sampleHeader (number gasUsed baseFee : UInt64) : SealedHeader where
  hash := 100 + number.toNat
  header :=
    { parentHash := 99 + number.toNat
      ommersHash := emptyOmmerRootHash
      difficulty := 0
      number := number
      gasLimit := 0xFFFFFFFFFFFF
      gasUsed := gasUsed
      timestamp := 12 * number
      extraData := []
      nonce := some 0
      baseFeePerGas := some baseFee
      withdrawalsRoot := some emptyWithdrawals
      blobGasUsed := some 0
      excessBlobGas := some 0
      parentBeaconBlockRoot := some 0
      requestsHash := none }

/-- Two blocks on the genesis block, the first one half full. -/
theorem acceptedChain_half_full : AcceptedChain (createPoaGenesis sampleBlobParams) 100
    [sampleHeader 1 0x7FFFFFFFFFFF 0, sampleHeader 2 0 0] := by
  refine .cons_cons ⟨⟨0, ?_⟩, ?_⟩ (.cons_cons ⟨⟨0, ?_⟩, ?_⟩ (.singleton _)) <;> decide +kernel

theorem isLondonActive_of_zero (h : spec.isLondonActiveAtBlock 0 = true) (number : UInt64) :
    spec.isLondonActiveAtBlock number = true := by
  rw [ChainSpec.isLondonActiveAtBlock] at h ⊢
  have hge : ∀ {n}, decide (0 ≥ n) = true → decide (number ≥ n) = true := by
    intro n hn
    have hzero := UInt64.le_iff_toNat_le.mp (of_decide_eq_true hn)
    refine decide_eq_true (UInt64.le_iff_toNat_le.mpr ?_)
    exact Nat.le_trans hzero (Nat.zero_le _)
  cases hfork : spec.hardforks .london with
  | block n | ttd n forkBlock difficulty => rw [hfork] at h; exact hge h
  | timestamp time | never => rw [hfork] at h; nomatch h

/-- Facts about each header and each step of a chain, from the header it starts at. -/
theorem isChain_of_step {H : Type} {R Q : H → H → Prop} {P : H → Prop}
    (hstep : ∀ p c, P p → R p c → P c ∧ Q p c) :
    ∀ l p, P p → (p :: l).IsChain R →
      (∀ c ∈ p :: l, P c) ∧ (p :: l).IsChain Q := by
  intro l
  induction l with
  | nil =>
    intro p hp _
    exact ⟨fun c hc => List.mem_singleton.mp hc ▸ hp, .singleton p⟩
  | cons c l ih =>
    intro p hp h
    obtain ⟨hpc, hl⟩ := List.isChain_cons_cons.mp h
    obtain ⟨hc, hq⟩ := hstep p c hp hpc
    obtain ⟨hall, hchain⟩ := ih c hc hl
    exact ⟨List.forall_mem_cons.mpr ⟨hp, hall⟩, .cons_cons hq hchain⟩

/-- The gas limit is within its bounds, and the number is at most the timestamp: the next does not
    wrap. -/
structure Sound (h : SealedHeader) : Prop where
  min_gas : minimumGasLimit ≤ h.header.gasLimit
  max_gas : h.header.gasLimit ≤ maximumGasLimitBlock
  number_le : h.header.number.toNat ≤ h.header.timestamp.toNat

/-- What holds between a header and its parent. -/
structure Follows (parent header : SealedHeader) : Prop where
  number : header.header.number.toNat = parent.header.number.toNat + 1
  timestamp : parent.header.timestamp < header.header.timestamp
  gas_increase : header.header.gasLimit.toNat - parent.header.gasLimit.toNat
    < parent.header.gasLimit.toNat / 1024
  gas_decrease : parent.header.gasLimit.toNat - header.header.gasLimit.toNat
    < parent.header.gasLimit.toNat / 1024

/-- **STEP**: an accepted header on a sound parent. -/
theorem Accepted.sound {parent header : SealedHeader}
    (hlondon : spec.isLondonActiveAtBlock 0 = true) (hparent : Sound parent)
    (h : Accepted spec parent header) : Sound header ∧ Follows parent header := by
  obtain ⟨⟨now, hself⟩, hagainst⟩ := h
  obtain ⟨hnumber, htime, hgas, -⟩ := validateHeaderAgainstParent_ok hagainst
  obtain ⟨⟨hup, hdown⟩, hmin⟩ :=
    validateAgainstParentGasLimit_ok (isLondonActive_of_zero hlondon _) hgas
  have htime' := UInt64.lt_iff_toNat_lt.mp htime
  have hnum : header.header.number.toNat = parent.header.number.toNat + 1 := by
    have hle := hparent.number_le
    have hlt := header.header.timestamp.toNat_lt
    rw [← hnumber, UInt64.toNat_add, UInt64.toNat_one, Nat.mod_eq_of_lt (by omega)]
  refine ⟨⟨?_, validateHeader_gas hself, ?_⟩, hnum, htime, hup, hdown⟩
  · rcases hmin with hlt | hmin
    · exact UInt64.le_trans hparent.min_gas (UInt64.le_of_lt hlt)
    · exact hmin
  · have hle := hparent.number_le
    omega

theorem ChainSpec.IsEthereum.sound_genesis (h : spec.IsEthereum)
    (hmin : minimumGasLimit ≤ spec.genesisHeader.gasLimit)
    (hmax : spec.genesisHeader.gasLimit ≤ maximumGasLimitBlock) (hash : B256) :
    Sound ⟨spec.genesisHeader, hash⟩ where
  min_gas := hmin
  max_gas := hmax
  number_le := by
    obtain ⟨genesis, heq⟩ := h.header
    rw [heq]
    exact Nat.zero_le _

/-- A gas limit within its bounds has a positive target. -/
theorem Sound.target_pos (hs : Sound h) : 1 ≤ h.header.gasLimit.toNat / 2 := by
  have hmin : 5000 ≤ h.header.gasLimit.toNat := UInt64.le_iff_toNat_le.mp hs.min_gas
  omega

/-- **BOUNDS** of every accepted chain: consecutive numbers, increasing timestamps, gas limits
    within their bounds that move by less than a 1024th, and base fees that can be computed. -/
theorem acceptedChain_bounds {spec : ChainSpec} (hspec : spec.IsEthereum)
    (hlondon : spec.isLondonActiveAtBlock 0 = true)
    (hmin : minimumGasLimit ≤ spec.genesisHeader.gasLimit)
    (hmax : spec.genesisHeader.gasLimit ≤ maximumGasLimitBlock) {genesisHash : B256}
    {headers : List SealedHeader} (h : AcceptedChain spec genesisHash headers) :
    (⟨spec.genesisHeader, genesisHash⟩ :: headers).IsChain Follows ∧
      ∀ c ∈ (⟨spec.genesisHeader, genesisHash⟩ : SealedHeader) :: headers,
        minimumGasLimit ≤ c.header.gasLimit ∧ c.header.gasLimit ≤ maximumGasLimitBlock ∧
        ∀ timestamp, (∃ target, gasTarget c.header.gasLimit
            (spec.baseFeeParamsAtTimestamp timestamp) = some target ∧ 1 ≤ target) ∧
          ∀ gasUsed baseFee, (calcNextBlockBaseFee gasUsed c.header.gasLimit baseFee
            (spec.baseFeeParamsAtTimestamp timestamp)).isSome = true := by
  have hstep : ∀ p c, Sound p → Accepted spec p c → Sound c ∧ Follows p c :=
    fun p c hp hpc => hpc.sound hlondon hp
  obtain ⟨hsound, hchain⟩ := isChain_of_step hstep headers _
    (hspec.sound_genesis hmin hmax genesisHash) h
  refine ⟨hchain, ?_⟩
  intro c hc
  have hs := hsound c hc
  refine ⟨hs.min_gas, hs.max_gas, ?_⟩
  intro timestamp
  rw [hspec.params_eq]
  refine ⟨⟨_, rfl, hs.target_pos⟩, ?_⟩
  intro gasUsed baseFee
  exact isSome_calcNextBlockBaseFee hs.target_pos gasUsed baseFee

theorem acceptedChain_bounds_sample :
    (⟨(createPoaGenesis sampleBlobParams).genesisHeader, 100⟩
      :: [sampleHeader 1 0x7FFFFFFFFFFF 0, sampleHeader 2 0 0]).IsChain Follows :=
  (acceptedChain_bounds (createPoaGenesis_isEthereum sampleBlobParams) (by decide) (by decide)
    (by decide) acceptedChain_half_full).1

/-! ## The base fee of the Pasifika chain -/

/-- The next base fee of an accepted header whose parent has none to pay. -/
theorem Accepted.baseFee_zero_iff (hspec : spec.IsEthereum)
    (hlondon : spec.hardforks .london = .block 0) {parent header : SealedHeader}
    (hparent : Sound parent) (hzero : parent.header.baseFeePerGas = some 0)
    (h : Accepted spec parent header) :
    header.header.baseFeePerGas = some 0 ↔
      parent.header.gasUsed.toNat ≤ parent.header.gasLimit.toNat / 2 := by
  have hactive : spec.isLondonActiveAtBlock 0 = true := by
    rw [ChainSpec.isLondonActiveAtBlock, hlondon]
    rfl
  have hnumber := (h.sound hactive hparent).2.number
  have htrans : (spec.hardforks .london).transitionsAtBlock header.header.number = false := by
    rw [hlondon, ForkCondition.transitionsAtBlock, beq_eq_false_iff_ne]
    intro heq
    rw [heq] at hnumber
    exact absurd hnumber (Nat.succ_ne_zero _).symm
  obtain ⟨-, -, -, hfee⟩ := validateHeaderAgainstParent_ok h.2
  obtain ⟨base, next, hbase, hnext, hcalc⟩ := validateAgainstParentEip1559BaseFee_ok
    (isLondonActive_of_zero hactive _) htrans hfee
  rw [hzero] at hbase
  cases hbase
  rw [hspec.params_eq] at hcalc
  rw [hnext, Option.some.injEq]
  exact calcNextBlockBaseFee_zero hcalc

/-- The base fee along a chain of accepted headers that starts without one. -/
theorem baseFees_zero_iff (hspec : spec.IsEthereum) (hlondon : spec.hardforks .london = .block 0) :
    ∀ headers first, Sound first →
      first.header.baseFeePerGas = some 0 → (first :: headers).IsChain (Accepted spec) →
      ((∀ c ∈ first :: headers, c.header.baseFeePerGas = some 0) ↔
      ∀ c ∈ (first :: headers).dropLast, c.header.gasUsed.toNat ≤ c.header.gasLimit.toNat / 2) :=
      by
  have hactive : spec.isLondonActiveAtBlock 0 = true := by
    rw [ChainSpec.isLondonActiveAtBlock, hlondon]
    rfl
  intro headers
  induction headers with
  | nil =>
    intro first _ hzero _
    exact iff_of_true (fun c hc => List.mem_singleton.mp hc ▸ hzero) nofun
  | cons c headers ih =>
    intro first hfirst hzero h
    obtain ⟨hacc, hl⟩ := List.isChain_cons_cons.mp h
    have hiff := hacc.baseFee_zero_iff hspec hlondon hfirst hzero
    rw [List.dropLast_cons_cons, List.forall_mem_cons, @List.forall_mem_cons _ _ first, ← hiff]
    constructor
    · rintro ⟨-, hall⟩
      have hc := hall c (List.mem_cons_self ..)
      exact ⟨hc, (ih c (hacc.sound hactive hfirst).1 hc hl).mp hall⟩
    · rintro ⟨hc, hused⟩
      exact ⟨hzero, (ih c (hacc.sound hactive hfirst).1 hc hl).mpr hused⟩

/-- **ZERO BASE FEE** in every header of an accepted chain from the Pasifika genesis, exactly if no
    header with a successor used more than half of its gas limit. -/
theorem poa_baseFee_zero_iff {blobParams : BlobScheduleBlobParams} {genesisHash : B256}
    {headers : List SealedHeader}
    (h : AcceptedChain (createPoaGenesis blobParams) genesisHash headers) :
    (∀ c ∈ (⟨(createPoaGenesis blobParams).genesisHeader, genesisHash⟩ : SealedHeader) :: headers,
        c.header.baseFeePerGas = some 0) ↔
      ∀ c ∈ ((⟨(createPoaGenesis blobParams).genesisHeader, genesisHash⟩ : SealedHeader)
        :: headers).dropLast, c.header.gasUsed.toNat ≤ c.header.gasLimit.toNat / 2 := by
  have hmin : minimumGasLimit ≤ (0xFFFFFFFFFFFF : UInt64) := by decide
  have hmax : (0xFFFFFFFFFFFF : UInt64) ≤ maximumGasLimitBlock := by decide
  have hspec := createPoaGenesis_isEthereum blobParams
  exact baseFees_zero_iff hspec rfl headers _ (hspec.sound_genesis hmin hmax genesisHash) rfl h

/-- A full block without fees makes the next base fee 1. -/
theorem poa_baseFee_one_after_full_block :
    AcceptedChain (createPoaGenesis sampleBlobParams) 100
        [sampleHeader 1 0xFFFFFFFFFFFF 0, sampleHeader 2 0 1] ∧
      (sampleHeader 2 0 1).header.baseFeePerGas = some 1 := by
  refine ⟨.cons_cons ⟨⟨0, ?_⟩, ?_⟩ (.cons_cons ⟨⟨0, ?_⟩, ?_⟩ (.singleton _)), rfl⟩ <;> decide +kernel

theorem poa_baseFee_zero_iff_sample :
    AcceptedChain (createPoaGenesis sampleBlobParams) 100
        [sampleHeader 1 0x7FFFFFFFFFFF 0, sampleHeader 2 0 0] ∧
      (sampleHeader 2 0 0).header.baseFeePerGas = some 0 :=
  ⟨acceptedChain_half_full, (poa_baseFee_zero_iff acceptedChain_half_full).mpr (by decide +kernel)
    (sampleHeader 2 0 0) (by simp)⟩

end Consensus

import Mathlib

/-! # Chain specifications

When hard forks activate, how the base fee of a block follows from its parent,
and the chain that a genesis configuration describes. Machine integers are
`UInt64`; hashes are natural numbers. `calc_next_block_base_fee` and the blob
gas rules belong to a package and are taken as that package specifies them. -/

namespace Consensus

abbrev B256 := Nat

inductive ForkCondition where
  | block (number : UInt64)
  | ttd (activationBlockNumber : UInt64) (forkBlock : Option UInt64) (totalDifficulty : Nat)
  | timestamp (time : UInt64)
  | never
deriving DecidableEq, Repr

namespace ForkCondition

def activeAtBlock : ForkCondition → UInt64 → Bool
  | .block number, current => current ≥ number
  | .ttd activation _ _, current => current ≥ activation
  | _, _ => false

def transitionsAtBlock : ForkCondition → UInt64 → Bool
  | .block number, current => current == number
  | _, _ => false

def activeAtTimestamp : ForkCondition → UInt64 → Bool
  | .timestamp time, current => current ≥ time
  | _, _ => false

end ForkCondition

/-- The hard forks that header validation asks for. -/
inductive EthereumHardfork where
  | london | paris | shanghai | cancun | prague | osaka
deriving DecidableEq, Repr

/-- `ChainHardforks`; a fork that is not listed is never active. -/
abbrev ChainHardforks := EthereumHardfork → ForkCondition

/-! ## Base fees -/

structure BaseFeeParams where
  maxChangeDenominator : Nat
  elasticityMultiplier : Nat
deriving DecidableEq, Repr

def BaseFeeParams.ethereum : BaseFeeParams := ⟨8, 2⟩

/-- At this gas the child's base fee does not change; `none` is a division by zero. -/
def gasTarget (gasLimit : UInt64) (params : BaseFeeParams) : Option Nat :=
  if params.elasticityMultiplier = 0 then none
  else some (gasLimit.toNat / params.elasticityMultiplier)

/-- `calc_next_block_base_fee`; `none` is a division by zero. -/
def calcNextBlockBaseFee (gasUsed gasLimit baseFee : UInt64) (params : BaseFeeParams) :
    Option UInt64 := do
  let target ← gasTarget gasLimit params
  let used := gasUsed.toNat
  let base := baseFee.toNat
  if used = target then
    some baseFee
  else if target = 0 ∨ params.maxChangeDenominator = 0 then
    none
  else if target < used then
    some (UInt64.ofNat
      (base + max 1 (base * (used - target) / target / params.maxChangeDenominator)))
  else
    some (UInt64.ofNat (base - base * (target - used) / target / params.maxChangeDenominator))

inductive BaseFeeParamsKind where
  | constant (params : BaseFeeParams)
  | variable (params : List (EthereumHardfork × BaseFeeParams))

/-! ## Blob parameters -/

/-- `BlobParams`, by what header validation uses: the most blob gas, and the excess of the next
    block. -/
structure BlobParams where
  maxBlobGasPerBlock : UInt64
  nextBlockExcessBlobGasOsaka : (excessBlobGas blobGasUsed baseFeePerGas : UInt64) → UInt64

def dataGasPerBlob : UInt64 := 131072

/-- `BlobParams::cancun`: three blobs a block, and six at most. -/
def BlobParams.cancun : BlobParams where
  maxBlobGasPerBlock := 6 * dataGasPerBlob
  nextBlockExcessBlobGasOsaka excessBlobGas blobGasUsed _ :=
    let next := excessBlobGas + blobGasUsed
    if next < 3 * dataGasPerBlob then 0 else next - 3 * dataGasPerBlob

structure BlobScheduleBlobParams where
  scheduled : List (UInt64 × BlobParams)
  cancun : BlobParams
  prague : BlobParams
  osaka : BlobParams

def BlobScheduleBlobParams.activeScheduledParamsAtTimestamp (p : BlobScheduleBlobParams)
    (timestamp : UInt64) : Option BlobParams :=
  (p.scheduled.reverse.find? (fun e => timestamp ≥ e.1)).map Prod.snd

/-! ## Headers and genesis -/

/-- What validation reads of a `Header`. -/
structure Header where
  parentHash : B256
  ommersHash : B256
  difficulty : Nat
  number : UInt64
  gasLimit : UInt64
  gasUsed : UInt64
  timestamp : UInt64
  extraData : List UInt8
  nonce : Option UInt64
  baseFeePerGas : Option UInt64
  withdrawalsRoot : Option B256
  blobGasUsed : Option UInt64
  excessBlobGas : Option UInt64
  parentBeaconBlockRoot : Option B256
  requestsHash : Option B256
deriving DecidableEq, Repr

/-- `SealedHeader`: a header with its hash. -/
structure SealedHeader where
  header : Header
  hash : B256
deriving DecidableEq, Repr

def emptyOmmerRootHash : B256 := 0x1dcc4de8dec75d7aab85b567b6ccd41ad312451b948a7413f0a142fd40d49347

def emptyWithdrawals : B256 := 0x56e81f171bcc55a6ff8345e692c0f86e5b48e01b996cadc001622fb5e363b421

def emptyRequestsHash : B256 := 0xe3b0c44298fc1c149afbf4c8996fb92427ae41e4649b934ca495991b7852b855

/-- `INITIAL_BASE_FEE`. -/
def initialBaseFee : UInt64 := 1000000000

/-- `Genesis` with its `config`. -/
structure Genesis where
  nonce : UInt64
  timestamp : UInt64
  extraData : List UInt8
  gasLimit : UInt64
  difficulty : Nat
  baseFeePerGas : Option Nat
  blobGasUsed : Option UInt64
  excessBlobGas : Option UInt64
  londonBlock : Option UInt64
  terminalTotalDifficulty : Option Nat
  mergeNetsplitBlock : Option UInt64
  shanghaiTime : Option UInt64
  cancunTime : Option UInt64
  pragueTime : Option UInt64
  osakaTime : Option UInt64
  /-- `blob_schedule_blob_params`. -/
  blobScheduleBlobParams : BlobScheduleBlobParams

/-- `make_genesis_header`; the number of a genesis header is 0. -/
def makeGenesisHeader (genesis : Genesis) (hardforks : ChainHardforks) : Header :=
  let cancun := (hardforks .cancun).activeAtTimestamp genesis.timestamp
  { parentHash := 0
    ommersHash := emptyOmmerRootHash
    difficulty := genesis.difficulty
    number := 0
    gasLimit := genesis.gasLimit
    gasUsed := 0
    timestamp := genesis.timestamp
    extraData := genesis.extraData
    nonce := some genesis.nonce
    baseFeePerGas :=
      if (hardforks .london).activeAtBlock 0 then
        some ((genesis.baseFeePerGas.map UInt64.ofNat).getD initialBaseFee)
      else none
    withdrawalsRoot :=
      if (hardforks .shanghai).activeAtTimestamp genesis.timestamp then some emptyWithdrawals
      else none
    blobGasUsed := if cancun then some (genesis.blobGasUsed.getD 0) else none
    excessBlobGas := if cancun then some (genesis.excessBlobGas.getD 0) else none
    parentBeaconBlockRoot := if cancun then some 0 else none
    requestsHash :=
      if (hardforks .prague).activeAtTimestamp genesis.timestamp then some emptyRequestsHash
      else none }

structure ChainSpec where
  genesisHeader : Header
  hardforks : ChainHardforks
  baseFeeParams : BaseFeeParamsKind
  blobParams : BlobScheduleBlobParams

namespace ChainSpec

/-- The activation conditions of `From<Genesis>`. -/
def genesisHardforks (genesis : Genesis) : ChainHardforks
  | .london => (genesis.londonBlock.map ForkCondition.block).getD .never
  | .paris =>
    match genesis.terminalTotalDifficulty with
    | none => .never
    | some ttd => .ttd (genesis.mergeNetsplitBlock.getD 0) genesis.mergeNetsplitBlock ttd
  | .shanghai => (genesis.shanghaiTime.map ForkCondition.timestamp).getD .never
  | .cancun => (genesis.cancunTime.map ForkCondition.timestamp).getD .never
  | .prague => (genesis.pragueTime.map ForkCondition.timestamp).getD .never
  | .osaka => (genesis.osakaTime.map ForkCondition.timestamp).getD .never

/-- `From<Genesis>`. -/
def fromGenesis (genesis : Genesis) : ChainSpec where
  genesisHeader := makeGenesisHeader genesis (genesisHardforks genesis)
  hardforks := genesisHardforks genesis
  baseFeeParams := .constant .ethereum
  blobParams := genesis.blobScheduleBlobParams

def baseFeeParamsAtTimestamp (spec : ChainSpec) (timestamp : UInt64) : BaseFeeParams :=
  match spec.baseFeeParams with
  | .constant params => params
  | .variable params =>
    match params.reverse.find? (fun e => (spec.hardforks e.1).activeAtTimestamp timestamp) with
    | some e => e.2
    | none => (params.head?.map Prod.snd).getD .ethereum

def blobParamsAtTimestamp (spec : ChainSpec) (timestamp : UInt64) : Option BlobParams :=
  match spec.blobParams.activeScheduledParamsAtTimestamp timestamp with
  | some params => some params
  | none =>
    if (spec.hardforks .osaka).activeAtTimestamp timestamp then some spec.blobParams.osaka
    else if (spec.hardforks .prague).activeAtTimestamp timestamp then some spec.blobParams.prague
    else if (spec.hardforks .cancun).activeAtTimestamp timestamp then some spec.blobParams.cancun
    else none

def isLondonActiveAtBlock (spec : ChainSpec) (number : UInt64) : Bool :=
  (spec.hardforks .london).activeAtBlock number

def isParisActiveAtBlock (spec : ChainSpec) (number : UInt64) : Bool :=
  (spec.hardforks .paris).activeAtBlock number

end ChainSpec

/-- `create_poa_genesis`, with the package's defaults for blob parameters. -/
def createPoaGenesis (blobParams : BlobScheduleBlobParams) : ChainSpec :=
  .fromGenesis
    { nonce := 0x0
      timestamp := 0x0
      -- "Pasifica PoA"
      extraData := [0x50, 0x61, 0x73, 0x69, 0x66, 0x69, 0x63, 0x61, 0x20, 0x50, 0x6f, 0x41]
      gasLimit := 0xFFFFFFFFFFFF
      difficulty := 0x0
      baseFeePerGas := some 0x0
      blobGasUsed := none
      excessBlobGas := none
      londonBlock := some 0
      terminalTotalDifficulty := some 0
      mergeNetsplitBlock := none
      shanghaiTime := some 0
      cancunTime := some 0
      pragueTime := none
      osakaTime := none
      blobScheduleBlobParams := blobParams }

/-! ## Gas targets -/

/-- **ETHEREUM SPECIFICATIONS**: the header is made from a genesis configuration, and the base fee
    has Ethereum's parameters. -/
structure ChainSpec.IsEthereum (spec : ChainSpec) : Prop where
  header : ∃ genesis, spec.genesisHeader = makeGenesisHeader genesis spec.hardforks
  params : spec.baseFeeParams = .constant .ethereum

theorem createPoaGenesis_isEthereum (blobParams : BlobScheduleBlobParams) :
    (createPoaGenesis blobParams).IsEthereum := ⟨⟨_, rfl⟩, rfl⟩

namespace ChainSpec.IsEthereum

variable {spec : ChainSpec}

theorem params_eq (h : spec.IsEthereum) (timestamp : UInt64) :
    spec.baseFeeParamsAtTimestamp timestamp = .ethereum := by
  rw [baseFeeParamsAtTimestamp, h.params]

end ChainSpec.IsEthereum

/-- With a target of at least 1 no division is by zero. -/
theorem isSome_calcNextBlockBaseFee (h : 1 ≤ gasLimit.toNat / 2) (gasUsed baseFee : UInt64) :
    (calcNextBlockBaseFee gasUsed gasLimit baseFee .ethereum).isSome = true := by
  rw [calcNextBlockBaseFee, show gasTarget gasLimit .ethereum = some (gasLimit.toNat / 2) from rfl,
    Option.bind_eq_bind, Option.bind_some]
  dsimp only
  rw [if_neg (show ¬ (gasLimit.toNat / 2 = 0 ∨ BaseFeeParams.ethereum.maxChangeDenominator = 0)
    from by rintro (h0 | h0); exacts [absurd h0 (ne_of_gt h), nomatch h0])]
  split
  · rfl
  · split <;> rfl

/-- A base fee of 0 stays 0 exactly up to the target. -/
theorem calcNextBlockBaseFee_zero
    (h : calcNextBlockBaseFee gasUsed gasLimit 0 .ethereum = some baseFee) :
    baseFee = 0 ↔ gasUsed.toNat ≤ gasLimit.toNat / 2 := by
  rw [calcNextBlockBaseFee, show gasTarget gasLimit .ethereum = some (gasLimit.toNat / 2) from rfl,
    Option.bind_eq_bind, Option.bind_some] at h
  dsimp only at h
  split at h
  · rename_i heq
    exact iff_of_true (Option.some.inj h).symm (le_of_eq heq)
  split at h
  · nomatch h
  split at h
  · rename_i hlt
    refine iff_of_false ?_ (not_le.mpr hlt)
    have hone := (Option.some.inj h).symm
    rw [UInt64.toNat_zero, zero_mul, Nat.zero_div, Nat.zero_div] at hone
    rw [hone]
    decide
  · rename_i hne _ hle
    refine iff_of_true ?_ (not_lt.mp hle)
    have hzero := (Option.some.inj h).symm
    rw [UInt64.toNat_zero, zero_mul, Nat.zero_div, Nat.zero_div] at hzero
    exact hzero

end Consensus

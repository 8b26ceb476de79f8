import GoEthereum.Clique.Voting

/-!
# Header rules

What the engines check of a header against its parent: `consensus/misc` (gas limit, EIP-1559,
EIP-4844, the DAO fork), the difficulty of `consensus/ethash`, and the forks of a chain
configuration. The fields of a header that are `uint64` in the source are natural numbers;
arithmetic on them is done modulo `2 ^ 64` where it can leave that range.
-/

namespace GoEthereum.Consensus

export GoEthereum.Clique (Header Crypto)

/-- The errors of header verification. -/
inductive Err where
  | ErrUnknownAncestor
  | ErrFutureBlock
  | ErrInvalidNumber
  | ErrInvalidTerminalBlock
  | extraTooLong (length : Nat)
  | errInvalidNonce
  | errInvalidUncleHash
  | errInvalidTimestamp
  | errOlderBlockTime
  | invalidDifficulty (difficulty want : Int)
  | invalidGasLimit (gasLimit : Nat)
  | invalidGasUsed (gasUsed gasLimit : Nat)
  | gasLimitBounds (gasLimit parentGasLimit : Nat)
  | gasLimitBelowMinimum
  | baseFeeBeforeFork (baseFee : Nat)
  | missingBaseFee
  | invalidBaseFee (baseFee want : Int)
  | forkNotSupported (fork : String)
  | missingWithdrawalsHash
  | invalidWithdrawalsHash
  | invalidExcessBlobGas
  | invalidBlobGasUsed
  | invalidParentBeaconRoot
  | missingBeaconRoot
  | missingExcessBlobGas
  | missingBlobGasUsed
  | blobGasUsedExceeds (used max : Nat)
  | blobGasUsedNotMultiple (used : Nat)
  | wrongExcessBlobGas (excess want : Nat)
  | ErrBadProDAOExtra
  | ErrBadNoDAOExtra
  | invalidTesterPow
  | errUnknownBlock
  | errInvalidCheckpointBeneficiary
  | errInvalidVote
  | errInvalidCheckpointVote
  | errMissingVanity
  | errMissingSignature
  | errExtraSigners
  | errInvalidCheckpointSigners
  | errMismatchingCheckpointSigners
  | errInvalidMixDigest
  | errInvalidDifficulty
  | snapshot (err : Clique.Voting.Err)   -- of apply or verifySeal
  | belowGenesis      -- Clique.snapshot walked past block zero
  | panic
deriving DecidableEq

/-! ## The chain configuration -/

structure BlobConfig where
  target : Nat
  max : Nat
deriving DecidableEq

structure BlobScheduleConfig where
  cancun : Option BlobConfig
  prague : Option BlobConfig
  osaka : Option BlobConfig
deriving DecidableEq

/-- The fields of `params.ChainConfig` that header verification reads. -/
structure ChainConfig where
  homesteadBlock : Option Nat
  daoForkBlock : Option Nat
  daoForkSupport : Bool
  byzantiumBlock : Option Nat
  constantinopleBlock : Option Nat
  muirGlacierBlock : Option Nat
  londonBlock : Option Nat
  arrowGlacierBlock : Option Nat
  grayGlacierBlock : Option Nat
  shanghaiTime : Option Nat
  cancunTime : Option Nat
  pragueTime : Option Nat
  osakaTime : Option Nat
  blobScheduleConfig : Option BlobScheduleConfig

/-- `isBlockForked`, and `isTimestampForked`. -/
def isForked (s : Option Nat) (head : Nat) : Bool :=
  match s with
  | none => false
  | some s => s ≤ head

namespace ChainConfig

variable (c : ChainConfig) (num : Nat)

def isHomestead : Bool := isForked c.homesteadBlock num

def isByzantium : Bool := isForked c.byzantiumBlock num

def isConstantinople : Bool := isForked c.constantinopleBlock num

def isMuirGlacier : Bool := isForked c.muirGlacierBlock num

def isLondon : Bool := isForked c.londonBlock num

def isArrowGlacier : Bool := isForked c.arrowGlacierBlock num

def isGrayGlacier : Bool := isForked c.grayGlacierBlock num

def isShanghai (num time : Nat) : Bool :=
  c.isLondon num && isForked c.shanghaiTime time

def isCancun (num time : Nat) : Bool :=
  c.isLondon num && isForked c.cancunTime time

/-- A fork after London at the London block, as `IsPrague(london, time)` and the like. -/
def isTimeForked (forkTime : Option Nat) (time : Nat) : Bool :=
  c.londonBlock.isSome && isForked forkTime time

end ChainConfig

/-! ## Gas -/

def maximumExtraDataSize : Nat := 32

def gasLimitBoundDivisor : UInt64 := 1024

def minGasLimit : UInt64 := 5000

def maxGasLimit : Nat := 0x7fffffffffffffff

/-- `VerifyGaslimit`; the difference is one of `int64`. -/
def verifyGaslimit (parentGasLimit headerGasLimit : UInt64) : Except Err Unit :=
  let diff := parentGasLimit.toInt64 - headerGasLimit.toInt64
  let diff := if diff < 0 then -diff else diff
  let limit := parentGasLimit / gasLimitBoundDivisor
  if diff.toUInt64 ≥ limit then
    .error (.gasLimitBounds headerGasLimit.toNat parentGasLimit.toNat)
  else if headerGasLimit < minGasLimit then .error .gasLimitBelowMinimum
  else .ok ()

def elasticityMultiplier : Nat := 2

def baseFeeChangeDenominator : Nat := 8

def initialBaseFee : Nat := 1000000000

/-- `CalcBaseFee`: a parent without a base fee, or with no gas to spend, makes it panic. -/
def calcBaseFee (config : ChainConfig) (parent : Header) : Except Err Nat :=
  if !config.isLondon parent.number then .ok initialBaseFee
  else
    let parentGasTarget := parent.gasLimit / elasticityMultiplier
    match parent.baseFee with
    | none => .error .panic
    | some baseFee =>
      if parent.gasUsed = parentGasTarget then .ok baseFee
      else if parentGasTarget = 0 then .error .panic
      else if parent.gasUsed > parentGasTarget then
        let num := (parent.gasUsed - parentGasTarget) * baseFee / parentGasTarget /
          baseFeeChangeDenominator
        .ok (if num < 1 then baseFee + 1 else baseFee + num)
      else
        let num := (parentGasTarget - parent.gasUsed) * baseFee / parentGasTarget /
          baseFeeChangeDenominator
        .ok (baseFee - num)

/-- `VerifyEIP1559Header`. -/
def verifyEIP1559Header (config : ChainConfig) (parent header : Header) : Except Err Unit :=
  let parentGasLimit := UInt64.ofNat
    (if !config.isLondon parent.number then parent.gasLimit * elasticityMultiplier
      else parent.gasLimit)
  match verifyGaslimit parentGasLimit (UInt64.ofNat header.gasLimit) with
  | .error err => .error err
  | .ok () =>
    match header.baseFee with
    | none => .error .missingBaseFee
    | some baseFee =>
      match calcBaseFee config parent with
      | .error err => .error err
      | .ok expected =>
        if baseFee ≠ expected then .error (.invalidBaseFee baseFee expected) else .ok ()

/-- The base fee and the gas limit, before and after London. -/
def verifyGas (config : ChainConfig) (parent header : Header) : Except Err Unit :=
  if !config.isLondon header.number then
    match header.baseFee with
    | some baseFee => .error (.baseFeeBeforeFork baseFee)
    | none => verifyGaslimit (UInt64.ofNat parent.gasLimit) (UInt64.ofNat header.gasLimit)
  else verifyEIP1559Header config parent header

/-! ## Blobs -/

def blobTxBlobGasPerBlob : Nat := 2 ^ 17

/-- The blob parameters at a time, as `MaxBlobsPerBlock` and `targetBlobsPerBlock` find
them. -/
def blobConfig (config : ChainConfig) (time : Nat) : Option BlobConfig :=
  match config.blobScheduleConfig with
  | none => none
  | some s =>
    if config.isTimeForked config.osakaTime time && s.osaka.isSome then s.osaka
    else if config.isTimeForked config.pragueTime time && s.prague.isSome then s.prague
    else if config.isTimeForked config.cancunTime time && s.cancun.isSome then s.cancun
    else none

def maxBlobGasPerBlock (config : ChainConfig) (time : Nat) : Nat :=
  (((blobConfig config time).map BlobConfig.max).getD 0 * blobTxBlobGasPerBlob) % 2 ^ 64

/-- `CalcExcessBlobGas`. -/
def calcExcessBlobGas (config : ChainConfig) (parent : Header) (headTimestamp : Nat) :
    Except Err Nat :=
  let used : Except Err (Nat × Nat) :=
    match parent.excessBlobGas, parent.blobGasUsed with
    | some excess, some used => .ok (excess, used)
    | some _, none => .error .panic
    | none, _ => .ok (0, 0)
  match used with
  | .error err => .error err
  | .ok (parentExcessBlobGas, parentBlobGasUsed) =>
    let excessBlobGas := (parentExcessBlobGas + parentBlobGasUsed) % 2 ^ 64
    let targetGas := (((blobConfig config headTimestamp).map BlobConfig.target).getD 0 *
      blobTxBlobGasPerBlob) % 2 ^ 64
    .ok (excessBlobGas - targetGas)

/-- `VerifyEIP4844Header`. -/
def verifyEIP4844Header (config : ChainConfig) (parent header : Header) : Except Err Unit :=
  if UInt64.ofNat header.number ≠ UInt64.ofNat parent.number + 1 then .error .panic
  else
    match header.excessBlobGas, header.blobGasUsed with
    | none, _ => .error .missingExcessBlobGas
    | some _, none => .error .missingBlobGasUsed
    | some excess, some used =>
      let maxBlobGas := maxBlobGasPerBlock config header.time
      if used > maxBlobGas then .error (.blobGasUsedExceeds used maxBlobGas)
      else if used % blobTxBlobGasPerBlob ≠ 0 then .error (.blobGasUsedNotMultiple used)
      else
        match calcExcessBlobGas config parent header.time with
        | .error err => .error err
        | .ok expected =>
          if excess ≠ expected then .error (.wrongExcessBlobGas excess expected) else .ok ()

/-- The fields of the Cancun fork are not there. -/
def verifyNoCancunFields (header : Header) : Except Err Unit :=
  if header.excessBlobGas.isSome then .error .invalidExcessBlobGas
  else if header.blobGasUsed.isSome then .error .invalidBlobGasUsed
  else if header.parentBeaconRoot.isSome then .error .invalidParentBeaconRoot
  else .ok ()

/-! ## The DAO fork -/

/-- `DAOForkBlockExtra`, "dao-hard-fork". -/
def daoForkBlockExtra : Bytes :=
  [0x64, 0x61, 0x6f, 0x2d, 0x68, 0x61, 0x72, 0x64, 0x2d, 0x66, 0x6f, 0x72, 0x6b]

def daoForkExtraRange : Nat := 10

/-- `VerifyDAOHeaderExtraData`. -/
def verifyDAOHeaderExtraData (config : ChainConfig) (header : Header) : Except Err Unit :=
  match config.daoForkBlock with
  | none => .ok ()
  | some fork =>
    if header.number < fork ∨ header.number ≥ fork + daoForkExtraRange then .ok ()
    else if config.daoForkSupport then
      if header.extra ≠ daoForkBlockExtra then .error .ErrBadProDAOExtra else .ok ()
    else if header.extra = daoForkBlockExtra then .error .ErrBadNoDAOExtra
    else .ok ()

/-! ## Difficulty -/

def difficultyBoundDivisor : Int := 2048

def minimumDifficulty : Int := 131072

def durationLimit : Int := 13

def expDiffPeriod : Nat := 100000

/-- The exponential factor, "the bomb". -/
def bomb (periodCount : Nat) : Int := if periodCount > 1 then 2 ^ (periodCount - 2) else 0

/-- The difficulty before the bomb: the parent's, moved by a factor of its 2048th part that is
at least -99. -/
def adjusted (parent : Header) (factor : Int) : Int :=
  let x := if factor < -99 then -99 else factor
  let x := parent.difficulty + (parent.difficulty : Int) / difficultyBoundDivisor * x
  if x < minimumDifficulty then minimumDifficulty else x

def makeDifficultyCalculator (bombDelay : Nat) (time : Nat) (parent : Header) : Int :=
  let bombDelayFromParent := bombDelay - 1
  let x := ((time : Int) - parent.time) / 9
  let x := if parent.uncleHash = Clique.emptyUncleHash then 1 - x else 2 - x
  let fakeBlockNumber := parent.number - bombDelayFromParent
  adjusted parent x + bomb (fakeBlockNumber / expDiffPeriod)

def calcDifficultyEip5133 : Nat → Header → Int := makeDifficultyCalculator 11400000

def calcDifficultyEip4345 : Nat → Header → Int := makeDifficultyCalculator 10700000

def calcDifficultyEip3554 : Nat → Header → Int := makeDifficultyCalculator 9700000

def calcDifficultyEip2384 : Nat → Header → Int := makeDifficultyCalculator 9000000

def calcDifficultyConstantinople : Nat → Header → Int := makeDifficultyCalculator 5000000

def calcDifficultyByzantium : Nat → Header → Int := makeDifficultyCalculator 3000000

def calcDifficultyHomestead (time : Nat) (parent : Header) : Int :=
  adjusted parent (1 - ((time : Int) - parent.time) / 10) +
    bomb ((parent.number + 1) / expDiffPeriod)

def calcDifficultyFrontier (time : Nat) (parent : Header) : Int :=
  let adjust := (parent.difficulty : Int) / difficultyBoundDivisor
  let diff : Int :=
    if (time : Int) - parent.time < durationLimit then parent.difficulty + adjust
    else parent.difficulty - adjust
  let diff := if diff < minimumDifficulty then minimumDifficulty else diff
  -- the bomb is not negative, so the second look at the minimum has no effect
  diff + bomb ((parent.number + 1) / expDiffPeriod)

/-- `CalcDifficulty`. -/
def calcDifficulty (config : ChainConfig) (time : Nat) (parent : Header) : Int :=
  let next := parent.number + 1
  if config.isGrayGlacier next then calcDifficultyEip5133 time parent
  else if config.isArrowGlacier next then calcDifficultyEip4345 time parent
  else if config.isLondon next then calcDifficultyEip3554 time parent
  else if config.isMuirGlacier next then calcDifficultyEip2384 time parent
  else if config.isConstantinople next then calcDifficultyConstantinople time parent
  else if config.isByzantium next then calcDifficultyByzantium time parent
  else if config.isHomestead next then calcDifficultyHomestead time parent
  else calcDifficultyFrontier time parent

end GoEthereum.Consensus

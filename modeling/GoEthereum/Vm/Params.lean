import GoEthereum.Common

/-!
# Protocol parameters

The constants of package `params` that the virtual machine charges and checks with, the
flags of a rule set, and the errors of execution.
-/

namespace GoEthereum

namespace Params

def SstoreSetGas : UInt64 := 20000
def SstoreResetGas : UInt64 := 5000
def SstoreClearGas : UInt64 := 5000
def SstoreRefundGas : UInt64 := 15000

def NetSstoreNoopGas : UInt64 := 200
def NetSstoreInitGas : UInt64 := 20000
def NetSstoreCleanGas : UInt64 := 5000
def NetSstoreDirtyGas : UInt64 := 200

def NetSstoreClearRefund : UInt64 := 15000
def NetSstoreResetRefund : UInt64 := 4800
def NetSstoreResetClearRefund : UInt64 := 19800

def SstoreSentryGasEIP2200 : UInt64 := 2300
def SstoreSetGasEIP2200 : UInt64 := 20000
def SstoreResetGasEIP2200 : UInt64 := 5000
def SstoreClearsScheduleRefundEIP2200 : UInt64 := 15000
def SloadGasEIP2200 : UInt64 := 800

def ColdSloadCostEIP2929 : UInt64 := 2100
def WarmStorageReadCostEIP2929 : UInt64 := 100

def TxAccessListStorageKeyGas : UInt64 := 1900

def SstoreClearsScheduleRefundEIP3529 : UInt64 :=
  SstoreResetGasEIP2200 - ColdSloadCostEIP2929 + TxAccessListStorageKeyGas

def SelfdestructRefundGas : UInt64 := 24000

/-- `params.Rules`, without the chain id. -/
structure Rules where
  isHomestead : Bool
  isEIP150 : Bool
  isEIP155 : Bool
  isEIP158 : Bool
  isEIP2929 : Bool
  isEIP4762 : Bool
  isByzantium : Bool
  isConstantinople : Bool
  isPetersburg : Bool
  isIstanbul : Bool
  isBerlin : Bool
  isLondon : Bool
  isMerge : Bool
  isShanghai : Bool
  isCancun : Bool
  isPrague : Bool
  isOsaka : Bool
  isVerkle : Bool
deriving DecidableEq

end Params

namespace Vm

/-- The errors of execution. -/
inductive Err where
  | ErrOutOfGas
  | ErrCodeStoreOutOfGas
  | ErrDepth
  | ErrInsufficientBalance
  | ErrContractAddressCollision
  | ErrExecutionReverted
  | ErrMaxCodeSizeExceeded
  | ErrMaxInitCodeSizeExceeded
  | ErrInvalidJump
  | ErrWriteProtection
  | ErrReturnDataOutOfBounds
  | ErrGasUintOverflow
  | ErrInvalidCode
  | ErrNonceUintOverflow
  | errStopToken
  | ErrStackUnderflow (stackLen required : Nat)
  | ErrStackOverflow (stackLen limit : Nat)
  | ErrInvalidOpCode (opcode : UInt8)
  /-- "not enough gas for reentrancy sentry" -/
  | reentrancySentry
deriving DecidableEq

end Vm

end GoEthereum

import GoEthereum.Rlp.Encode

/-!
# Transactions

`core/types/transaction.go` and the five kinds of `TxData`. A `*big.Int` is an integer: only
its own methods see the sign, `Uint64` and `BitLen` read the absolute value. A `*uint256.Int`
is a bit vector. The data is what `copy` makes of it, so no field is nil. The time of a
transaction, the cached hash and size, and the sidecar of a blob transaction have no part in
a signature and are left out.
-/

namespace GoEthereum.Types

/-! ## Integers of any size -/

/-- `(*big.Int).BitLen`. -/
def bitLen (x : Int) : Nat := x.natAbs.size

/-- `(*big.Int).Uint64`: the lowest word. -/
def uint64 (x : Int) : UInt64 := UInt64.ofNat x.natAbs

theorem bitLen_le_iff {x : Int} {n : Nat} : bitLen x ≤ n ↔ x.natAbs < 2 ^ n := Nat.size_le

theorem uint64_toNat {x : Int} (h : x.natAbs < 2 ^ 64) : (uint64 x).toNat = x.natAbs := by
  rw [uint64, UInt64.toNat_ofNat', Nat.mod_eq_of_lt h]

/-! ## Signature values -/

def isProtectedV (V : Int) : Bool :=
  if bitLen V ≤ 8 then
    let v := uint64 V
    v ≠ 27 && v ≠ 28 && v ≠ 1 && v ≠ 0
  else true

def deriveChainId (v : Int) : Int :=
  if bitLen v ≤ 64 then
    let v := uint64 v
    if v = 27 ∨ v = 28 then 0 else ((v - 35) / 2).toNat
  else (v - 35) >>> (1 : Nat)

/-! ## The kinds of transactions -/

inductive TxType where
  | LegacyTxType
  | AccessListTxType
  | DynamicFeeTxType
  | BlobTxType
  | SetCodeTxType
deriving DecidableEq

/-- The number of a type, the first byte of its encoding. -/
def TxType.byte : TxType → UInt8
  | .LegacyTxType => 0x00
  | .AccessListTxType => 0x01
  | .DynamicFeeTxType => 0x02
  | .BlobTxType => 0x03
  | .SetCodeTxType => 0x04

structure AccessTuple where
  address : Address
  storageKeys : List Hash
deriving DecidableEq

structure SetCodeAuthorization where
  chainID : BitVec 256
  address : Address
  nonce : UInt64
  v : UInt8
  r : BitVec 256
  s : BitVec 256
deriving DecidableEq

structure LegacyTx where
  nonce : UInt64
  gasPrice : Int
  gas : UInt64
  toAddr : Option Address
  value : Int
  data : Bytes
  v : Int
  r : Int
  s : Int
deriving DecidableEq

structure AccessListTx where
  chainID : Int
  nonce : UInt64
  gasPrice : Int
  gas : UInt64
  toAddr : Option Address
  value : Int
  data : Bytes
  accessList : List AccessTuple
  v : Int
  r : Int
  s : Int
deriving DecidableEq

structure DynamicFeeTx where
  chainID : Int
  nonce : UInt64
  gasTipCap : Int
  gasFeeCap : Int
  gas : UInt64
  toAddr : Option Address
  value : Int
  data : Bytes
  accessList : List AccessTuple
  v : Int
  r : Int
  s : Int
deriving DecidableEq

structure BlobTx where
  chainID : BitVec 256
  nonce : UInt64
  gasTipCap : BitVec 256
  gasFeeCap : BitVec 256
  gas : UInt64
  toAddr : Address
  value : BitVec 256
  data : Bytes
  accessList : List AccessTuple
  blobFeeCap : BitVec 256
  blobHashes : List Hash
  v : BitVec 256
  r : BitVec 256
  s : BitVec 256
deriving DecidableEq

structure SetCodeTx where
  chainID : BitVec 256
  nonce : UInt64
  gasTipCap : BitVec 256
  gasFeeCap : BitVec 256
  gas : UInt64
  toAddr : Address
  value : BitVec 256
  data : Bytes
  accessList : List AccessTuple
  authList : List SetCodeAuthorization
  v : BitVec 256
  r : BitVec 256
  s : BitVec 256
deriving DecidableEq

inductive TxData where
  | legacy (tx : LegacyTx)
  | accessList (tx : AccessListTx)
  | dynamicFee (tx : DynamicFeeTx)
  | blob (tx : BlobTx)
  | setCode (tx : SetCodeTx)
deriving DecidableEq

/-! ## Encoding for the signature -/

/-- A `*big.Int`; `rlp` refuses a negative one. -/
def encodeBig (x : Int) : Option Bytes := if x < 0 then none else some (Rlp.writeInt x.toNat)

def encodeUint64 (x : UInt64) : Option Bytes := some (Rlp.writeInt x.toNat)

def encodeUint256 (x : BitVec 256) : Option Bytes := some (Rlp.writeInt x.toNat)

def encodeBytes (b : Bytes) : Option Bytes := some (Rlp.writeBytes b)

/-- A `*common.Address`, nil for a contract creation. -/
def encodeTo (toAddr : Option Address) : Option Bytes :=
  some ((toAddr.map fun a => Rlp.writeBytes a.1).getD Rlp.emptyString)

def AccessTuple.encode (t : AccessTuple) : Bytes :=
  Rlp.list (Rlp.writeBytes t.address.1 ++
    Rlp.list (t.storageKeys.flatMap fun k => Rlp.writeBytes k.1))

def encodeAccessList (al : List AccessTuple) : Option Bytes :=
  some (Rlp.list (al.flatMap AccessTuple.encode))

def SetCodeAuthorization.encode (a : SetCodeAuthorization) : Bytes :=
  Rlp.list (Rlp.writeInt a.chainID.toNat ++ Rlp.writeBytes a.address.1 ++
    Rlp.writeInt a.nonce.toNat ++ Rlp.writeInt a.v.toNat ++ Rlp.writeInt a.r.toNat ++
    Rlp.writeInt a.s.toNat)

/-- `rlp.Encode` of an `[]any`: a value that cannot be encoded leaves nothing written. -/
def encodeList (items : List (Option Bytes)) : Bytes :=
  match items.mapM id with
  | some parts => Rlp.list parts.flatten
  | none => []

def rlpHash (keccak : Bytes → Hash) (items : List (Option Bytes)) : Hash :=
  keccak (encodeList items)

def prefixedRlpHash (keccak : Bytes → Hash) (byte : UInt8) (items : List (Option Bytes)) : Hash :=
  keccak (byte :: encodeList items)

namespace TxData

def txType : TxData → TxType
  | .legacy _ => .LegacyTxType
  | .accessList _ => .AccessListTxType
  | .dynamicFee _ => .DynamicFeeTxType
  | .blob _ => .BlobTxType
  | .setCode _ => .SetCodeTxType

def chainID : TxData → Int
  | .legacy tx => deriveChainId tx.v
  | .accessList tx => tx.chainID
  | .dynamicFee tx => tx.chainID
  | .blob tx => tx.chainID.toNat
  | .setCode tx => tx.chainID.toNat

/-- `rawSignatureValues`: V, R, S. -/
def rawSignatureValues : TxData → Int × Int × Int
  | .legacy tx => (tx.v, tx.r, tx.s)
  | .accessList tx => (tx.v, tx.r, tx.s)
  | .dynamicFee tx => (tx.v, tx.r, tx.s)
  | .blob tx => (tx.v.toNat, tx.r.toNat, tx.s.toNat)
  | .setCode tx => (tx.v.toNat, tx.r.toNat, tx.s.toNat)

/-- `Protected`. -/
def isProtected : TxData → Bool
  | .legacy tx => isProtectedV tx.v
  | _ => true

def sigHash (keccak : Bytes → Hash) (chainID : Int) : TxData → Hash
  | .legacy tx =>
    rlpHash keccak [encodeUint64 tx.nonce, encodeBig tx.gasPrice, encodeUint64 tx.gas,
      encodeTo tx.toAddr, encodeBig tx.value, encodeBytes tx.data, encodeBig chainID,
      encodeUint64 0, encodeUint64 0]
  | .accessList tx =>
    prefixedRlpHash keccak TxType.AccessListTxType.byte [encodeBig chainID,
      encodeUint64 tx.nonce, encodeBig tx.gasPrice, encodeUint64 tx.gas, encodeTo tx.toAddr,
      encodeBig tx.value, encodeBytes tx.data, encodeAccessList tx.accessList]
  | .dynamicFee tx =>
    prefixedRlpHash keccak TxType.DynamicFeeTxType.byte [encodeBig chainID,
      encodeUint64 tx.nonce, encodeBig tx.gasTipCap, encodeBig tx.gasFeeCap,
      encodeUint64 tx.gas, encodeTo tx.toAddr, encodeBig tx.value, encodeBytes tx.data,
      encodeAccessList tx.accessList]
  | .blob tx =>
    prefixedRlpHash keccak TxType.BlobTxType.byte [encodeBig chainID, encodeUint64 tx.nonce,
      encodeUint256 tx.gasTipCap, encodeUint256 tx.gasFeeCap, encodeUint64 tx.gas,
      encodeBytes tx.toAddr.1, encodeUint256 tx.value, encodeBytes tx.data,
      encodeAccessList tx.accessList, encodeUint256 tx.blobFeeCap,
      some (Rlp.list (tx.blobHashes.flatMap fun h => Rlp.writeBytes h.1))]
  | .setCode tx =>
    prefixedRlpHash keccak TxType.SetCodeTxType.byte [encodeBig chainID, encodeUint64 tx.nonce,
      encodeUint256 tx.gasTipCap, encodeUint256 tx.gasFeeCap, encodeUint64 tx.gas,
      encodeBytes tx.toAddr.1, encodeUint256 tx.value, encodeBytes tx.data,
      encodeAccessList tx.accessList,
      some (Rlp.list (tx.authList.flatMap SetCodeAuthorization.encode))]

/-- The fields `FrontierSigner.Hash` reads: `Nonce`, `GasPrice`, `Gas`, `To`, `Value`, `Data`.
The price of a transaction with a fee cap is that cap. -/
def plainFields : TxData → List (Option Bytes)
  | .legacy tx =>
    [encodeUint64 tx.nonce, encodeBig tx.gasPrice, encodeUint64 tx.gas, encodeTo tx.toAddr,
      encodeBig tx.value, encodeBytes tx.data]
  | .accessList tx =>
    [encodeUint64 tx.nonce, encodeBig tx.gasPrice, encodeUint64 tx.gas, encodeTo tx.toAddr,
      encodeBig tx.value, encodeBytes tx.data]
  | .dynamicFee tx =>
    [encodeUint64 tx.nonce, encodeBig tx.gasFeeCap, encodeUint64 tx.gas, encodeTo tx.toAddr,
      encodeBig tx.value, encodeBytes tx.data]
  | .blob tx =>
    [encodeUint64 tx.nonce, encodeUint256 tx.gasFeeCap, encodeUint64 tx.gas,
      encodeTo (some tx.toAddr), encodeUint256 tx.value, encodeBytes tx.data]
  | .setCode tx =>
    [encodeUint64 tx.nonce, encodeUint256 tx.gasFeeCap, encodeUint64 tx.gas,
      encodeTo (some tx.toAddr), encodeUint256 tx.value, encodeBytes tx.data]

/-- The low 256 bits of an integer, as `SetFromBig` stores them. -/
def setFromBig (x : Int) : BitVec 256 := BitVec.ofInt 256 x

/-- `setSignatureValues`. A blob transaction drops what does not fit its chain ID, a set-code
transaction panics (`none`), and so does either of them without a chain ID. -/
def setSignatureValues (chainID : Option Int) (v r s : Int) : TxData → Option TxData
  | .legacy tx => some (.legacy { tx with v := v, r := r, s := s })
  | .accessList tx =>
    chainID.map fun chainID =>
      .accessList { tx with chainID := chainID, v := v, r := r, s := s }
  | .dynamicFee tx =>
    chainID.map fun chainID =>
      .dynamicFee { tx with chainID := chainID, v := v, r := r, s := s }
  | .blob tx =>
    chainID.map fun chainID =>
      .blob { tx with
        chainID := setFromBig chainID
        v := setFromBig v
        r := setFromBig r
        s := setFromBig s }
  | .setCode tx =>
    chainID.bind fun chainID =>
      if bitLen chainID > 256 then none
      else some (.setCode { tx with
        chainID := setFromBig chainID
        v := setFromBig v
        r := setFromBig r
        s := setFromBig s })

end TxData

end GoEthereum.Types

import GoEthereum.Types.Transaction

/-!
# Signers

`core/types/transaction_signing.go`: the signers, `SignTx`, and `Sender` with its cache. The
hash, signing with a key and the recovery of a public key are parameters.

What a signer answers about a transaction depends on the signer only through whether it
accepts it: `origin` is the sender for all of them. A signature made with a signer is one this
signer accepts, and the cache of `Sender` cannot be told from none.
-/

namespace GoEthereum.Types

/-- `crypto.Keccak256`, `crypto.Sign`, `crypto.Ecrecover`, and the uncompressed public key of a
private key. -/
structure Crypto (Key : Type) where
  keccak : Bytes → Hash
  sign : Hash → Key → Option Bytes
  ecrecover : Hash → Bytes → Option Bytes
  publicKey : Key → Bytes

inductive Err where
  | ErrTxTypeNotSupported
  | ErrInvalidChainId (have_ want : Int)
  | ErrInvalidSig
  | sign              -- whatever crypto.Sign failed with
  | recover           -- whatever crypto.Ecrecover failed with
  | invalidPublicKey
  | panic
deriving DecidableEq

def secp256k1N : Int := 0xfffffffffffffffffffffffffffffffebaaedce6af48a03bbfd25e8cd0364141

def secp256k1halfN : Int := secp256k1N / 2

/-- `crypto.SignatureLength`. -/
def signatureLength : Nat := 65

/-- `crypto.ValidateSignatureValues`. -/
def validateSignatureValues (v : UInt8) (r s : Int) (homestead : Bool) : Bool :=
  if r < 1 ∨ s < 1 then false
  else if homestead ∧ s > secp256k1halfN then false
  else r < secp256k1N && s < secp256k1N && (v = 0 || v = 1)

/-- The address of an uncompressed public key. -/
def pubkeyToAddress (keccak : Bytes → Hash) (pub : Bytes) : Address :=
  bytesToAddress ((keccak (pub.drop 1)).1.drop 12)

variable {Key : Type}

/-- `recoverPlain`. R and S are below the order of the curve when their bytes are laid out. -/
def recoverPlain (ec : Crypto Key) (sighash : Hash) (R S Vb : Int) (homestead : Bool) :
    Except Err Address :=
  if bitLen Vb > 8 then .error .ErrInvalidSig
  else
    let V := (uint64 Vb - 27).toUInt8
    if !validateSignatureValues V R S homestead then .error .ErrInvalidSig
    else
      let sig := beBytes 32 R.natAbs ++ beBytes 32 S.natAbs ++ [V]
      match ec.ecrecover sighash sig with
      | none => .error .recover
      | some pub =>
        if pub.head? ≠ some 4 then .error .invalidPublicKey
        else .ok (pubkeyToAddress ec.keccak pub)

/-- `decodeSignature`: R, S and V. -/
def decodeSignature (sig : Bytes) : Except Err (Int × Int × Int) :=
  if sig.length ≠ signatureLength then .error .panic
  else .ok (beNat (sig.take 32), beNat ((sig.drop 32).take 32), (sig.getD 64 0 + 27).toNat)

/-! ## The signers -/

/-- The signers for legacy transactions. -/
inductive LegacySigner where
  | FrontierSigner
  | HomesteadSigner
  | EIP155Signer (chainId : Int)
deriving DecidableEq

namespace LegacySigner

def chainID : LegacySigner → Option Int
  | .FrontierSigner => none
  | .HomesteadSigner => none
  | .EIP155Signer chainId => some chainId

/-- `Equal`. -/
def equal : LegacySigner → LegacySigner → Bool
  | .FrontierSigner, .FrontierSigner => true
  | .HomesteadSigner, .HomesteadSigner => true
  | .EIP155Signer chainId, .EIP155Signer chainId' => chainId' = chainId
  | _, _ => false

/-- `Hash`. -/
def hash (ec : Crypto Key) (s : LegacySigner) (tx : TxData) : Hash :=
  match s with
  | .FrontierSigner => rlpHash ec.keccak tx.plainFields
  | .HomesteadSigner => rlpHash ec.keccak tx.plainFields
  | .EIP155Signer chainId => tx.sigHash ec.keccak chainId

/-- The `Sender` of `FrontierSigner` and of `HomesteadSigner`. -/
def plainSender (ec : Crypto Key) (homestead : Bool) (tx : TxData) : Except Err Address :=
  if tx.txType ≠ .LegacyTxType then .error .ErrTxTypeNotSupported
  else
    let (v, r, s) := tx.rawSignatureValues
    recoverPlain ec (rlpHash ec.keccak tx.plainFields) r s v homestead

def sender (ec : Crypto Key) (signer : LegacySigner) (tx : TxData) : Except Err Address :=
  match signer with
  | .FrontierSigner => plainSender ec false tx
  | .HomesteadSigner => plainSender ec true tx
  | .EIP155Signer chainId =>
    if tx.txType ≠ .LegacyTxType then .error .ErrTxTypeNotSupported
    else if !tx.isProtected then plainSender ec true tx
    else if tx.chainID ≠ chainId then .error (.ErrInvalidChainId tx.chainID chainId)
    else
      let (V, R, S) := tx.rawSignatureValues
      recoverPlain ec (tx.sigHash ec.keccak chainId) R S (V - chainId * 2 - 8) true

/-- `SignatureValues`: R, S and V. -/
def signatureValues (signer : LegacySigner) (tx : TxData) (sig : Bytes) :
    Except Err (Int × Int × Int) :=
  if tx.txType ≠ .LegacyTxType then .error .ErrTxTypeNotSupported
  else
    match signer with
    | .FrontierSigner => decodeSignature sig
    | .HomesteadSigner => decodeSignature sig
    | .EIP155Signer chainId =>
      match decodeSignature sig with
      | .error err => .error err
      | .ok (R, S, V) =>
        if chainId ≠ 0 then .ok (R, S, (sig.getD 64 0 + 35).toNat + chainId * 2)
        else .ok (R, S, V)

end LegacySigner

/-- `forks.Fork`. -/
inductive Fork where
  | Frontier
  | FrontierThawing
  | Homestead
  | DAO
  | TangerineWhistle
  | SpuriousDragon
  | Byzantium
  | Constantinople
  | Petersburg
  | Istanbul
  | MuirGlacier
  | Berlin
  | London
  | ArrowGlacier
  | GrayGlacier
  | Paris
  | Shanghai
  | Cancun
  | Prague
  | Osaka
deriving DecidableEq

/-- `modernSigner`. -/
structure ModernSigner where
  txtypes : Finset TxType
  chainID : Int
  legacy : LegacySigner
deriving DecidableEq

/-- `newModernSigner`; `none` is its panic. -/
def newModernSigner (chainID : Int) (fork : Fork) : Option ModernSigner :=
  if chainID ≤ 0 then none
  else
    let legacy : LegacySigner :=
      if fork.ctorIdx ≥ Fork.SpuriousDragon.ctorIdx then .EIP155Signer chainID
      else if fork.ctorIdx ≥ Fork.Homestead.ctorIdx then .HomesteadSigner
      else .FrontierSigner
    let txtypes : Finset TxType := {.LegacyTxType}
    let txtypes :=
      if fork.ctorIdx ≥ Fork.Berlin.ctorIdx then insert .AccessListTxType txtypes else txtypes
    let txtypes :=
      if fork.ctorIdx ≥ Fork.London.ctorIdx then insert .DynamicFeeTxType txtypes else txtypes
    let txtypes :=
      if fork.ctorIdx ≥ Fork.Cancun.ctorIdx then insert .BlobTxType txtypes else txtypes
    let txtypes :=
      if fork.ctorIdx ≥ Fork.Prague.ctorIdx then insert .SetCodeTxType txtypes else txtypes
    some { txtypes := txtypes, chainID := chainID, legacy := legacy }

inductive Signer where
  | legacy (s : LegacySigner)
  | modern (s : ModernSigner)
deriving DecidableEq

namespace Signer

def chainID : Signer → Option Int
  | .legacy s => s.chainID
  | .modern s => some s.chainID

/-- `Equal`. -/
def equal : Signer → Signer → Bool
  | .legacy s, .legacy s' => s.equal s'
  | .modern s, .modern s' =>
    s.chainID = s'.chainID && s.txtypes = s'.txtypes && s.legacy.equal s'.legacy
  | _, _ => false

/-- `Hash`. -/
def hash (ec : Crypto Key) (s : Signer) (tx : TxData) : Hash :=
  match s with
  | .legacy s => s.hash ec tx
  | .modern s => tx.sigHash ec.keccak s.chainID

/-- `supportsType`, or that of the legacy signers. -/
def supportsType (s : Signer) (txtype : TxType) : Prop :=
  match s with
  | .legacy _ => txtype = .LegacyTxType
  | .modern s => txtype ∈ s.txtypes

/-- `Sender`. -/
def sender (ec : Crypto Key) (s : Signer) (tx : TxData) : Except Err Address :=
  match s with
  | .legacy s => s.sender ec tx
  | .modern s =>
    if tx.txType ∉ s.txtypes then .error .ErrTxTypeNotSupported
    else if tx.txType = .LegacyTxType then s.legacy.sender ec tx
    else if tx.chainID ≠ s.chainID then .error (.ErrInvalidChainId tx.chainID s.chainID)
    else
      let (V, R, S) := tx.rawSignatureValues
      recoverPlain ec (tx.sigHash ec.keccak s.chainID) R S (V + 27) true

/-- `SignatureValues`: R, S and V. -/
def signatureValues (s : Signer) (tx : TxData) (sig : Bytes) : Except Err (Int × Int × Int) :=
  match s with
  | .legacy s => s.signatureValues tx sig
  | .modern s =>
    if tx.txType ∉ s.txtypes then .error .ErrTxTypeNotSupported
    else if tx.txType = .LegacyTxType then s.legacy.signatureValues tx sig
    else if tx.chainID ≠ 0 ∧ tx.chainID ≠ s.chainID then
      .error (.ErrInvalidChainId tx.chainID s.chainID)
    else
      match decodeSignature sig with
      | .error err => .error err
      | .ok (R, S, _) => .ok (R, S, (sig.getD 64 0).toNat)

end Signer

/-! ## Transactions and their cached sender -/

/-- `Transaction`, with the cache `from`. -/
structure Transaction where
  inner : TxData
  sigCache : Option (Signer × Address)

/-- `WithSignature`. -/
def withSignature (tx : Transaction) (signer : Signer) (sig : Bytes) : Except Err Transaction :=
  match signer.signatureValues tx.inner sig with
  | .error err => .error err
  | .ok (r, s, v) =>
    match tx.inner.setSignatureValues signer.chainID v r s with
    | none => .error .panic
    | some inner => .ok { inner := inner, sigCache := none }

/-- `SignTx`. -/
def signTx (ec : Crypto Key) (tx : Transaction) (s : Signer) (prv : Key) : Except Err Transaction :=
  match ec.sign (s.hash ec tx.inner) prv with
  | none => .error .sign
  | some sig => withSignature tx s sig

/-- `Sender`, with the transaction and its cache after the call. -/
def sender (ec : Crypto Key) (signer : Signer) (tx : Transaction) :
    Except Err Address × Transaction :=
  let fresh :=
    match signer.sender ec tx.inner with
    | .error err => (.error err, tx)
    | .ok addr => (.ok addr, { tx with sigCache := some (signer, addr) })
  match tx.sigCache with
  | some (cached, addr) => if cached.equal signer then (.ok addr, tx) else fresh
  | none => fresh

/-- The answers of a sequence of calls of `Sender` on one transaction. -/
def senders (ec : Crypto Key) : List Signer → Transaction → List (Except Err Address)
  | [], _ => []
  | signer :: signers, tx =>
    (sender ec signer tx).1 :: senders ec signers (sender ec signer tx).2

end GoEthereum.Types

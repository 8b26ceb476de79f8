import GoEthereum.Clique.RewardAbi
import GoEthereum.Rlp.Encode

/-!
# The Clique engine and its block reward

`consensus/clique`: the signature cache and `ecrecover`, the reward snapshots
fed by `ProcessRewardEvents`, `Prepare`, `Finalize` and `FinalizeAndAssemble`.

Two things come from outside the repository's Go code and are parameters: the
hash function and the signature recovery of `crypto.Ecrecover`. A Go map that
was never allocated is `none`; reading it finds nothing, writing it panics.
A function that may panic returns `Except Panic`.
-/

namespace GoEthereum.Clique

/-- Run-time panics of the functions below. -/
inductive Panic where
  | indexOutOfRange
  | assignToNilMap
  | divideByZero
  | unexpected (field : String)   -- encodeSigHeader's "unexpected … in clique"
deriving DecidableEq, Repr

/-- Errors the engine returns. -/
inductive Err where
  | missingSignature
  | recoverFailed
  | unknownAncestor
  | withdrawals       -- clique does not support withdrawals
  | snapshot          -- whatever c.snapshot failed with
deriving DecidableEq, Repr

/-- `keccak256` and `crypto.Ecrecover`: a digest and a 65-byte signature give
the uncompressed public key, or nothing. -/
structure Crypto where
  keccak : Bytes → Hash
  ecrecover : Hash → Bytes → Option Bytes

/-! ## Headers -/

/-- `types.Header`. -/
structure Header where
  parentHash : Hash
  uncleHash : Hash
  coinbase : Address
  root : Hash
  txHash : Hash
  receiptHash : Hash
  bloom : Bytes
  difficulty : Nat
  number : Nat
  gasLimit : Nat
  gasUsed : Nat
  time : Nat
  extra : Bytes
  mixDigest : Hash
  nonce : Bytes
  baseFee : Option Nat
  withdrawalsHash : Option Hash
  blobGasUsed : Option Nat
  excessBlobGas : Option Nat
  parentBeaconRoot : Option Hash
  requestsHash : Option Hash
deriving DecidableEq

def extraVanity : Nat := 32

/-- `crypto.SignatureLength`. -/
def extraSeal : Nat := 65

/-- The fields that head both the header's own encoding and the one that is
signed; only the extra data differs. -/
def Header.encodeFields (h : Header) (extra : Bytes) : Bytes :=
  Rlp.writeBytes h.parentHash.1 ++ Rlp.writeBytes h.uncleHash.1 ++
    Rlp.writeBytes h.coinbase.1 ++ Rlp.writeBytes h.root.1 ++
    Rlp.writeBytes h.txHash.1 ++ Rlp.writeBytes h.receiptHash.1 ++
    Rlp.writeBytes h.bloom ++ Rlp.writeInt h.difficulty ++
    Rlp.writeInt h.number ++ Rlp.writeInt h.gasLimit ++ Rlp.writeInt h.gasUsed ++
    Rlp.writeInt h.time ++ Rlp.writeBytes extra ++ Rlp.writeBytes h.mixDigest.1 ++
    Rlp.writeBytes h.nonce

/-- An optional field is written when it or a later one is present. -/
def optionalField (present : Bool) (field : Option Bytes) : Bytes :=
  if present then field.getD Rlp.emptyString else []

/-- `(*Header).EncodeRLP`. -/
def Header.encodeRLP (h : Header) : Bytes :=
  let t6 := h.requestsHash.isSome
  let t5 := h.parentBeaconRoot.isSome || t6
  let t4 := h.excessBlobGas.isSome || t5
  let t3 := h.blobGasUsed.isSome || t4
  let t2 := h.withdrawalsHash.isSome || t3
  let t1 := h.baseFee.isSome || t2
  Rlp.list (h.encodeFields h.extra ++
    optionalField t1 (h.baseFee.map Rlp.writeInt) ++
    optionalField t2 (h.withdrawalsHash.map fun x => Rlp.writeBytes x.1) ++
    optionalField t3 (h.blobGasUsed.map Rlp.writeInt) ++
    optionalField t4 (h.excessBlobGas.map Rlp.writeInt) ++
    optionalField t5 (h.parentBeaconRoot.map fun x => Rlp.writeBytes x.1) ++
    optionalField t6 (h.requestsHash.map fun x => Rlp.writeBytes x.1))

/-- `(*Header).Hash`. -/
def Header.hash (cr : Crypto) (h : Header) : Hash := cr.keccak h.encodeRLP

/-- `encodeSigHeader`: everything but the seal. Slicing the seal off panics on
a short extra field, and so does any field of a later fork. -/
def encodeSigHeader (h : Header) : Except Panic Bytes :=
  if h.extra.length < extraSeal then .error .indexOutOfRange
  else if h.withdrawalsHash.isSome then .error (.unexpected "withdrawal hash")
  else if h.excessBlobGas.isSome then .error (.unexpected "excess blob gas")
  else if h.blobGasUsed.isSome then .error (.unexpected "blob gas used")
  else if h.parentBeaconRoot.isSome then .error (.unexpected "parent beacon root")
  else .ok (Rlp.list (h.encodeFields (h.extra.take (h.extra.length - extraSeal)) ++
    (h.baseFee.map Rlp.writeInt).getD []))

/-- `SealHash`. -/
def sealHash (cr : Crypto) (h : Header) : Except Panic Hash :=
  (encodeSigHeader h).map cr.keccak

/-! ## The signature cache -/

/-- `sigLRU`: the most recently used entry first. -/
abbrev SigLRU : Type := List (Hash × Address)

def inmemorySignatures : Nat := 4096

/-- `(*BasicLRU).Get`: the entry found moves to the front. -/
def SigLRU.get (cache : SigLRU) (key : Hash) : Option (Address × SigLRU) :=
  match cache.find? (fun e => decide (e.1 = key)) with
  | none => none
  | some e => some (e.2, e :: cache.erase e)

/-- `(*BasicLRU).Add`: the oldest entry makes room for a new one. -/
def SigLRU.add (cache : SigLRU) (key : Hash) (value : Address) : SigLRU :=
  match cache.find? (fun e => decide (e.1 = key)) with
  | some e => (key, value) :: cache.erase e
  | none =>
    if inmemorySignatures ≤ cache.length then (key, value) :: cache.dropLast
    else (key, value) :: cache

/-- The address of an uncompressed public key. -/
def pubkeyToAddress (cr : Crypto) (pubkey : Bytes) : Address :=
  bytesToAddress ((cr.keccak (pubkey.drop 1)).1.drop 12)

/-- `header.Extra[len(header.Extra)-extraSeal:]`. -/
def Header.signature (h : Header) : Bytes := h.extra.drop (h.extra.length - extraSeal)

/-- The recovery at the heart of `ecrecover`, without the cache. The address is
the zero one when there is an error. -/
def recoverSigner (cr : Crypto) (h : Header) :
    Except Panic (Address × Option Err) :=
  if h.extra.length < extraSeal then .ok (zeroAddress, some .missingSignature)
  else
    match sealHash cr h with
    | .error p => .error p
    | .ok hash =>
      match cr.ecrecover hash h.signature with
      | none => .ok (zeroAddress, some .recoverFailed)
      | some pubkey => .ok (pubkeyToAddress cr pubkey, none)

/-- `ecrecover`: a cached address is returned as it is, a recovered one is
cached. -/
def ecrecover (cr : Crypto) (h : Header) (cache : SigLRU) :
    Except Panic (Address × Option Err × SigLRU) :=
  match cache.get (h.hash cr) with
  | some (address, cache) => .ok (address, none, cache)
  | none =>
    match recoverSigner cr h with
    | .error p => .error p
    | .ok (address, none) => .ok (address, none, cache.add (h.hash cr) address)
    | .ok (address, some e) => .ok (address, some e, cache)

/-! ## The engine -/

structure RewardSnapshot where
  signer : Address
  receivers : List Address
  weights : List (BitVec 64)

/-- `params.CliqueConfig`. -/
structure Config where
  period : Nat
  epoch : Nat

/-- The fields of `Clique` the functions of this module read. -/
structure Engine where
  config : Config
  signatures : SigLRU
  proposals : List (Address × Bool)
  signer : Address
  rewardSnapshots : Option (Address → Option RewardSnapshot)

def epochLength : Nat := 30000

/-- `New`. The reward map is not among the fields it sets. -/
def new (config : Config) : Engine where
  config := { config with epoch := if config.epoch = 0 then epochLength else config.epoch }
  signatures := []
  proposals := []
  signer := zeroAddress
  rewardSnapshots := none

/-- `(*Clique).Author`. -/
def author (cr : Crypto) (c : Engine) (h : Header) :
    Except Panic (Address × Option Err × Engine) :=
  (ecrecover cr h c.signatures).map fun r => (r.1, r.2.1, { c with signatures := r.2.2 })

/-! ## Reward events -/

/-- The part of `types.Log` the engine looks at. -/
structure Log where
  topics : List Hash
  data : Bytes

structure Receipt where
  logs : List Log

/-- The bytes of `RewardSetUpdated(address,address[],uint256[])`. -/
def rewardSetUpdated : Bytes :=
  [0x52, 0x65, 0x77, 0x61, 0x72, 0x64, 0x53, 0x65, 0x74, 0x55, 0x70, 0x64,
    0x61, 0x74, 0x65, 0x64, 0x28, 0x61, 0x64, 0x64, 0x72, 0x65, 0x73, 0x73,
    0x2c, 0x61, 0x64, 0x64, 0x72, 0x65, 0x73, 0x73, 0x5b, 0x5d, 0x2c, 0x75,
    0x69, 0x6e, 0x74, 0x32, 0x35, 0x36, 0x5b, 0x5d, 0x29]

def rewardSetUpdatedSig (cr : Crypto) : Hash := cr.keccak rewardSetUpdated

/-- `log.Topics[1]` cut to an address. -/
def topicAddress (topic : Hash) : Address := bytesToAddress topic.1

/-- `w.Uint64()`: the low 64 bits of an announced weight. -/
def weightUint64 (w : Nat) : BitVec 64 := BitVec.ofNat 64 w

/-- `c.rewardSnapshots[signer] = snap`. -/
def Engine.setRewardSnapshot (c : Engine) (snap : RewardSnapshot) :
    Except Panic Engine :=
  match c.rewardSnapshots with
  | none => .error .assignToNilMap
  | some m =>
    .ok { c with
          rewardSnapshots := some (fun a => if a = snap.signer then some snap else m a) }

/-- The body of the inner loop of `ProcessRewardEvents`. -/
def processLog (cr : Crypto) (c : Engine) (log : Log) : Except Panic Engine :=
  match log.topics with
  | [] => .ok c
  | topic0 :: rest =>
    if topic0 ≠ rewardSetUpdatedSig cr then .ok c
    else
      match rest with
      | [] => .error .indexOutOfRange
      | topic1 :: _ =>
        match unpackRewardSet log.data with
        | none => .ok c
        | some (receivers, weights) =>
          c.setRewardSnapshot
            { signer := topicAddress topic1
              receivers := receivers
              weights := weights.map weightUint64 }

def processLogs (cr : Crypto) : Engine → List Log → Except Panic Engine
  | c, [] => .ok c
  | c, log :: logs =>
    match processLog cr c log with
    | .error p => .error p
    | .ok c => processLogs cr c logs

/-- `(*Clique).ProcessRewardEvents`: all logs of all receipts in order. -/
def processRewardEvents (cr : Crypto) (c : Engine) (receipts : List Receipt) :
    Except Panic Engine :=
  processLogs cr c (receipts.flatMap Receipt.logs)

/-! ## The state -/

/-- `uint256.Int`. -/
abbrev Word : Type := BitVec 256

/-- `types.StateAccount`. -/
structure Account where
  nonce : Nat
  balance : Word
  storageRoot : Hash
  codeHash : Hash
deriving DecidableEq

/-- The account map of a `StateDB` and the addresses its journal marks dirty. -/
structure StateDB where
  emptyRoot : Hash        -- types.EmptyRootHash
  emptyCode : Hash        -- types.EmptyCodeHash
  accounts : Address → Option Account
  dirties : Address → Bool

/-- `types.NewEmptyStateAccount`. -/
def StateDB.newAccount (s : StateDB) : Account where
  nonce := 0
  balance := 0
  storageRoot := s.emptyRoot
  codeHash := s.emptyCode

/-- `(*stateObject).empty`. -/
def StateDB.isEmpty (s : StateDB) (a : Account) : Bool :=
  a.nonce = 0 && a.balance = 0 && a.codeHash = s.emptyCode

def StateDB.balance (s : StateDB) (a : Address) : Word :=
  match s.accounts a with
  | none => 0
  | some acct => acct.balance

/-- Write an account and mark it dirty. -/
def StateDB.put (s : StateDB) (a : Address) (acct : Account) : StateDB :=
  { s with
    accounts := fun b => if b = a then some acct else s.accounts b
    dirties := fun b => if b = a then true else s.dirties b }

/-- `(*StateDB).AddBalance`: the account is created when it does not exist; a
zero amount only touches an empty account. -/
def StateDB.addBalance (s : StateDB) (a : Address) (amount : Word) : StateDB :=
  match s.accounts a with
  | none => s.put a { s.newAccount with balance := s.newAccount.balance + amount }
  | some acct =>
    if amount = 0 then if s.isEmpty acct then s.put a acct else s
    else s.put a { acct with balance := acct.balance + amount }

/-- `(*StateDB).Finalise`. -/
def StateDB.finalise (s : StateDB) (deleteEmptyObjects : Bool) : StateDB :=
  { s with
    accounts := fun a =>
      match s.accounts a with
      | none => none
      | some acct =>
        if s.dirties a && deleteEmptyObjects && s.isEmpty acct then none else some acct
    dirties := fun _ => false }

/-! ## Finalising a block -/

/-- `uint256.NewInt(1e18)`. -/
def total : Word := BitVec.ofNat 256 (10 ^ 18)

/-- `var sum uint64; for … { sum += w }`. -/
def weightSum (weights : List (BitVec 64)) : BitVec 64 :=
  weights.foldl (fun sum w => sum + w) 0

/-- `total * w / sum` in 256 bits; the quotient by zero is zero, as in
`uint256`. -/
def part (w sum : BitVec 64) : Word := total * w.setWidth 256 / sum.setWidth 256

/-- The `AddBalance` calls of the loop over the receivers. `snap.Weights[i]`
panics when there are more receivers than weights. -/
def receiverCredits (weights : List (BitVec 64)) (sum : BitVec 64) :
    Nat → List Address → Except Panic (List (Address × Word))
  | _, [] => .ok []
  | i, r :: rs =>
    match weights[i]? with
    | none => .error .indexOutOfRange
    | some w =>
      match receiverCredits weights sum (i + 1) rs with
      | .error p => .error p
      | .ok credits => .ok ((r, part w sum) :: credits)

/-- `remain` after the loop: every part is subtracted in 256 bits. -/
def remain (credits : List (Address × Word)) : Word :=
  credits.foldl (fun remain e => remain - e.2) total

/-- The `AddBalance` calls `Finalize` makes for a block of `signer`. -/
def rewardCredits (c : Engine) (signer : Address) :
    Except Panic (List (Address × Word)) :=
  match c.rewardSnapshots.bind (fun m => m signer) with
  | none => .ok [(signer, total)]
  | some snap =>
    match receiverCredits snap.weights (weightSum snap.weights) 0 snap.receivers with
    | .error p => .error p
    | .ok credits =>
      if remain credits = 0 then .ok credits
      else .ok (credits ++ [(signer, remain credits)])

def StateDB.addBalances (s : StateDB) (credits : List (Address × Word)) : StateDB :=
  credits.foldl (fun s e => s.addBalance e.1 e.2) s

/-- `(*Clique).Finalize`. The error of `Author` is dropped, so a header without
a valid seal is finalised for the zero address. -/
def finalize (cr : Crypto) (c : Engine) (h : Header) (s : StateDB) :
    Except Panic (StateDB × Engine) :=
  match author cr c h with
  | .error p => .error p
  | .ok (signer, _, c) =>
    match rewardCredits c signer with
    | .error p => .error p
    | .ok credits => .ok (s.addBalances credits, c)

end GoEthereum.Clique

import GoEthereum.State.AccessList
import GoEthereum.Trie.Trie

/-!
# The state of a block's execution

`core/state/journal.go`, `core/state/state_object.go` and the accessors of
`core/state/statedb.go`. A state keeps the accounts it has read or written as objects; an
object that is not there is read from the database. Every change leaves an entry in the
journal that can undo it.

Go's objects are pointers into the map `stateObjects`. Here a method of an object takes
the object and the state it belongs to and returns both; the caller puts the object back.
`T` is the type of the tries. Prefetching, witnesses and metrics are left out.
-/

namespace GoEthereum.State

/-- `uint256.Int`. -/
abbrev Word : Type := BitVec 256

/-- `types.StateAccount`. -/
structure StateAccount where
  nonce : UInt64
  balance : Word
  root : Hash
  codeHash : Hash
deriving DecidableEq

/-- `types.EmptyCodeHash`. -/
def emptyCodeHash (keccak : Bytes → Hash) : Hash := keccak []

/-- `types.NewEmptyStateAccount`. -/
def newEmptyStateAccount (keccak : Bytes → Hash) : StateAccount where
  nonce := 0
  balance := 0
  root := Trie.emptyRootHash
  codeHash := emptyCodeHash keccak

/-- `stateObject`; its address is the key it is found under. -/
structure StateObject (T : Type) where
  origin : Option StateAccount
  data : StateAccount
  trie : Option T
  code : Bytes
  originStorage : Storage
  dirtyStorage : Storage
  pendingStorage : Storage
  uncommittedStorage : Storage
  dirtyCode : Bool
  selfDestructed : Bool
  newContract : Bool

/-- `Reader`. A code that is not there is empty; `cachingCodeReader` has no errors. -/
structure Reader where
  Account : Address → Except Trie.Err (Option StateAccount)
  Storage : Address → Hash → Except Trie.Err Hash
  Code : Hash → Bytes

def Reader.CodeSize (r : Reader) (codeHash : Hash) : Nat := (r.Code codeHash).length

/-- The errors `setError` is called with. -/
inductive DbErr where
  | getStateObject (addr : Address) (err : Trie.Err)
  | storage (err : Trie.Err)
  | codeNotFound (codeHash : Hash)
  | updateTrie (err : Trie.Err)
  | updateStateObject (addr : Address) (err : Trie.Err)
  | deleteStateObject (addr : Address) (err : Trie.Err)
deriving DecidableEq

/-- `types.Log`. -/
structure Log where
  address : Address
  topics : List Hash
  data : Bytes
  blockNumber : Nat
  txHash : Hash
  txIndex : Nat
  blockHash : Hash
  index : Nat
deriving DecidableEq

/-- `mutation`: whether the account was deleted, and whether the trie has it. -/
structure Mutation where
  isDelete : Bool
  applied : Bool
deriving DecidableEq

/-! ## The journal -/

/-- `journalEntry`. -/
inductive JournalEntry where
  | createObjectChange (account : Address)
  | createContractChange (account : Address)
  | selfDestructChange (account : Address)
  | balanceChange (account : Address) (prev : Word)
  | nonceChange (account : Address) (prev : UInt64)
  | storageChange (account : Address) (key prevvalue origvalue : Hash)
  | codeChange (account : Address) (prevCode : Bytes)
  | refundChange (prev : UInt64)
  | addLogChange (txhash : Hash)
  | touchChange (account : Address)
  | accessListAddAccountChange (address : Address)
  | accessListAddSlotChange (address : Address) (slot : Hash)
  | transientStorageChange (account : Address) (key prevalue : Hash)
deriving DecidableEq

def JournalEntry.dirtied : JournalEntry → Option Address
  | .createObjectChange account => some account
  | .createContractChange _ => none
  | .selfDestructChange account => some account
  | .balanceChange account _ => some account
  | .nonceChange account _ => some account
  | .storageChange account _ _ _ => some account
  | .codeChange account _ => some account
  | .refundChange _ => none
  | .addLogChange _ => none
  | .touchChange account => some account
  | .accessListAddAccountChange _ => none
  | .accessListAddSlotChange _ _ => none
  | .transientStorageChange _ _ _ => none

/-- `revision`. -/
structure Revision where
  id : Nat
  journalIndex : Nat
deriving DecidableEq

/-- `journal`. -/
structure Journal where
  entries : List JournalEntry
  dirties : Map Address Int
  validRevisions : List Revision
  nextRevisionId : Nat

/-- `newJournal`, and the journal after `reset`. -/
def newJournal : Journal where
  entries := []
  dirties := ∅
  validRevisions := []
  nextRevisionId := 0

def ripemd : Address := bigToAddress 3

namespace Journal

def dirty (j : Journal) (addr : Address) : Journal :=
  { j with dirties := j.dirties.insert addr ((j.dirties.lookup addr).getD 0 + 1) }

def append (j : Journal) (entry : JournalEntry) : Journal :=
  let j := { j with entries := j.entries ++ [entry] }
  match entry.dirtied with
  | none => j
  | some addr => j.dirty addr

/-- Dropping the dirty tracking of an entry, in `revert`. -/
def undirty (j : Journal) (entry : JournalEntry) : Journal :=
  match entry.dirtied with
  | none => j
  | some addr =>
    let n := (j.dirties.lookup addr).getD 0 - 1
    { j with dirties := if n = 0 then j.dirties.erase addr else j.dirties.insert addr n }

def touchChange (j : Journal) (address : Address) : Journal :=
  let j := j.append (.touchChange address)
  if address = ripemd then j.dirty address else j

def snapshot (j : Journal) : Nat × Journal :=
  (j.nextRevisionId, { j with
      nextRevisionId := j.nextRevisionId + 1
      validRevisions := j.validRevisions ++ [⟨j.nextRevisionId, j.entries.length⟩] })

end Journal

structure StateDB (T : Type) where
  trie : T
  reader : Reader
  originalRoot : Hash
  stateObjects : Map Address (StateObject T)
  stateObjectsDestruct : Map Address (StateObject T)
  mutations : Map Address Mutation
  dbErr : Option DbErr
  refund : UInt64
  thash : Hash
  txIndex : Nat
  logs : Map Hash (List Log)
  logSize : Nat
  accessList : AccessList
  transientStorage : TransientStorage
  journal : Journal

variable {T : Type}

/-- `NewWithReader`, once the trie is open. -/
def newWithReader (root : Hash) (tr : T) (reader : Reader) : StateDB T where
  trie := tr
  reader := reader
  originalRoot := root
  stateObjects := ∅
  stateObjectsDestruct := ∅
  mutations := ∅
  dbErr := none
  refund := 0
  thash := zeroHash
  txIndex := 0
  logs := ∅
  logSize := 0
  accessList := newAccessList
  transientStorage := newTransientStorage
  journal := newJournal

/-! ## Objects -/

section Objects

variable (keccak : Bytes → Hash)

def newObject (acct : Option StateAccount) : StateObject T where
  origin := acct
  data := acct.getD (newEmptyStateAccount keccak)
  trie := none
  code := []
  originStorage := ∅
  dirtyStorage := ∅
  pendingStorage := ∅
  uncommittedStorage := ∅
  dirtyCode := false
  selfDestructed := false
  newContract := false

def StateObject.empty (s : StateObject T) : Bool :=
  s.data.nonce = 0 ∧ s.data.balance = 0 ∧ s.data.codeHash = emptyCodeHash keccak

def StateDB.setError (s : StateDB T) (err : DbErr) : StateDB T :=
  match s.dbErr with
  | none => { s with dbErr := some err }
  | some _ => s

/-- Appending an entry to the journal. -/
def StateDB.log (s : StateDB T) (entry : JournalEntry) : StateDB T :=
  { s with journal := s.journal.append entry }

namespace StateObject

variable (s : StateObject T) (addr : Address)

def touch (db : StateDB T) : StateDB T :=
  { db with journal := db.journal.touchChange addr }

def GetCommittedState (key : Hash) (db : StateDB T) :
    Hash × StateObject T × StateDB T :=
  match s.pendingStorage.lookup key with
  | some value => (value, s, db)
  | none =>
    match s.originStorage.lookup key with
    | some value => (value, s, db)
    | none =>
      -- destructed in this block: the database has the storage of a former account
      if addr ∈ db.stateObjectsDestruct then
        (zeroHash, { s with originStorage := s.originStorage.insert key zeroHash }, db)
      else
        match db.reader.Storage addr key with
        | .error err => (zeroHash, s, db.setError (.storage err))
        | .ok value => (value, { s with originStorage := s.originStorage.insert key value }, db)

/-- `getState`: the value and its origin. -/
def getState (key : Hash) (db : StateDB T) :
    (Hash × Hash) × StateObject T × StateDB T :=
  let (origin, s, db) := s.GetCommittedState addr key db
  match s.dirtyStorage.lookup key with
  | some value => ((value, origin), s, db)
  | none => ((origin, origin), s, db)

def setState (key value origin : Hash) : StateObject T :=
  if value = origin then { s with dirtyStorage := s.dirtyStorage.erase key }
  else { s with dirtyStorage := s.dirtyStorage.insert key value }

def SetState (key value : Hash) (db : StateDB T) :
    Hash × StateObject T × StateDB T :=
  let ((prev, origin), s, db) := s.getState addr key db
  if prev = value then (prev, s, db)
  else (prev, s.setState key value origin, db.log (.storageChange addr key prev origin))

def setBalance (amount : Word) : StateObject T :=
  { s with data := { s.data with balance := amount } }

def SetBalance (amount : Word) (db : StateDB T) :
    Word × StateObject T × StateDB T :=
  (s.data.balance, s.setBalance amount, db.log (.balanceChange addr s.data.balance))

def AddBalance (amount : Word) (db : StateDB T) :
    Word × StateObject T × StateDB T :=
  if amount = 0 then
    (s.data.balance, s, if s.empty keccak then touch addr db else db)
  else s.SetBalance addr (s.data.balance + amount) db

def setNonce (nonce : UInt64) : StateObject T :=
  { s with data := { s.data with nonce := nonce } }

def SetNonce (nonce : UInt64) (db : StateDB T) :
    StateObject T × StateDB T :=
  (s.setNonce nonce, db.log (.nonceChange addr s.data.nonce))

def Code (db : StateDB T) : Bytes × StateObject T × StateDB T :=
  if s.code ≠ [] then (s.code, s, db)
  else if s.data.codeHash = emptyCodeHash keccak then ([], s, db)
  else
    let code := db.reader.Code s.data.codeHash
    (code, { s with code := code },
      if code = [] then db.setError (.codeNotFound s.data.codeHash) else db)

def CodeSize (db : StateDB T) : Nat × StateDB T :=
  if s.code ≠ [] then (s.code.length, db)
  else if s.data.codeHash = emptyCodeHash keccak then (0, db)
  else
    let size := db.reader.CodeSize s.data.codeHash
    (size, if size = 0 then db.setError (.codeNotFound s.data.codeHash) else db)

def setCode (codeHash : Hash) (code : Bytes) : StateObject T :=
  { s with code := code, data := { s.data with codeHash := codeHash }, dirtyCode := true }

/-- `SetCode`: the journal gets the code that is in memory, which is also returned. -/
def SetCode (codeHash : Hash) (code : Bytes)
    (db : StateDB T) : Bytes × StateObject T × StateDB T :=
  (s.code, s.setCode codeHash code, db.log (.codeChange addr s.code))

end StateObject

end Objects

/-! ## Accounts -/

namespace StateDB

variable (keccak : Bytes → Hash) (s : StateDB T) (addr : Address)

def setStateObject (object : StateObject T) : StateDB T :=
  { s with stateObjects := s.stateObjects.insert addr object }

def getStateObject : Option (StateObject T) × StateDB T :=
  match s.stateObjects.lookup addr with
  | some obj => (some obj, s)
  | none =>
    if addr ∈ s.stateObjectsDestruct then (none, s)
    else
      match s.reader.Account addr with
      | .error err => (none, s.setError (.getStateObject addr err))
      | .ok none => (none, s)
      | .ok (some acct) =>
        let obj := newObject keccak (some acct)
        (some obj, s.setStateObject addr obj)

def createObject : StateObject T × StateDB T :=
  let obj := newObject keccak none
  (obj, (s.log (.createObjectChange addr)).setStateObject addr obj)

def getOrNewStateObject : StateObject T × StateDB T :=
  match s.getStateObject keccak addr with
  | (some obj, s) => (obj, s)
  | (none, s) => s.createObject keccak addr

/-! ## Getters -/

def Exist : Bool × StateDB T :=
  match s.getStateObject keccak addr with
  | (obj, s) => (obj.isSome, s)

def Empty : Bool × StateDB T :=
  match s.getStateObject keccak addr with
  | (none, s) => (true, s)
  | (some obj, s) => (obj.empty keccak, s)

def GetBalance : Word × StateDB T :=
  match s.getStateObject keccak addr with
  | (none, s) => (0, s)
  | (some obj, s) => (obj.data.balance, s)

def GetNonce : UInt64 × StateDB T :=
  match s.getStateObject keccak addr with
  | (none, s) => (0, s)
  | (some obj, s) => (obj.data.nonce, s)

def GetStorageRoot : Hash × StateDB T :=
  match s.getStateObject keccak addr with
  | (none, s) => (zeroHash, s)
  | (some obj, s) => (obj.data.root, s)

def GetCode : Bytes × StateDB T :=
  match s.getStateObject keccak addr with
  | (none, s) => ([], s)
  | (some obj, s) =>
    let (code, obj, s) := obj.Code keccak s
    (code, s.setStateObject addr obj)

def GetCodeSize : Nat × StateDB T :=
  match s.getStateObject keccak addr with
  | (none, s) => (0, s)
  | (some obj, s) => obj.CodeSize keccak s

def GetCodeHash : Hash × StateDB T :=
  match s.getStateObject keccak addr with
  | (none, s) => (zeroHash, s)
  | (some obj, s) => (obj.data.codeHash, s)

def GetState (key : Hash) : Hash × StateDB T :=
  match s.getStateObject keccak addr with
  | (none, s) => (zeroHash, s)
  | (some obj, s) =>
    let ((value, _), obj, s) := obj.getState addr key s
    (value, s.setStateObject addr obj)

def GetCommittedState (key : Hash) : Hash × StateDB T :=
  match s.getStateObject keccak addr with
  | (none, s) => (zeroHash, s)
  | (some obj, s) =>
    let (value, obj, s) := obj.GetCommittedState addr key s
    (value, s.setStateObject addr obj)

def HasSelfDestructed : Bool × StateDB T :=
  match s.getStateObject keccak addr with
  | (none, s) => (false, s)
  | (some obj, s) => (obj.selfDestructed, s)

def GetTransientState (key : Hash) : Hash :=
  s.transientStorage.Get addr key

/-- `GetLogs`: it annotates the logs it returns in place. -/
def GetLogs (hash : Hash) (blockNumber : Nat) (blockHash : Hash) :
    List Log × StateDB T :=
  match s.logs.lookup hash with
  | none => ([], s)
  | some logs =>
    let logs := logs.map fun l => { l with blockNumber := blockNumber, blockHash := blockHash }
    (logs, { s with logs := s.logs.insert hash logs })

def AddressInAccessList : Bool :=
  s.accessList.ContainsAddress addr

def SlotInAccessList (slot : Hash) : Except Panic (Bool × Bool) :=
  s.accessList.Contains addr slot

/-! ## Setters -/

def AddBalance (amount : Word) : Word × StateDB T :=
  let (obj, s) := s.getOrNewStateObject keccak addr
  let (prev, obj, s) := obj.AddBalance keccak addr amount s
  (prev, s.setStateObject addr obj)

def SubBalance (amount : Word) : Word × StateDB T :=
  let (obj, s) := s.getOrNewStateObject keccak addr
  if amount = 0 then (obj.data.balance, s)
  else
    let (prev, obj, s) := obj.SetBalance addr (obj.data.balance - amount) s
    (prev, s.setStateObject addr obj)

def SetBalance (amount : Word) : StateDB T :=
  let (obj, s) := s.getOrNewStateObject keccak addr
  let (_, obj, s) := obj.SetBalance addr amount s
  s.setStateObject addr obj

def SetNonce (nonce : UInt64) : StateDB T :=
  let (obj, s) := s.getOrNewStateObject keccak addr
  let (obj, s) := obj.SetNonce addr nonce s
  s.setStateObject addr obj

def SetCode (code : Bytes) : Bytes × StateDB T :=
  let (obj, s) := s.getOrNewStateObject keccak addr
  let (prev, obj, s) := obj.SetCode addr (keccak code) code s
  (prev, s.setStateObject addr obj)

def SetState (key value : Hash) : Hash × StateDB T :=
  let (obj, s) := s.getOrNewStateObject keccak addr
  let (prev, obj, s) := obj.SetState addr key value s
  (prev, s.setStateObject addr obj)

def SelfDestruct : Word × StateDB T :=
  match s.getStateObject keccak addr with
  | (none, s) => (0, s)
  | (some obj, s) =>
    let prevBalance := obj.data.balance
    let (obj, s) :=
      if obj.data.balance ≠ 0 then
        let (_, obj, s) := obj.SetBalance addr 0 s
        (obj, s)
      else (obj, s)
    if obj.selfDestructed then (prevBalance, s.setStateObject addr obj)
    else
      (prevBalance, (s.log (.selfDestructChange addr)).setStateObject addr
        { obj with selfDestructed := true })

def SelfDestruct6780 : (Word × Bool) × StateDB T :=
  match s.getStateObject keccak addr with
  | (none, s) => ((0, false), s)
  | (some obj, s) =>
    if obj.newContract then
      let (prev, s) := s.SelfDestruct keccak addr
      ((prev, true), s)
    else ((obj.data.balance, false), s)

def setTransientState (key value : Hash) : StateDB T :=
  { s with transientStorage := s.transientStorage.Set addr key value }

def SetTransientState (key value : Hash) : StateDB T :=
  let prev := s.GetTransientState addr key
  if prev = value then s
  else (s.log (.transientStorageChange addr key prev)).setTransientState addr key value

def CreateAccount : StateDB T := (s.createObject keccak addr).2

def CreateContract : Except Panic (StateDB T) :=
  match s.getStateObject keccak addr with
  | (none, _) => .error .nilObject
  | (some obj, s) =>
    if obj.newContract then .ok s
    else .ok ((s.setStateObject addr { obj with newContract := true }).log
      (.createContractChange addr))

def AddRefund (gas : UInt64) : StateDB T :=
  { s.log (.refundChange s.refund) with refund := s.refund + gas }

def SubRefund (gas : UInt64) : Except Panic (StateDB T) :=
  if gas > s.refund then .error (.refund gas s.refund)
  else .ok { s.log (.refundChange s.refund) with refund := s.refund - gas }

def AddLog (log : Log) : StateDB T :=
  let log := { log with txHash := s.thash, txIndex := s.txIndex, index := s.logSize }
  { s.log (.addLogChange s.thash) with
    logs := s.logs.insert s.thash ((s.logs.lookup s.thash).getD [] ++ [log])
    logSize := s.logSize + 1 }

def AddAddressToAccessList : StateDB T :=
  let (added, al) := s.accessList.AddAddress addr
  let s := { s with accessList := al }
  if added then s.log (.accessListAddAccountChange addr) else s

def AddSlotToAccessList (slot : Hash) : Except Panic (StateDB T) :=
  match s.accessList.AddSlot addr slot with
  | .error p => .error p
  | .ok (addrMod, slotMod, al) =>
    let s := { s with accessList := al }
    let s := if addrMod then s.log (.accessListAddAccountChange addr) else s
    .ok (if slotMod then s.log (.accessListAddSlotChange addr slot) else s)

/-! ## Snapshots -/

/-- A change of the object that has to be there. -/
def changeObject (f : StateObject T → StateObject T) :
    Except Panic (StateDB T) :=
  match s.getStateObject keccak addr with
  | (none, _) => .error .nilObject
  | (some obj, s) => .ok (s.setStateObject addr (f obj))

end StateDB

/-- `revert` of a journal entry. -/
def JournalEntry.revert (keccak : Bytes → Hash) (s : StateDB T) :
    JournalEntry → Except Panic (StateDB T)
  | .createObjectChange account => .ok { s with stateObjects := s.stateObjects.erase account }
  | .createContractChange account =>
    s.changeObject keccak account fun obj => { obj with newContract := false }
  | .selfDestructChange account =>
    match s.getStateObject keccak account with
    | (none, s) => .ok s
    | (some obj, s) => .ok (s.setStateObject account { obj with selfDestructed := false })
  | .balanceChange account prev => s.changeObject keccak account (·.setBalance prev)
  | .nonceChange account prev => s.changeObject keccak account (·.setNonce prev)
  | .storageChange account key prevvalue origvalue =>
    s.changeObject keccak account (·.setState key prevvalue origvalue)
  | .codeChange account prevCode =>
    s.changeObject keccak account (·.setCode (keccak prevCode) prevCode)
  | .refundChange prev => .ok { s with refund := prev }
  | .addLogChange txhash =>
    let logs := (s.logs.lookup txhash).getD []
    if logs.length = 1 then
      .ok { s with logs := s.logs.erase txhash, logSize := s.logSize - 1 }
    else if logs = [] then .error .index
    else .ok { s with logs := s.logs.insert txhash logs.dropLast, logSize := s.logSize - 1 }
  | .touchChange _ => .ok s
  | .accessListAddAccountChange address =>
    .ok { s with accessList := s.accessList.DeleteAddress address }
  | .accessListAddSlotChange address slot =>
    match s.accessList.DeleteSlot address slot with
    | .error p => .error p
    | .ok al => .ok { s with accessList := al }
  | .transientStorageChange account key prevalue => .ok (s.setTransientState account key prevalue)

namespace StateDB

variable (keccak : Bytes → Hash)

/-- The loop of `(*journal).revert`, over the entries to undo, the newest first. -/
def revertEntries : List JournalEntry → StateDB T → Except Panic (StateDB T)
  | [], s => .ok s
  | entry :: entries, s =>
    match entry.revert keccak s with
    | .error p => .error p
    | .ok s => revertEntries entries { s with journal := s.journal.undirty entry }

/-- `(*journal).revert`. -/
def revert (s : StateDB T) (snapshot : Nat) : Except Panic (StateDB T) :=
  match revertEntries keccak (s.journal.entries.drop snapshot).reverse s with
  | .error p => .error p
  | .ok s =>
    .ok { s with journal := { s.journal with entries := s.journal.entries.take snapshot } }

def Snapshot (s : StateDB T) : Nat × StateDB T :=
  let (id, j) := s.journal.snapshot
  (id, { s with journal := j })

def RevertToSnapshot (s : StateDB T) (revid : Nat) : Except Panic (StateDB T) :=
  let revisions := s.journal.validRevisions
  let idx := Search.search revisions.length fun i =>
    decide (∃ r, revisions[i]? = some r ∧ revid ≤ r.id)
  match revisions[idx]? with
  | none => .error (.revision revid)
  | some r =>
    if r.id ≠ revid then .error (.revision revid)
    else
      match s.revert keccak r.journalIndex with
      | .error p => .error p
      | .ok s =>
        .ok { s with
          journal := { s.journal with validRevisions := s.journal.validRevisions.take idx } }

/-! ## Transactions -/

def SetTxContext (s : StateDB T) (thash : Hash) (ti : Nat) : StateDB T :=
  { s with thash := thash, txIndex := ti }

/-- The flags of `params.Rules` that `Prepare` reads. -/
structure Rules where
  isEIP2929 : Bool
  isEIP4762 : Bool
  isShanghai : Bool

def Prepare (s : StateDB T) (rules : Rules) (sender coinbase : Address) (dst : Option Address)
    (precompiles : List Address) (list : List (Address × List Hash)) :
    Except Panic (StateDB T) :=
  if rules.isEIP2929 ∧ rules.isEIP4762 then .error .prepare
  else if rules.isEIP2929 then
    let al := (newAccessList.AddAddress sender).2
    let al := (dst.toList ++ precompiles).foldl (fun al addr => (al.AddAddress addr).2) al
    match list.foldlM (fun al el => al.addTuple el.1 el.2) al with
    | .error p => .error p
    | .ok al =>
      .ok { s with
        accessList := if rules.isShanghai then (al.AddAddress coinbase).2 else al
        transientStorage := newTransientStorage }
  else .ok { s with transientStorage := newTransientStorage }

end StateDB

end GoEthereum.State

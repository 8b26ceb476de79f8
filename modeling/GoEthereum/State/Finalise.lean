import GoEthereum.State.StateDB

/-!
# The end of a transaction

`Finalise` moves the changes of a transaction from the dirty to the pending slots, removes
destructed and empty accounts and clears the journal. `IntermediateRoot` then writes what
is pending into the storage tries and the account trie. Loops over maps are given the
order they take.
-/

namespace GoEthereum.State

variable {T : Type}

/-- The methods of the tries and of the database that opens them. A method that fails may
leave a changed trie behind. -/
structure Backend (T : Type) where
  OpenStorageTrie : Hash → Address → Hash → Except Trie.Err T
  UpdateStorage : T → Address → Hash → Bytes → T × Option Trie.Err
  DeleteStorage : T → Address → Hash → T × Option Trie.Err
  UpdateAccount : T → Address → StateAccount → T × Option Trie.Err
  DeleteAccount : T → Address → T × Option Trie.Err
  Hash : T → Hash × T

/-- The orders in which the loops of a call range over the maps. -/
structure Orders where
  /-- Over `journal.dirties`, in `Finalise`. -/
  dirties : List Address
  /-- Over the `dirtyStorage` of an object, in `finalise`. -/
  dirtyStorage : Address → List Hash
  /-- Over `mutations`, as the workers are run. -/
  workers : List Address
  /-- Over the `uncommittedStorage` of an object, in `updateTrie`. -/
  uncommittedStorage : Address → List Hash
  /-- Over `mutations`, as the account trie is updated. -/
  mutations : List Address

namespace StateObject

/-- The body of the loop of `finalise`. -/
def finaliseSlot (addr : Address) (key value : Hash) (s : StateObject T) (db : StateDB T) :
    StateObject T × StateDB T :=
  let (s, db) :=
    match s.uncommittedStorage.lookup key with
    | some origin =>
      if origin = value then
        ({ s with uncommittedStorage := s.uncommittedStorage.erase key }, db)
      else (s, db)
    | none =>
      let (committed, s, db) := s.GetCommittedState addr key db
      ({ s with uncommittedStorage := s.uncommittedStorage.insert key committed }, db)
  ({ s with pendingStorage := s.pendingStorage.insert key value }, db)

/-- The loop of `finalise`. -/
def finaliseSlots (addr : Address) (dirtyStorage : Storage) :
    List Hash → StateObject T → StateDB T → StateObject T × StateDB T
  | [], s, db => (s, db)
  | key :: keys, s, db =>
    match dirtyStorage.lookup key with
    | none => finaliseSlots addr dirtyStorage keys s db
    | some value =>
      let (s, db) := finaliseSlot addr key value s db
      finaliseSlots addr dirtyStorage keys s db

def finalise (order : List Hash) (addr : Address) (s : StateObject T) (db : StateDB T) :
    StateObject T × StateDB T :=
  let (s, db) := finaliseSlots addr s.dirtyStorage order s db
  ({ s with dirtyStorage := ∅, newContract := false }, db)

def getTrie (b : Backend T) (addr : Address) (s : StateObject T) (db : StateDB T) :
    Except Trie.Err (T × StateObject T) :=
  match s.trie with
  | some tr => .ok (tr, s)
  | none =>
    match b.OpenStorageTrie db.originalRoot addr s.data.root with
    | .error err => .error err
    | .ok tr => .ok (tr, { s with trie := some tr })

/-- The first loop of `updateTrie`: it writes the values and collects the deletions. -/
def updateSlots (b : Backend T) (addr : Address) (s : StateObject T) :
    List Hash → T → T × Except Trie.Err (List Hash)
  | [], tr => (tr, .ok [])
  | key :: keys, tr =>
    match s.uncommittedStorage.lookup key, s.pendingStorage.lookup key with
    | some origin, some value =>
      if value = origin then updateSlots b addr s keys tr
      else if value ≠ zeroHash then
        match b.UpdateStorage tr addr key (value.1.dropWhile (· = 0)) with
        | (tr, some err) => (tr, .error err)
        | (tr, none) => updateSlots b addr s keys tr
      else
        match updateSlots b addr s keys tr with
        | (tr, .error err) => (tr, .error err)
        | (tr, .ok deletions) => (tr, .ok (key :: deletions))
    | _, _ => updateSlots b addr s keys tr

/-- The second loop of `updateTrie`. -/
def deleteSlots (b : Backend T) (addr : Address) : List Hash → T → T × Option Trie.Err
  | [], tr => (tr, none)
  | key :: keys, tr =>
    match b.DeleteStorage tr addr key with
    | (tr, some err) => (tr, some err)
    | (tr, none) => deleteSlots b addr keys tr

def updateTrie (b : Backend T) (order : List Hash) (addr : Address) (s : StateObject T)
    (db : StateDB T) : Option T × StateObject T × StateDB T :=
  if s.uncommittedStorage.keys = ∅ then (s.trie, s, db)
  else
    match s.getTrie b addr db with
    | .error err => (none, s, db.setError (.updateTrie err))
    | .ok (tr, s) =>
      match updateSlots b addr s order tr with
      | (tr, .error err) => (none, { s with trie := some tr }, db.setError (.updateTrie err))
      | (tr, .ok deletions) =>
        match deleteSlots b addr deletions tr with
        | (tr, some err) => (none, { s with trie := some tr }, db.setError (.updateTrie err))
        | (tr, none) => (some tr, { s with trie := some tr, uncommittedStorage := ∅ }, db)

def updateRoot (b : Backend T) (order : List Hash) (addr : Address) (s : StateObject T)
    (db : StateDB T) : StateObject T × StateDB T :=
  match s.updateTrie b order addr db with
  | (none, s, db) => (s, db)
  | (some tr, s, db) =>
    let (hash, tr) := b.Hash tr
    ({ s with trie := some tr, data := { s.data with root := hash } }, db)

end StateObject

namespace StateDB

variable (keccak : Bytes → Hash)

def markDelete (s : StateDB T) (addr : Address) : StateDB T :=
  { s with mutations := s.mutations.insert addr ⟨true, false⟩ }

def markUpdate (s : StateDB T) (addr : Address) : StateDB T :=
  { s with mutations := s.mutations.insert addr ⟨false, false⟩ }

def clearJournalAndRefund (s : StateDB T) : StateDB T :=
  { s with journal := newJournal, refund := 0 }

/-- The body of the loop of `Finalise`. -/
def finaliseObject (o : Orders) (deleteEmptyObjects : Bool) (s : StateDB T) (addr : Address) :
    StateDB T :=
  match s.stateObjects.lookup addr with
  | none => s
  | some obj =>
    if obj.selfDestructed ∨ (deleteEmptyObjects ∧ obj.empty keccak) then
      let s := { s with stateObjects := s.stateObjects.erase addr }.markDelete addr
      if addr ∈ s.stateObjectsDestruct then s
      else { s with stateObjectsDestruct := s.stateObjectsDestruct.insert addr obj }
    else
      let (obj, s) := obj.finalise (o.dirtyStorage addr) addr s
      (s.setStateObject addr obj).markUpdate addr

def Finalise (o : Orders) (deleteEmptyObjects : Bool) (s : StateDB T) : StateDB T :=
  (o.dirties.foldl (finaliseObject keccak o deleteEmptyObjects) s).clearJournalAndRefund

/-- The task of a worker of `IntermediateRoot`. -/
def updateObjectRoot (b : Backend T) (o : Orders) (s : StateDB T) (addr : Address) :
    Except Panic (StateDB T) :=
  match s.mutations.lookup addr with
  | none => .ok s
  | some op =>
    if op.applied ∨ op.isDelete then .ok s
    else
      match s.stateObjects.lookup addr with
      | none => .error .nilObject
      | some obj =>
        let (obj, s) := obj.updateRoot b (o.uncommittedStorage addr) addr s
        .ok (s.setStateObject addr obj)

def updateStateObject (b : Backend T) (s : StateDB T) (addr : Address) (obj : StateObject T) :
    StateDB T :=
  match b.UpdateAccount s.trie addr obj.data with
  | (tr, none) => { s with trie := tr }
  | (tr, some err) => { s with trie := tr }.setError (.updateStateObject addr err)

def deleteStateObject (b : Backend T) (s : StateDB T) (addr : Address) : StateDB T :=
  match b.DeleteAccount s.trie addr with
  | (tr, none) => { s with trie := tr }
  | (tr, some err) => { s with trie := tr }.setError (.deleteStateObject addr err)

/-- The loop of `IntermediateRoot` over the mutations: it writes the accounts and collects
the deletions. -/
def applyMutations (b : Backend T) :
    List Address → StateDB T → Except Panic (List Address × StateDB T)
  | [], s => .ok ([], s)
  | addr :: addrs, s =>
    match s.mutations.lookup addr with
    | none => applyMutations b addrs s
    | some op =>
      if op.applied then applyMutations b addrs s
      else
        let s := { s with mutations := s.mutations.insert addr { op with applied := true } }
        if op.isDelete then
          match applyMutations b addrs s with
          | .error p => .error p
          | .ok (deletedAddrs, s) => .ok (addr :: deletedAddrs, s)
        else
          match s.stateObjects.lookup addr with
          | none => .error .nilObject
          | some obj => applyMutations b addrs (s.updateStateObject b addr obj)

def IntermediateRoot (b : Backend T) (o : Orders) (deleteEmptyObjects : Bool) (s : StateDB T) :
    Except Panic (Hash × StateDB T) :=
  let s := s.Finalise keccak o deleteEmptyObjects
  match o.workers.foldlM (updateObjectRoot b o) s with
  | .error p => .error p
  | .ok s =>
    match applyMutations b o.mutations s with
    | .error p => .error p
    | .ok (deletedAddrs, s) =>
      let s := deletedAddrs.foldl (deleteStateObject b) s
      let (hash, tr) := b.Hash s.trie
      .ok (hash, { s with trie := tr })

end StateDB

end GoEthereum.State

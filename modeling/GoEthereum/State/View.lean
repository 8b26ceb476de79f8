import GoEthereum.State.StateDB

/-!
# What a state shows

The view of a state is what its getters return, whatever has been cached: an account that
no object holds is the one in the database, a slot no cache has is the one in the
database. Every journal entry has an effect on views, and undoing it in the state is
undoing it in the view. The view leaves out the block number and hash that `GetLogs`
writes into the logs it returns.
-/

namespace GoEthereum.State

open Function

variable {T : Type}

variable {a addr : Address} {s s' : StateDB T} {f : StateObject T → StateObject T}

/-- An account as the getters show it. -/
structure AccountView where
  balance : Word
  nonce : UInt64
  root : Hash
  codeHash : Hash
  code : Bytes
  committed : Hash → Hash
  state : Hash → Hash
  selfDestructed : Bool
  newContract : Bool

/-- What the getters of a state show. -/
@[ext]
structure View where
  account : Address → Option AccountView
  transient : Address → Hash → Hash
  refund : UInt64
  logs : Hash → List Log
  logSize : Nat
  accessList : AccessList

/-- What lies below the objects of a state. -/
structure Base where
  account : Address → Option StateAccount
  slots : Address → Hash → Hash
  code : Hash → Bytes

/-- The log without the annotations of `GetLogs`. -/
def Log.plain (l : Log) : Log := { l with blockNumber := 0, blockHash := zeroHash }

section Views

variable (keccak : Bytes → Hash)

/-- What `GetCode` returns for an object. -/
def Base.codeOf (b : Base) (code : Bytes) (codeHash : Hash) : Bytes :=
  if code ≠ [] then code
  else if codeHash = emptyCodeHash keccak then []
  else b.code codeHash

/-- What `GetCommittedState` returns for an object. -/
def StateObject.committed (b : Base) (addr : Address) (s : StateObject T) (key : Hash) : Hash :=
  match s.pendingStorage.lookup key with
  | some value => value
  | none =>
    match s.originStorage.lookup key with
    | some value => value
    | none => b.slots addr key

/-- The view of an object. -/
def StateObject.view (b : Base) (addr : Address) (s : StateObject T) : AccountView where
  balance := s.data.balance
  nonce := s.data.nonce
  root := s.data.root
  codeHash := s.data.codeHash
  code := b.codeOf keccak s.code s.data.codeHash
  committed := s.committed b addr
  state := fun key => (s.dirtyStorage.lookup key).getD (s.committed b addr key)
  selfDestructed := s.selfDestructed
  newContract := s.newContract

namespace StateDB

/-- The database as the state sees it: a destructed account is gone with its storage, and
what cannot be read is not there. -/
def base (s : StateDB T) : Base where
  account addr :=
    if addr ∈ s.stateObjectsDestruct then none
    else
      match s.reader.Account addr with
      | .ok acct => acct
      | .error _ => none
  slots addr key :=
    if addr ∈ s.stateObjectsDestruct then zeroHash
    else
      match s.reader.Storage addr key with
      | .ok value => value
      | .error _ => zeroHash
  code := s.reader.Code

/-- The object `getStateObject` returns. -/
def find (s : StateDB T) (addr : Address) : Option (StateObject T) :=
  match s.stateObjects.lookup addr with
  | some obj => some obj
  | none => (s.base.account addr).map fun acct => newObject keccak (some acct)

def view (s : StateDB T) : View where
  account addr := (s.find keccak addr).map (StateObject.view keccak s.base addr)
  transient := s.transientStorage.Get
  refund := s.refund
  logs hash := ((s.logs.lookup hash).getD []).map Log.plain
  logSize := s.logSize
  accessList := s.accessList

end StateDB

end Views

/-! ## Undoing an entry in a view -/

namespace View

/-- The view with another account at an address. -/
def setAccount (v : View) (addr : Address) (a : Option AccountView) : View :=
  { v with account := update v.account addr a }

/-- A change of an account that has to be there. -/
def modify (v : View) (addr : Address) (f : AccountView → AccountView) : Except Panic View :=
  match v.account addr with
  | none => .error .nilObject
  | some a => .ok (v.setAccount addr (some (f a)))

variable (keccak : Bytes → Hash) (b : Base)

/-- The effect of undoing an entry. -/
def undo (v : View) : JournalEntry → Except Panic View
  | .createObjectChange account =>
    .ok (v.setAccount account ((b.account account).map fun acct =>
      (newObject keccak (some acct) : StateObject Unit).view keccak b account))
  | .createContractChange account => v.modify account ({ · with newContract := false })
  | .selfDestructChange account =>
    .ok (v.setAccount account ((v.account account).map ({ · with selfDestructed := false })))
  | .balanceChange account prev => v.modify account ({ · with balance := prev })
  | .nonceChange account prev => v.modify account ({ · with nonce := prev })
  | .storageChange account key prevvalue origvalue =>
    v.modify account fun a =>
      let value := if prevvalue = origvalue then a.committed key else prevvalue
      { a with state := update a.state key value }
  | .codeChange account prevCode =>
    v.modify account ({ · with codeHash := keccak prevCode, code := prevCode })
  | .refundChange prev => .ok { v with refund := prev }
  | .addLogChange txhash =>
    if v.logs txhash = [] then .error .index
    else .ok { v with
      logs := update v.logs txhash (v.logs txhash).dropLast, logSize := v.logSize - 1 }
  | .touchChange _ => .ok v
  | .accessListAddAccountChange address =>
    .ok { v with accessList := v.accessList.DeleteAddress address }
  | .accessListAddSlotChange address slot =>
    match v.accessList.DeleteSlot address slot with
    | .error p => .error p
    | .ok al => .ok { v with accessList := al }
  | .transientStorageChange account key prevalue =>
    let slots := update (v.transient account) key prevalue
    .ok { v with transient := update v.transient account slots }

/-- The effect of undoing entries, the newest first. -/
def undoAll : List JournalEntry → View → Except Panic View
  | [], v => .ok v
  | entry :: entries, v =>
    match v.undo keccak b entry with
    | .error p => .error p
    | .ok v => undoAll entries v

theorem undoAll_append (es es' : List JournalEntry) (v : View) : undoAll keccak b (es ++ es') v =
      match undoAll keccak b es v with
      | .error p => .error p
      | .ok v => undoAll keccak b es' v := by
  induction es generalizing v with
  | nil => rfl
  | cons e es ih =>
    rw [List.cons_append, undoAll, undoAll]
    cases v.undo keccak b e with
    | error p => rfl
    | ok v => exact ih v

end View

/-! ## Reading does not change the view -/

/-- The parts of a state that no operation within a transaction changes. -/
structure Frame (s s' : StateDB T) : Prop where
  trie : s'.trie = s.trie
  reader : s'.reader = s.reader
  originalRoot : s'.originalRoot = s.originalRoot
  destruct : s'.stateObjectsDestruct = s.stateObjectsDestruct
  mutations : s'.mutations = s.mutations
  thash : s'.thash = s.thash
  txIndex : s'.txIndex = s.txIndex

theorem Frame.refl (s : StateDB T) : Frame s s := ⟨rfl, rfl, rfl, rfl, rfl, rfl, rfl⟩

theorem Frame.trans {s'' : StateDB T} (h : Frame s s') (h' : Frame s' s'') : Frame s s'' where
  trie := h'.trie.trans h.trie
  reader := h'.reader.trans h.reader
  originalRoot := h'.originalRoot.trans h.originalRoot
  destruct := h'.destruct.trans h.destruct
  mutations := h'.mutations.trans h.mutations
  thash := h'.thash.trans h.thash
  txIndex := h'.txIndex.trans h.txIndex

theorem Frame.base (h : Frame s s') : s'.base = s.base := by
  simp only [StateDB.base, h.reader, h.destruct]

variable {keccak : Bytes → Hash}

/-- The code of the object is in memory: its hash is that of the account. -/
def StateObject.Loaded (keccak : Bytes → Hash) (s : StateObject T) : Prop :=
  keccak s.code = s.data.codeHash

/-- Whatever object an address has, its code is in memory. -/
def StateDB.LoadedAt (keccak : Bytes → Hash) (s : StateDB T) (addr : Address) : Prop :=
  ∀ obj, s.find keccak addr = some obj → obj.Loaded keccak

/-- The second state is the first after reads: only caches differ. -/
structure Loads (keccak : Bytes → Hash) (s s' : StateDB T) : Prop where
  frame : Frame s s'
  journal : s'.journal = s.journal
  view : s'.view keccak = s.view keccak
  loaded : ∀ addr, s.LoadedAt keccak addr → s'.LoadedAt keccak addr

theorem Loads.refl (s : StateDB T) : Loads keccak s s := ⟨.refl s, rfl, rfl, fun _ h => h⟩

theorem Loads.trans {s'' : StateDB T} (h : Loads keccak s s') (h' : Loads keccak s' s'') :
    Loads keccak s s'' where
  frame := h.frame.trans h'.frame
  journal := h'.journal.trans h.journal
  view := h'.view.trans h.view
  loaded addr hl := h'.loaded addr (h.loaded addr hl)

theorem loads_setError (s : StateDB T) (err : DbErr) : Loads keccak s (s.setError err) := by
  rw [StateDB.setError]
  split
  · exact ⟨⟨rfl, rfl, rfl, rfl, rfl, rfl, rfl⟩, rfl, rfl, fun _ h => h⟩
  · exact .refl s

theorem find_setStateObject (s : StateDB T) (addr a : Address) (obj : StateObject T) :
    (s.setStateObject addr obj).find keccak a = if a = addr then some obj else s.find keccak a := by
  simp only [StateDB.find, StateDB.setStateObject, Map.lookup_insert_ite]
  by_cases h : a = addr
  · simp only [if_pos h]
  · simp only [if_neg h]
    rfl

/-- Without its object, an account is the one in the database. -/
theorem find_eraseObject (s : StateDB T) (addr a : Address) :
    StateDB.find keccak { s with stateObjects := s.stateObjects.erase addr } a =
      if a = addr then (s.base.account addr).map fun acct => newObject keccak (some acct)
      else s.find keccak a := by
  simp only [StateDB.find, Map.lookup_erase_ite]
  by_cases h : a = addr
  · subst h
    simp only [if_true]
    rfl
  · simp only [if_neg h]
    rfl

theorem view_setStateObject (s : StateDB T) (addr : Address) (obj : StateObject T) :
    (s.setStateObject addr obj).view keccak =
      (s.view keccak).setAccount addr (some (obj.view keccak s.base addr)) := by
  have haccount : ((s.setStateObject addr obj).view keccak).account =
      update (s.view keccak).account addr (some (obj.view keccak s.base addr)) := by
    funext a
    show ((s.setStateObject addr obj).find keccak a).map (StateObject.view keccak s.base a) = _
    rw [find_setStateObject, update_apply]
    by_cases h : a = addr
    · rw [if_pos h, if_pos h, h]
      rfl
    · rw [if_neg h, if_neg h]
      rfl
  exact View.ext haccount rfl rfl rfl rfl rfl

theorem LoadedAt.setStateObject {obj : StateObject T} (h : s.LoadedAt keccak a)
    (hobj : a = addr → obj.Loaded keccak) : (s.setStateObject addr obj).LoadedAt keccak a := by
  intro obj' hobj'
  rw [find_setStateObject] at hobj'
  split at hobj'
  · rename_i ha
    cases hobj'
    exact hobj ha
  · exact h obj' hobj'

/-- Putting an object in the place of one with the same view is a read. -/
theorem Loads.setStateObject {db : StateDB T} (hdb : Loads keccak s db) {obj : StateObject T}
    (hview : (s.view keccak).account addr = some (obj.view keccak s.base addr))
    (hloaded : s.LoadedAt keccak addr → obj.Loaded keccak) :
    Loads keccak s (db.setStateObject addr obj) where
  frame := hdb.frame.trans ⟨rfl, rfl, rfl, rfl, rfl, rfl, rfl⟩
  journal := hdb.journal
  view := by
    rw [view_setStateObject, hdb.frame.base, hdb.view, ← hview, View.setAccount, update_eq_self]
  loaded a h := LoadedAt.setStateObject (hdb.loaded a h) fun ha => hloaded (ha ▸ h)

theorem view_account (s : StateDB T) (addr : Address) :
    (s.view keccak).account addr = (s.find keccak addr).map (StateObject.view keccak s.base addr) :=
  rfl

theorem account_eq_none : (s.view keccak).account addr = none ↔ s.find keccak addr = none := by
  rw [view_account, Option.map_eq_none_iff]

theorem account_of_find {obj : StateObject T} (h : s.find keccak addr = some obj) :
    (s.view keccak).account addr = some (obj.view keccak s.base addr) := by
  rw [view_account, h]
  rfl

/-- What `getStateObject` returns: the object, which it leaves in its place. -/
inductive Looked (keccak : Bytes → Hash) (s : StateDB T) (addr : Address) :
    Option (StateObject T) × StateDB T → Prop where
  | absent {s₁ : StateDB T} (hloads : Loads keccak s s₁) (hfind : s.find keccak addr = none) :
      Looked keccak s addr (none, s₁)
  | found {obj : StateObject T} {s₁ : StateDB T} (hloads : Loads keccak s s₁)
      (hfind : s.find keccak addr = some obj) (hfind₁ : s₁.find keccak addr = some obj) :
      Looked keccak s addr (some obj, s₁)

theorem getStateObject_looked (keccak : Bytes → Hash) (s : StateDB T) (addr : Address) :
    Looked keccak s addr (s.getStateObject keccak addr) := by
  have hfind : s.find keccak addr = (s.stateObjects.lookup addr).or
      ((s.base.account addr).map fun acct => newObject keccak (some acct)) := by
    rw [StateDB.find]
    cases s.stateObjects.lookup addr <;> rfl
  rw [StateDB.getStateObject]
  cases hlookup : s.stateObjects.lookup addr with
  | some obj =>
    rw [hlookup] at hfind
    exact .found (.refl s) hfind hfind
  | none =>
    rw [hlookup] at hfind
    by_cases hd : addr ∈ s.stateObjectsDestruct
    · simp only [StateDB.base, if_pos hd, Option.map_none] at hfind ⊢
      exact .absent (.refl s) hfind
    simp only [StateDB.base, if_neg hd] at hfind ⊢
    cases hacct : s.reader.Account addr with
    | error err =>
      rw [hacct] at hfind
      exact .absent (loads_setError s _) hfind
    | ok acct =>
      rw [hacct] at hfind
      cases acct with
      | none => exact .absent (.refl s) hfind
      | some acct =>
        refine .found ?_ hfind ?_
        · exact (Loads.refl s).setStateObject (account_of_find hfind) fun h => h _ hfind
        · rw [find_setStateObject, if_pos rfl]

theorem codeOf_of_loaded (b : Base) {code : Bytes} {codeHash : Hash} (h : keccak code = codeHash) :
    b.codeOf keccak code codeHash = code := by
  rw [Base.codeOf]
  split
  · rfl
  · rename_i hnil
    rw [not_not.mp hnil] at h ⊢
    exact if_pos h.symm

/-- `GetCommittedState` returns what the view shows, and caches it. -/
theorem getCommittedState_spec (s : StateObject T) (addr : Address) (key : Hash) (db : StateDB T) :
    (s.GetCommittedState addr key db).1 = s.committed db.base addr key ∧
      (∃ m, (s.GetCommittedState addr key db).2.1 = { s with originStorage := m }) ∧
      (s.GetCommittedState addr key db).2.1.committed db.base addr = s.committed db.base addr ∧
      Loads keccak db (s.GetCommittedState addr key db).2.2 := by
  have hcached : ∀ value, s.pendingStorage.lookup key = none →
      s.originStorage.lookup key = none → value = db.base.slots addr key →
      StateObject.committed db.base addr
        { s with originStorage := s.originStorage.insert key value } =
        s.committed db.base addr := by
    intro value hpending horigin hvalue
    funext k
    simp only [StateObject.committed, Map.lookup_insert_ite]
    cases hp : s.pendingStorage.lookup k with
    | some v => rfl
    | none =>
      by_cases hk : k = key
      · simp only [if_pos hk]
        rw [hk, horigin]
        exact hvalue
      · simp only [if_neg hk]
  rw [StateObject.GetCommittedState, StateObject.committed]
  cases hpending : s.pendingStorage.lookup key with
  | some value => exact ⟨rfl, ⟨s.originStorage, rfl⟩, rfl, .refl db⟩
  | none =>
    simp only
    cases horigin : s.originStorage.lookup key with
    | some value => exact ⟨rfl, ⟨s.originStorage, rfl⟩, rfl, .refl db⟩
    | none =>
      simp only
      by_cases hd : addr ∈ db.stateObjectsDestruct
      · have hslot : zeroHash = db.base.slots addr key := by
          simp only [StateDB.base, if_pos hd]
        simp only [if_pos hd]
        exact ⟨hslot, ⟨_, rfl⟩, hcached _ hpending horigin hslot, .refl db⟩
      simp only [if_neg hd]
      cases hread : db.reader.Storage addr key with
      | error err =>
        have hslot : zeroHash = db.base.slots addr key := by
          simp only [StateDB.base, if_neg hd, hread]
        exact ⟨hslot, ⟨s.originStorage, rfl⟩, rfl, loads_setError db _⟩
      | ok value =>
        have hslot : value = db.base.slots addr key := by
          simp only [StateDB.base, if_neg hd, hread]
        exact ⟨hslot, ⟨_, rfl⟩, hcached _ hpending horigin hslot, .refl db⟩

/-- `getState` returns what the view shows, and caches it. -/
theorem getState_spec (s : StateObject T) (addr : Address) (key : Hash) (db : StateDB T) :
    (s.getState addr key db).1 =
        ((s.view keccak db.base addr).state key, (s.view keccak db.base addr).committed key) ∧
      (s.getState addr key db).2.1.view keccak db.base addr = s.view keccak db.base addr ∧
      ((s.getState addr key db).2.1.Loaded keccak ↔ s.Loaded keccak) ∧
      Loads keccak db (s.getState addr key db).2.2 := by
  obtain ⟨hvalue, ⟨m, hobj⟩, hcommitted, hloads⟩ :=
    @getCommittedState_spec T keccak s addr key db
  have hview : (s.GetCommittedState addr key db).2.1.view keccak db.base addr =
      s.view keccak db.base addr := by
    simp only [StateObject.view, hcommitted]
    rw [hobj]
  have hloaded : (s.GetCommittedState addr key db).2.1.Loaded keccak ↔ s.Loaded keccak := by
    rw [hobj]
    rfl
  rw [StateObject.getState]
  generalize s.GetCommittedState addr key db = r at hvalue hobj hview hloaded hloads
  obtain ⟨origin, s', db'⟩ := r
  simp only at hvalue hobj hview hloaded hloads ⊢
  have hdirty : s'.dirtyStorage = s.dirtyStorage := by rw [hobj]
  cases hlookup : s'.dirtyStorage.lookup key with
  | some value =>
    refine ⟨?_, hview, hloaded, hloads⟩
    simp only [StateObject.view, ← hdirty, hlookup, hvalue, Option.getD_some]
  | none =>
    refine ⟨?_, hview, hloaded, hloads⟩
    simp only [StateObject.view, ← hdirty, hlookup, hvalue, Option.getD_none]

/-! ## Reverting an entry -/

theorem changeObject_ok (h : s.changeObject keccak addr f = .ok s') :
    ∃ obj s₁, Loads keccak s s₁ ∧ s.find keccak addr = some obj ∧
      s' = s₁.setStateObject addr (f obj) := by
  have hlook := getStateObject_looked keccak s addr
  rw [StateDB.changeObject] at h
  generalize s.getStateObject keccak addr = r at h hlook
  cases hlook with
  | absent => cases h
  | found hloads hfind =>
    cases h
    exact ⟨_, _, hloads, hfind, rfl⟩

theorem changeObject_view {g : AccountView → AccountView}
    (hfg : ∀ obj : StateObject T, (f obj).view keccak s.base addr = g (obj.view keccak s.base addr)) :
    (s.changeObject keccak addr f).map (StateDB.view keccak) = (s.view keccak).modify addr g := by
  have hlook := getStateObject_looked keccak s addr
  rw [StateDB.changeObject, View.modify]
  generalize s.getStateObject keccak addr = r at hlook
  cases hlook with
  | absent hloads hfind =>
    rw [account_eq_none.mpr hfind]
    rfl
  | found hloads hfind =>
    simp only [Except.map, account_of_find hfind]
    rw [view_setStateObject, hloads.view, hloads.frame.base, hfg]

section

variable (b : Base) (addr : Address) (obj : StateObject T)

theorem view_setBalance (amount : Word) :
    (obj.setBalance amount).view keccak b addr =
      { obj.view keccak b addr with balance := amount } := rfl

theorem view_setNonce (nonce : UInt64) :
    (obj.setNonce nonce).view keccak b addr = { obj.view keccak b addr with nonce := nonce } := rfl

theorem view_setState (key value origin : Hash) :
    (obj.setState key value origin).view keccak b addr = { obj.view keccak b addr with
        state := update (obj.view keccak b addr).state key
          (if value = origin then (obj.view keccak b addr).committed key else value) } := by
  have hstate : ((obj.setState key value origin).view keccak b addr).state =
      update (obj.view keccak b addr).state key
        (if value = origin then (obj.view keccak b addr).committed key else value) := by
    funext k
    rw [update_apply, StateObject.setState]
    split
    · rename_i heq
      simp only [StateObject.view, Map.lookup_erase_ite]
      by_cases hk : k = key
      · simp only [if_pos hk, hk, Option.getD_none]
        rfl
      · simp only [if_neg hk]
        rfl
    · rename_i hne
      simp only [StateObject.view, Map.lookup_insert_ite]
      by_cases hk : k = key
      · simp only [if_pos hk, Option.getD_some]
      · simp only [if_neg hk]
        rfl
  rw [← hstate, StateObject.setState]
  split
  · rfl
  · rfl

theorem view_setCode (code : Bytes) :
    (obj.setCode (keccak code) code).view keccak b addr =
      { obj.view keccak b addr with codeHash := keccak code, code := code } := by
  have hcode : b.codeOf keccak code (keccak code) = code := codeOf_of_loaded b rfl
  simp only [StateObject.setCode, StateObject.view, hcode]
  rfl

end

theorem dropLast_map_plain (logs : List Log) :
    (logs.map Log.plain).dropLast = logs.dropLast.map Log.plain := (List.map_dropLast).symm

/-- **Reverting an entry of the journal undoes it in the view.** -/
theorem revert_view (s : StateDB T) (e : JournalEntry) :
    (e.revert keccak s).map (StateDB.view keccak) = (s.view keccak).undo keccak s.base e := by
  cases e with
  | createObjectChange account =>
    show Except.ok (StateDB.view keccak _) = Except.ok (View.setAccount _ _ _)
    congr 1
    have haccount : (StateDB.view keccak
        { s with stateObjects := s.stateObjects.erase account }).account =
        update (s.view keccak).account account ((s.base.account account).map fun acct =>
          (newObject keccak (some acct) : StateObject Unit).view keccak s.base account) := by
      funext a
      rw [update_apply, view_account, find_eraseObject]
      by_cases h : a = account
      · rw [if_pos h, if_pos h, h, Option.map_map]
        rfl
      · rw [if_neg h, if_neg h]
        rfl
    exact View.ext haccount rfl rfl rfl rfl rfl
  | createContractChange account => exact changeObject_view fun obj => rfl
  | selfDestructChange account =>
    have hlook := getStateObject_looked keccak s account
    simp only [JournalEntry.revert, View.undo]
    generalize s.getStateObject keccak account = r at hlook
    cases hlook with
    | absent hloads hfind =>
      have hnone := account_eq_none.mpr hfind
      simp only [Except.map, hnone, Option.map_none]
      rw [hloads.view, ← hnone, View.setAccount, update_eq_self]
    | found hloads hfind =>
      simp only [Except.map, account_of_find hfind, Option.map_some]
      rw [view_setStateObject, hloads.view, hloads.frame.base]
      rfl
  | balanceChange account prev => exact changeObject_view fun obj => view_setBalance _ _ obj prev
  | nonceChange account prev => exact changeObject_view fun obj => view_setNonce _ _ obj prev
  | storageChange account key prevvalue origvalue =>
    exact changeObject_view fun obj => view_setState _ _ obj key prevvalue origvalue
  | codeChange account prevCode =>
    exact changeObject_view fun obj => view_setCode _ _ obj prevCode
  | refundChange prev => rfl
  | addLogChange txhash =>
    have hview : (s.view keccak).logs txhash = ((s.logs.lookup txhash).getD []).map Log.plain := rfl
    have hlogs : ∀ m : Map Hash (List Log), (∀ h, (m.lookup h).getD [] =
        if h = txhash then ((s.logs.lookup txhash).getD []).dropLast
        else (s.logs.lookup h).getD []) →
        (StateDB.view keccak { s with logs := m, logSize := s.logSize - 1 }) =
        { s.view keccak with
          logs := update (s.view keccak).logs txhash ((s.view keccak).logs txhash).dropLast
          logSize := (s.view keccak).logSize - 1 } := by
      intro m hm
      have hfun : (StateDB.view keccak { s with logs := m, logSize := s.logSize - 1 }).logs =
          update (s.view keccak).logs txhash ((s.view keccak).logs txhash).dropLast := by
        funext h
        rw [update_apply, hview, dropLast_map_plain]
        show ((m.lookup h).getD []).map Log.plain = _
        rw [hm]
        split
        · rfl
        · rfl
      exact View.ext rfl rfl rfl hfun rfl rfl
    simp only [JournalEntry.revert, View.undo, hview, List.map_eq_nil_iff]
    split
    · rename_i hone
      rw [if_neg (by intro h; rw [h] at hone; cases hone)]
      refine congrArg Except.ok ((hlogs _ fun h => ?_).trans ?_)
      · rw [Map.lookup_erase_ite]
        split
        · obtain ⟨l, hl⟩ := List.length_eq_one_iff.mp hone
          rw [hl]
          rfl
        · rfl
      · rw [hview]
    · split
      · rfl
      · refine congrArg Except.ok ((hlogs _ fun h => ?_).trans ?_)
        · rw [Map.lookup_insert_ite]
          split
          · rfl
          · rfl
        · rw [hview]
  | touchChange account => rfl
  | accessListAddAccountChange address => rfl
  | accessListAddSlotChange address slot =>
    have hal : (s.view keccak).accessList = s.accessList := rfl
    simp only [JournalEntry.revert, View.undo, hal]
    cases s.accessList.DeleteSlot address slot with
    | error p => rfl
    | ok al => rfl
  | transientStorageChange account key prevalue =>
    show Except.ok (StateDB.view keccak _) = Except.ok _
    congr 1
    have htransient : (StateDB.view keccak (s.setTransientState account key prevalue)).transient =
        update (s.view keccak).transient account
          (update ((s.view keccak).transient account) key prevalue) := by
      funext a k
      show (s.transientStorage.Set account key prevalue).Get a k = _
      rw [TransientStorage.get_set, update_apply]
      by_cases ha : a = account
      · rw [if_pos ha, update_apply]
        by_cases hk : k = key
        · rw [if_pos ⟨ha, hk⟩, if_pos hk]
        · rw [if_neg (fun h => hk h.2), if_neg hk, ha]
          rfl
      · rw [if_neg (fun h => ha h.1), if_neg ha]
        rfl
    exact View.ext rfl htransient rfl rfl rfl rfl

/-- What reverting an entry leaves as it is. A code in memory stays there, unless the object goes
and the database has one. -/
structure Kept (keccak : Bytes → Hash) (s : StateDB T) (e : JournalEntry) (s' : StateDB T) :
    Prop where
  frame : Frame s s'
  journal : s'.journal = s.journal
  loaded : ∀ a, (e = .createObjectChange a → s.base.account a = none) → s.LoadedAt keccak a →
    s'.LoadedAt keccak a

theorem changeObject_kept {e : JournalEntry} (h : s.changeObject keccak addr f = .ok s')
    (hf : ∀ obj : StateObject T, obj.Loaded keccak → (f obj).Loaded keccak) :
    Kept keccak s e s' := by
  obtain ⟨obj, s₁, hloads, hfind, rfl⟩ := changeObject_ok h
  refine ⟨hloads.frame.trans ⟨rfl, rfl, rfl, rfl, rfl, rfl, rfl⟩, hloads.journal, fun a _ hl => ?_⟩
  refine LoadedAt.setStateObject (hloads.loaded a hl) fun ha => hf obj ?_
  exact hl obj (ha ▸ hfind)

theorem revert_kept {e : JournalEntry} (h : e.revert keccak s = .ok s') : Kept keccak s e s' := by
  cases e with
  | createObjectChange account =>
    cases h
    refine ⟨⟨rfl, rfl, rfl, rfl, rfl, rfl, rfl⟩, rfl, fun a hcreate hl obj hobj => ?_⟩
    rw [find_eraseObject] at hobj
    split at hobj
    · rename_i ha
      rw [← ha, hcreate (by rw [ha])] at hobj
      cases hobj
    · exact hl obj hobj
  | createContractChange account => exact changeObject_kept h fun _ hobj => hobj
  | selfDestructChange account =>
    have hlook := getStateObject_looked keccak s account
    simp only [JournalEntry.revert] at h
    generalize s.getStateObject keccak account = r at h hlook
    cases hlook with
    | absent hloads =>
      cases h
      exact ⟨hloads.frame, hloads.journal, fun a _ => hloads.loaded a⟩
    | @found obj _ hloads hfind =>
      cases h
      refine ⟨hloads.frame.trans ⟨rfl, rfl, rfl, rfl, rfl, rfl, rfl⟩, hloads.journal, ?_⟩
      intro a _ hl
      exact LoadedAt.setStateObject (hloads.loaded a hl) fun ha => hl obj (ha ▸ hfind)
  | balanceChange account prev => exact changeObject_kept h fun _ hobj => hobj
  | nonceChange account prev => exact changeObject_kept h fun _ hobj => hobj
  | storageChange account key prevvalue origvalue =>
    refine changeObject_kept h fun obj hobj => ?_
    rw [StateObject.setState]
    split
    · exact hobj
    · exact hobj
  | codeChange account prevCode => exact changeObject_kept h fun _ _ => rfl
  | addLogChange txhash =>
    simp only [JournalEntry.revert] at h
    split at h
    · cases h
      exact ⟨⟨rfl, rfl, rfl, rfl, rfl, rfl, rfl⟩, rfl, fun _ _ hl => hl⟩
    · split at h
      · cases h
      · cases h
        exact ⟨⟨rfl, rfl, rfl, rfl, rfl, rfl, rfl⟩, rfl, fun _ _ hl => hl⟩
  | accessListAddSlotChange address slot =>
    simp only [JournalEntry.revert] at h
    split at h
    · cases h
    · cases h
      exact ⟨⟨rfl, rfl, rfl, rfl, rfl, rfl, rfl⟩, rfl, fun _ _ hl => hl⟩
  | refundChange _ | touchChange _ | accessListAddAccountChange _ | transientStorageChange _ _ _ =>
    cases h
    exact ⟨⟨rfl, rfl, rfl, rfl, rfl, rfl, rfl⟩, rfl, fun _ _ hl => hl⟩

/-! ## Views without the codes of some accounts -/

/-- The account without its code, unless it is kept. -/
def AccountView.mask (keep : Bool) (a : AccountView) : AccountView :=
  if keep then a else { a with codeHash := zeroHash, code := [] }

theorem AccountView.mask_mask (keep : Bool) (a : AccountView) :
    (a.mask keep).mask keep = a.mask keep := by
  cases keep with
  | true => rfl
  | false => rfl

namespace View

/-- The view without the codes of the accounts outside of `A`. -/
def mask (A : Address → Bool) (v : View) : View :=
  { v with account := fun a => (v.account a).map (AccountView.mask (A a)) }

variable {A : Address → Bool}

theorem mask_mask (v : View) : (v.mask A).mask A = v.mask A := by
  have haccount : ((v.mask A).mask A).account = (v.mask A).account := by
    funext a
    show Option.map _ (Option.map _ _) = Option.map _ _
    rw [Option.map_map]
    congr 1
    funext x
    exact AccountView.mask_mask (A a) x
  exact View.ext haccount rfl rfl rfl rfl rfl

theorem mask_univ (v : View) : v.mask (fun _ => true) = v := by
  have haccount : (v.mask fun _ => true).account = v.account := by
    funext a
    show (v.account a).map (fun x => x) = v.account a
    rw [Option.map_id']
  exact View.ext haccount rfl rfl rfl rfl rfl

theorem mask_setAccount (v : View) (addr : Address) (x : Option AccountView) :
    (v.setAccount addr x).mask A = (v.mask A).setAccount addr (x.map (AccountView.mask (A addr))) := by
  have haccount : ((v.setAccount addr x).mask A).account =
      ((v.mask A).setAccount addr (x.map (AccountView.mask (A addr)))).account := by
    funext a
    show (update v.account addr x a).map _ = update (v.mask A).account addr _ a
    rw [update_apply, update_apply]
    by_cases h : a = addr
    · rw [if_pos h, if_pos h, h]
    · rw [if_neg h, if_neg h]
      rfl
  exact View.ext haccount rfl rfl rfl rfl rfl

theorem modify_mask {f : AccountView → AccountView} (v : View)
    (hf : ∀ x, (f x).mask (A addr) = (f (x.mask (A addr))).mask (A addr)) :
    (v.modify addr f).map (mask A) = ((v.mask A).modify addr f).map (mask A) := by
  have haccount : (v.mask A).account addr = (v.account addr).map (AccountView.mask (A addr)) := rfl
  rw [modify, modify, haccount]
  cases v.account addr with
  | none => rfl
  | some x =>
    simp only [Option.map_some, Except.map]
    rw [mask_setAccount, mask_setAccount, mask_mask, Option.map_some, Option.map_some, hf]

variable {b : Base}

/-- Undoing an entry does not need the codes left out. -/
theorem undo_mask (v : View) (e : JournalEntry) :
    (v.undo keccak b e).map (mask A) = ((v.mask A).undo keccak b e).map (mask A) := by
  cases e with
  | createObjectChange account =>
    simp only [undo, Except.map]
    rw [mask_setAccount, mask_setAccount, mask_mask]
  | createContractChange account =>
    refine modify_mask v fun x => ?_
    cases A account <;> rfl
  | selfDestructChange account =>
    simp only [undo, Except.map]
    rw [mask_setAccount, mask_setAccount, mask_mask]
    congr 2
    show _ = Option.map _ (Option.map _ (Option.map _ _))
    rw [Option.map_map, Option.map_map, Option.map_map]
    congr 1
    funext x
    simp only [comp]
    cases A account <;> rfl
  | balanceChange account prev =>
    refine modify_mask v fun x => ?_
    cases A account <;> rfl
  | nonceChange account prev =>
    refine modify_mask v fun x => ?_
    cases A account <;> rfl
  | storageChange account key prevvalue origvalue =>
    refine modify_mask v fun x => ?_
    cases A account <;> rfl
  | codeChange account prevCode =>
    refine modify_mask v fun x => ?_
    cases A account <;> rfl
  | refundChange prev =>
    show Except.ok _ = Except.ok _
    congr 1
    exact congrArg (fun w : View => { w with refund := prev }) (mask_mask v).symm
  | addLogChange txhash =>
    show Except.map _ (ite _ _ _) = Except.map _ (ite _ _ _)
    have hlogs : (v.mask A).logs = v.logs := rfl
    rw [hlogs]
    split
    · rfl
    show Except.ok _ = Except.ok _
    congr 1
    exact congrArg (fun w : View => { w with
      logs := update w.logs txhash (w.logs txhash).dropLast
      logSize := w.logSize - 1 }) (mask_mask v).symm
  | touchChange account => exact congrArg Except.ok (mask_mask v).symm
  | accessListAddAccountChange address =>
    show Except.ok _ = Except.ok _
    congr 1
    exact congrArg (fun w : View => { w with accessList := w.accessList.DeleteAddress address })
      (mask_mask v).symm
  | accessListAddSlotChange address slot =>
    have hal : (v.mask A).accessList = v.accessList := rfl
    simp only [undo, hal]
    cases v.accessList.DeleteSlot address slot with
    | error p => rfl
    | ok al =>
      show Except.ok _ = Except.ok _
      congr 1
      exact congrArg (fun w : View => { w with accessList := al }) (mask_mask v).symm
  | transientStorageChange account key prevalue =>
    show Except.ok _ = Except.ok _
    congr 1
    exact congrArg (fun w : View => { w with
      transient := update w.transient account
        (update (w.transient account) key prevalue) }) (mask_mask v).symm

theorem undo_congr {v w : View} (h : v.mask A = w.mask A) (e : JournalEntry) :
    (v.undo keccak b e).map (mask A) = (w.undo keccak b e).map (mask A) := by
  rw [undo_mask, h, ← undo_mask]

theorem undoAll_congr (es : List JournalEntry) : ∀ {v w : View}, v.mask A = w.mask A →
      (undoAll keccak b es v).map (mask A) = (undoAll keccak b es w).map (mask A) := by
  induction es with
  | nil =>
    intro v w h
    exact congrArg Except.ok h
  | cons e es ih =>
    intro v w h
    have hundo := @undo_congr keccak A b v w h e
    rw [undoAll, undoAll]
    generalize v.undo keccak b e = x at hundo ⊢
    generalize w.undo keccak b e = y at hundo ⊢
    cases x with
    | error p =>
      cases y with
      | error q =>
        cases hundo
        rfl
      | ok w' => cases hundo
    | ok v' =>
      cases y with
      | error q => cases hundo
      | ok w' => exact ih (Except.ok.inj hundo)

end View

end GoEthereum.State

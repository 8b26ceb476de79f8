import GoEthereum.State.View

/-!
# Elementary changes

Every operation of a transaction is a sequence of elementary changes of the view, each
with one entry in the journal that undoes it. `Op.acts` says which ones, and
`Op.call_performs` that the operation does just these.
-/

namespace GoEthereum.State

open List Function

variable {T : Type}

variable {addr : Address} {s s' : StateDB T} {v : View}

/-- An elementary change of a view. -/
inductive Act where
  | create (addr : Address)
  | contract (addr : Address)
  | destruct (addr : Address)
  | balance (addr : Address) (amount : Word)
  | nonce (addr : Address) (nonce : UInt64)
  | storage (addr : Address) (key value : Hash)
  | code (addr : Address) (code : Bytes)
  | refund (gas : UInt64)
  | log (log : Log)
  | touch (addr : Address)
  | accessAddress (addr : Address)
  | accessSlot (addr : Address) (slot : Hash)
  | transient (addr : Address) (key value : Hash)
deriving DecidableEq

variable {act : Act}

section

variable (keccak : Bytes → Hash) (b : Base)

/-- The view of a new account. -/
def newAccount (addr : Address) : AccountView :=
  (newObject keccak none : StateObject Unit).view keccak b addr

/-- A change of the account at an address. -/
def View.alter (v : View) (addr : Address) (f : AccountView → AccountView) : View :=
  v.setAccount addr ((v.account addr).map f)

/-- The effect of an elementary change. -/
def Act.apply (v : View) : Act → View
  | .create addr => v.setAccount addr (some (newAccount keccak b addr))
  | .contract addr => v.alter addr ({ · with newContract := true })
  | .destruct addr => v.alter addr ({ · with selfDestructed := true })
  | .balance addr amount => v.alter addr ({ · with balance := amount })
  | .nonce addr n => v.alter addr ({ · with nonce := n })
  | .storage addr key value =>
    v.alter addr fun a => { a with state := update a.state key value }
  | .code addr c => v.alter addr ({ · with codeHash := keccak c, code := c })
  | .refund gas => { v with refund := gas }
  | .log l =>
    { v with
      logs := update v.logs l.txHash (v.logs l.txHash ++ [l.plain])
      logSize := v.logSize + 1 }
  | .touch _ => v
  | .accessAddress addr => { v with accessList := (v.accessList.AddAddress addr).2 }
  | .accessSlot addr slot =>
    match v.accessList.AddSlot addr slot with
    | .error _ => v
    | .ok (_, _, al) => { v with accessList := al }
  | .transient addr key value =>
    let slots := update (v.transient addr) key value
    { v with transient := update v.transient addr slots }

def applyAll (v : View) (acts : List Act) : View := acts.foldl (Act.apply keccak b) v

end

variable {keccak : Bytes → Hash}

/-- The entry an elementary change leaves in the journal. -/
inductive Records (keccak : Bytes → Hash) (s : StateDB T) : Act → JournalEntry → Prop where
  | create {addr : Address} (h : (s.view keccak).account addr = none) :
      Records keccak s (.create addr) (.createObjectChange addr)
  | contract {addr : Address} {a : AccountView} (h : (s.view keccak).account addr = some a)
      (hnew : a.newContract = false) :
      Records keccak s (.contract addr) (.createContractChange addr)
  | destruct {addr : Address} {a : AccountView} (h : (s.view keccak).account addr = some a)
      (hnew : a.selfDestructed = false) :
      Records keccak s (.destruct addr) (.selfDestructChange addr)
  | balance {addr : Address} {a : AccountView} (h : (s.view keccak).account addr = some a)
      (amount : Word) : Records keccak s (.balance addr amount) (.balanceChange addr a.balance)
  | nonce {addr : Address} {a : AccountView} (h : (s.view keccak).account addr = some a)
      (nonce : UInt64) : Records keccak s (.nonce addr nonce) (.nonceChange addr a.nonce)
  | storage {addr : Address} {a : AccountView} (h : (s.view keccak).account addr = some a)
      (key value : Hash) : Records keccak s (.storage addr key value)
        (.storageChange addr key (a.state key) (a.committed key))
  | code {addr : Address} {obj : StateObject T} (h : s.find keccak addr = some obj)
      (code : Bytes) : Records keccak s (.code addr code) (.codeChange addr obj.code)
  | refund (gas : UInt64) : Records keccak s (.refund gas) (.refundChange s.refund)
  | log (log : Log) : Records keccak s (.log log) (.addLogChange log.txHash)
  | touch (addr : Address) : Records keccak s (.touch addr) (.touchChange addr)
  | accessAddress {addr : Address} (h : (s.accessList.AddAddress addr).1 = true) :
      Records keccak s (.accessAddress addr) (.accessListAddAccountChange addr)
  | accessSlot {addr : Address} {slot : Hash} {al : AccessList}
      (h : s.accessList.AddSlot addr slot = .ok (false, true, al)) :
      Records keccak s (.accessSlot addr slot) (.accessListAddSlotChange addr slot)
  | transient (addr : Address) (key value : Hash) : Records keccak s (.transient addr key value)
      (.transientStorageChange addr key ((s.view keccak).transient addr key))

theorem base_account_of_find (h : s.find keccak addr = none) : s.base.account addr = none := by
  rw [StateDB.find] at h
  split at h
  · cases h
  · exact Option.map_eq_none_iff.mp h

theorem modify_alter {a : AccountView} (h : v.account addr = some a)
    (f g : AccountView → AccountView) :
    (v.alter addr f).modify addr g = .ok (v.setAccount addr (some (g (f a)))) := by
  have haccount : (v.alter addr f).account addr = some (f a) := by
    rw [View.alter, View.setAccount, h]
    exact update_self _ _ _
  rw [View.modify, haccount]
  simp only [View.alter, View.setAccount, update_idem]

theorem setAccount_self {a : Option AccountView} (h : v.account addr = a) :
    v.setAccount addr a = v := by
  rw [View.setAccount, ← h, update_eq_self]

/-- **The entry of an elementary change undoes it**, a change of a code as far as that code
was in memory or does not count. -/
theorem undo_apply {A : Address → Bool} {s : StateDB T} {act : Act} {e : JournalEntry}
    (hrec : Records keccak s act e) (hvalid : s.accessList.Valid)
    (hcode : ∀ addr code, act = .code addr code → A addr = true → s.LoadedAt keccak addr) :
    ((act.apply keccak s.base (s.view keccak)).undo keccak s.base e).map (View.mask A) =
      .ok ((s.view keccak).mask A) := by
  have hself : ∀ {addr : Address} {a : AccountView} {f g : AccountView → AccountView},
      (s.view keccak).account addr = some a → (g (f a)).mask (A addr) = a.mask (A addr) →
      (((s.view keccak).alter addr f).modify addr g).map (View.mask A) =
        .ok ((s.view keccak).mask A) := by
    intro addr a f g h hfg
    rw [modify_alter h]
    show Except.ok _ = Except.ok _
    rw [View.mask_setAccount, Option.map_some, hfg]
    congr 1
    refine setAccount_self ?_
    show ((s.view keccak).account addr).map _ = _
    rw [h]
    rfl
  cases hrec with
  | @create addr h =>
    have hbase := base_account_of_find (account_eq_none.mp h)
    simp only [Act.apply, View.undo, hbase, Option.map_none, View.setAccount, update_idem]
    rw [← h, update_eq_self]
    rfl
  | contract h hnew =>
    refine hself h ?_
    rw [← hnew]
  | @destruct addr a h hnew =>
    have haccount : ((s.view keccak).alter addr ({ · with selfDestructed := true })).account addr =
        some { a with selfDestructed := true } := by
      rw [View.alter, View.setAccount, h]
      exact update_self _ _ _
    simp only [Act.apply, View.undo, haccount, Option.map_some]
    rw [← hnew]
    show Except.ok _ = Except.ok _
    simp only [View.alter, View.setAccount, update_idem]
    rw [← h, update_eq_self]
  | balance h amount => exact hself h rfl
  | nonce h nonce => exact hself h rfl
  | @storage addr a h key value =>
    refine hself h ?_
    have hslot : (if a.state key = a.committed key then a.committed key else a.state key) =
        a.state key := by
      split
      · rename_i heq
        exact heq.symm
      · rfl
    simp only [update_idem, hslot, update_eq_self]
  | @code addr obj h code =>
    have haccount : (s.view keccak).account addr = some (obj.view keccak s.base addr) := by
      rw [view_account, h]
      rfl
    refine hself haccount ?_
    cases hA : A addr with
    | false => rfl
    | true =>
      have hloaded : keccak obj.code = obj.data.codeHash := hcode addr code rfl hA obj h
      have hview : (obj.view keccak s.base addr).code = obj.code :=
        codeOf_of_loaded s.base hloaded
      rw [hloaded, ← hview]
      rfl
  | refund gas => rfl
  | log log =>
    simp only [Act.apply, View.undo, update_self, append_eq_nil_iff,
      cons_ne_self, and_false, if_false, update_idem, dropLast_concat,
      update_eq_self, Nat.add_sub_cancel, cons_ne_nil]
    rfl
  | touch addr => rfl
  | accessAddress h =>
    simp only [Act.apply, View.undo]
    have hal : (s.view keccak).accessList = s.accessList := rfl
    rw [hal, AccessList.deleteAddress_addAddress h]
    rfl
  | @accessSlot addr slot al h =>
    obtain ⟨addrChange, slotChange, al', heq, -, -, hdelete⟩ := hvalid.addSlot addr slot
    rw [h] at heq
    cases heq
    obtain ⟨al'', hal'', hback⟩ := hdelete rfl
    have hal : (s.view keccak).accessList = s.accessList := rfl
    simp only [Act.apply, View.undo, hal, h, hal'']
    rw [if_neg (by decide)] at hback
    rw [← hback]
    rfl
  | transient addr key value =>
    simp only [Act.apply, View.undo, update_self, update_idem, update_eq_self]
    rfl

/-! ## Sequences of elementary changes -/

/-- Appending an entry, with the extra mark of `touchChange`. -/
def Journal.record (j : Journal) (e : JournalEntry) : Journal :=
  if e = .touchChange ripemd then (j.append e).dirty ripemd else j.append e

theorem touchChange_eq_record (j : Journal) (addr : Address) :
    j.touchChange addr = j.record (.touchChange addr) := by
  simp only [Journal.touchChange, Journal.record, JournalEntry.touchChange.injEq]
  split
  · rename_i h
    rw [h]
  · rfl

/-- The state after an elementary change. -/
structure Acted (keccak : Bytes → Hash) (s : StateDB T) (act : Act) (e : JournalEntry)
    (s' : StateDB T) : Prop where
  frame : Frame s s'
  records : Records keccak s act e
  journal : s'.journal = s.journal.record e
  view : s'.view keccak = act.apply keccak s.base (s.view keccak)
  loaded : ∀ addr, s.LoadedAt keccak addr → s'.LoadedAt keccak addr
  recoded : ∀ addr code, act = .code addr code → s'.LoadedAt keccak addr

/-- The state after reads and a sequence of elementary changes. -/
inductive Performs (keccak : Bytes → Hash) (s : StateDB T) : List Act → StateDB T → Prop where
  | refl : Performs keccak s [] s
  | load {acts : List Act} {s₁ s₂ : StateDB T} (h : Performs keccak s acts s₁)
      (h' : Loads keccak s₁ s₂) : Performs keccak s acts s₂
  | act {acts : List Act} {act : Act} {e : JournalEntry} {s₁ s₂ : StateDB T}
      (h : Performs keccak s acts s₁) (h' : Acted keccak s₁ act e s₂) :
      Performs keccak s (acts ++ [act]) s₂

namespace Performs

theorem ofLoads (h : Loads keccak s s') : Performs keccak s [] s' :=
  .load .refl h

theorem ofActed {e : JournalEntry} (h : Acted keccak s act e s') :
    Performs keccak s [act] s' := .act .refl h

theorem trans {s₁ s₂ : StateDB T} {acts acts' : List Act} (h : Performs keccak s acts s₁)
    (h' : Performs keccak s₁ acts' s₂) : Performs keccak s (acts ++ acts') s₂ := by
  induction h' with
  | refl =>
    rw [append_nil]
    exact h
  | load _ hl ih => exact .load ih hl
  | act _ ha ih =>
    rw [← append_assoc]
    exact .act ih ha

theorem frame {acts : List Act} (h : Performs keccak s acts s') : Frame s s' := by
  induction h with
  | refl => exact .refl s
  | load _ hl ih => exact ih.trans hl.frame
  | act _ ha ih => exact ih.trans ha.frame

theorem view {acts : List Act} (h : Performs keccak s acts s') :
    s'.view keccak = applyAll keccak s.base (s.view keccak) acts := by
  induction h with
  | refl => rfl
  | load _ hl ih => rw [hl.view, ih]
  | act h ha ih =>
    rw [ha.view, ih, h.frame.base, applyAll, applyAll, foldl_append]
    rfl

theorem loaded {acts : List Act} (h : Performs keccak s acts s') (hl : s.LoadedAt keccak addr) :
    s'.LoadedAt keccak addr := by
  induction h with
  | refl => exact hl
  | load _ hload ih => exact hload.loaded addr ih
  | act _ ha ih => exact ha.loaded addr ih

/-- What every elementary change of a kind keeps, a sequence of them keeps. -/
theorem preserves {β : Type} {f : View → β} {P : Act → Prop} {acts : List Act}
    (hstep : ∀ {s : StateDB T} {act : Act} {e : JournalEntry}, Records keccak s act e → P act →
      f (act.apply keccak s.base (s.view keccak)) = f (s.view keccak))
    (h : Performs keccak s acts s') (hacts : ∀ act ∈ acts, P act) :
    f (s'.view keccak) = f (s.view keccak) := by
  induction h with
  | refl => rfl
  | load _ hl ih =>
    rw [hl.view]
    exact ih hacts
  | act _ ha ih =>
    obtain ⟨hinit, hlast⟩ := forall_mem_append.mp hacts
    rw [ha.view, hstep ha.records (hlast _ (mem_singleton_self _))]
    exact ih hinit

end Performs

/-- An elementary change of an account. -/
theorem acted_object {s : StateDB T} {addr : Address} {obj : StateObject T} {act : Act}
    {e : JournalEntry} {a : AccountView} {f : AccountView → AccountView}
    (hrec : Records keccak s act e) (he : e ≠ .touchChange ripemd)
    (haccount : (s.view keccak).account addr = some a)
    (hact : ∀ v, act.apply keccak s.base v = v.alter addr f)
    (hview : obj.view keccak s.base addr = f a)
    (hloaded : s.LoadedAt keccak addr → obj.Loaded keccak)
    (hrecoded : ∀ a' c, act = .code a' c → a' = addr ∧ obj.Loaded keccak) :
    Acted keccak s act e ((s.log e).setStateObject addr obj) where
  frame := ⟨rfl, rfl, rfl, rfl, rfl, rfl, rfl⟩
  records := hrec
  journal := by
    rw [Journal.record, if_neg he]
    rfl
  view := by
    rw [view_setStateObject, hact, View.alter, haccount]
    show (s.view keccak).setAccount addr (some (obj.view keccak s.base addr)) = _
    rw [hview]
    rfl
  loaded a' h := by
    refine LoadedAt.setStateObject (show (s.log e).LoadedAt keccak a' from h) fun ha => ?_
    exact hloaded (ha ▸ h)
  recoded a' c h := by
    obtain ⟨rfl, hobj⟩ := hrecoded a' c h
    intro obj' hobj'
    rw [find_setStateObject, if_pos rfl] at hobj'
    cases hobj'
    exact hobj

/-! ## Objects -/

/-- `createObject` where there was no account. -/
theorem acted_createObject (h : (s.view keccak).account addr = none) :
    Acted keccak s (.create addr) (.createObjectChange addr) (s.createObject keccak addr).2 where
  frame := ⟨rfl, rfl, rfl, rfl, rfl, rfl, rfl⟩
  records := .create h
  journal := rfl
  view := by
    rw [StateDB.createObject]
    simp only
    rw [view_setStateObject]
    rfl
  loaded a hl := LoadedAt.setStateObject (show (s.log _).LoadedAt keccak a from hl) fun _ => rfl
  recoded a c h := by cases h

theorem setStateObject_twice {obj obj' : StateObject T} {e : JournalEntry} :
    ((s.setStateObject addr obj).log e).setStateObject addr obj' =
      (s.log e).setStateObject addr obj' := by
  simp only [StateDB.setStateObject, StateDB.log, Finmap.insert_insert]

/-- The acts of `getOrNewStateObject`. -/
def View.ensure (v : View) (addr : Address) : List Act :=
  match v.account addr with
  | none => [.create addr]
  | some _ => []

/-- The account of `getOrNewStateObject`. -/
def View.getOrNew (keccak : Bytes → Hash) (b : Base) (v : View) (addr : Address) : AccountView :=
  (v.account addr).getD (newAccount keccak b addr)

/-- `getOrNewStateObject` returns the account's object, if need be a new one. -/
theorem getOrNewStateObject_cases (keccak : Bytes → Hash) (s : StateDB T) (addr : Address) :
    ∃ obj s₁, s.getOrNewStateObject keccak addr = (obj, s₁) ∧
      Performs keccak s ((s.view keccak).ensure addr) s₁ ∧ s₁.find keccak addr = some obj ∧
      (s₁.view keccak).account addr = some (obj.view keccak s₁.base addr) ∧
      (s.view keccak).getOrNew keccak s.base addr = obj.view keccak s₁.base addr := by
  have hlook := getStateObject_looked keccak s addr
  rw [StateDB.getOrNewStateObject, View.ensure, View.getOrNew]
  generalize s.getStateObject keccak addr = r at hlook
  cases hlook with
  | @found obj s₁ hloads hfind hfind₁ =>
    rw [account_of_find hfind, hloads.frame.base.symm]
    exact ⟨obj, s₁, rfl, .ofLoads hloads, hfind₁, account_of_find hfind₁, rfl⟩
  | @absent s₁ hloads hfind =>
    have hnone := account_eq_none.mpr hfind
    have hobj : (s₁.createObject keccak addr).2.find keccak addr =
        some (s₁.createObject keccak addr).1 := by
      simp only [StateDB.createObject]
      rw [find_setStateObject, if_pos rfl]
    have hperf := (Performs.ofLoads hloads).trans
      (.ofActed (acted_createObject (hloads.view ▸ hnone)))
    rw [hnone, hloads.frame.base.symm]
    exact ⟨_, _, rfl, hperf, hobj, account_of_find hobj, rfl⟩

def AccountView.empty (keccak : Bytes → Hash) (a : AccountView) : Bool :=
  a.nonce = 0 ∧ a.balance = 0 ∧ a.codeHash = emptyCodeHash keccak

/-! ## Getters -/

/-- The getters, with their arguments. -/
inductive Getter where
  | exist (addr : Address)
  | empty (addr : Address)
  | balance (addr : Address)
  | nonce (addr : Address)
  | storageRoot (addr : Address)
  | code (addr : Address)
  | codeSize (addr : Address)
  | codeHash (addr : Address)
  | state (addr : Address) (key : Hash)
  | committedState (addr : Address) (key : Hash)
  | transientState (addr : Address) (key : Hash)
  | hasSelfDestructed (addr : Address)
  | refund
  | logs (hash : Hash) (blockNumber : Nat) (blockHash : Hash)
  | addressInAccessList (addr : Address)
  | slotInAccessList (addr : Address) (slot : Hash)

/-- What a getter returns. -/
inductive Answer where
  | bool (x : Bool)
  | bools (x y : Bool)
  | word (x : Word)
  | uint64 (x : UInt64)
  | int (x : Nat)
  | hash (x : Hash)
  | bytes (x : Bytes)
  | logs (x : List Log)
deriving DecidableEq

/-- A call of a getter. -/
def Getter.call (keccak : Bytes → Hash) (s : StateDB T) : Getter → Except Panic (Answer × StateDB T)
  | .exist addr => .ok ((s.Exist keccak addr).map .bool id)
  | .empty addr => .ok ((s.Empty keccak addr).map .bool id)
  | .balance addr => .ok ((s.GetBalance keccak addr).map .word id)
  | .nonce addr => .ok ((s.GetNonce keccak addr).map .uint64 id)
  | .storageRoot addr => .ok ((s.GetStorageRoot keccak addr).map .hash id)
  | .code addr => .ok ((s.GetCode keccak addr).map .bytes id)
  | .codeSize addr => .ok ((s.GetCodeSize keccak addr).map .int id)
  | .codeHash addr => .ok ((s.GetCodeHash keccak addr).map .hash id)
  | .state addr key => .ok ((s.GetState keccak addr key).map .hash id)
  | .committedState addr key => .ok ((s.GetCommittedState keccak addr key).map .hash id)
  | .transientState addr key => .ok (.hash (s.GetTransientState addr key), s)
  | .hasSelfDestructed addr => .ok ((s.HasSelfDestructed keccak addr).map .bool id)
  | .refund => .ok (.uint64 s.refund, s)
  | .logs hash blockNumber blockHash =>
    .ok ((s.GetLogs hash blockNumber blockHash).map .logs id)
  | .addressInAccessList addr => .ok (.bool (s.AddressInAccessList addr), s)
  | .slotInAccessList addr slot =>
    (s.SlotInAccessList addr slot).map fun r => (.bools r.1 r.2, s)

/-- What a getter returns in a view. -/
def Getter.answer (keccak : Bytes → Hash) (v : View) : Getter → Except Panic Answer
  | .exist addr => .ok (.bool (v.account addr).isSome)
  | .empty addr => .ok (.bool ((v.account addr).all (·.empty keccak)))
  | .balance addr => .ok (.word ((v.account addr).elim 0 (·.balance)))
  | .nonce addr => .ok (.uint64 ((v.account addr).elim 0 (·.nonce)))
  | .storageRoot addr => .ok (.hash ((v.account addr).elim zeroHash (·.root)))
  | .code addr => .ok (.bytes ((v.account addr).elim [] (·.code)))
  | .codeSize addr => .ok (.int ((v.account addr).elim 0 (·.code.length)))
  | .codeHash addr => .ok (.hash ((v.account addr).elim zeroHash (·.codeHash)))
  | .state addr key => .ok (.hash ((v.account addr).elim zeroHash (·.state key)))
  | .committedState addr key => .ok (.hash ((v.account addr).elim zeroHash (·.committed key)))
  | .transientState addr key => .ok (.hash (v.transient addr key))
  | .hasSelfDestructed addr => .ok (.bool ((v.account addr).any (·.selfDestructed)))
  | .refund => .ok (.uint64 v.refund)
  | .logs hash blockNumber blockHash =>
    .ok (.logs ((v.logs hash).map ({ · with blockNumber := blockNumber, blockHash := blockHash })))
  | .addressInAccessList addr => .ok (.bool (v.accessList.ContainsAddress addr))
  | .slotInAccessList addr slot =>
    (v.accessList.Contains addr slot).map fun r => .bools r.1 r.2

/-- A getter's answer is the one expected, and it changes at most caches. -/
structure Answers (keccak : Bytes → Hash) (s : StateDB T)
    (r : Except Panic (Answer × StateDB T)) (a : Except Panic Answer) : Prop where
  answer : r.map Prod.fst = a
  loads : ∀ x, r = .ok x → Loads keccak s x.2

theorem answers_ok {α : Type} {r : α × StateDB T} {x : α} (c : α → Answer) (hvalue : r.1 = x)
    (hloads : Loads keccak s r.2) : Answers keccak s (.ok (r.map c id)) (.ok (c x)) := by
  refine ⟨congrArg (fun x => Except.ok (c x)) hvalue, fun x hx => ?_⟩
  cases hx
  exact hloads

theorem answers_here (s : StateDB T) (a : Answer) : Answers keccak s (.ok (a, s)) (.ok a) :=
  @answers_ok T s keccak Answer (a, s) a id rfl (.refl s)

/-- A getter that looks up an account and returns a part of it. -/
theorem lookup_answers {α : Type} (s : StateDB T) (addr : Address) (c : α → Answer) (d : α)
    (f : StateObject T → α) (g : AccountView → α)
    (hfg : ∀ obj : StateObject T, f obj = g (obj.view keccak s.base addr)) :
    Answers keccak s
      (.ok ((match s.getStateObject keccak addr with
        | (none, s) => (d, s)
        | (some obj, s) => (f obj, s)).map c id))
      (.ok (c (((s.view keccak).account addr).elim d g))) := by
  have hlook := getStateObject_looked keccak s addr
  generalize s.getStateObject keccak addr = r at hlook
  cases hlook with
  | absent hloads hfind => exact answers_ok c (by rw [account_eq_none.mpr hfind]; rfl) hloads
  | @found obj s₁ hloads hfind =>
    exact answers_ok c (by rw [account_of_find hfind]; exact hfg obj) hloads

/-- A getter that looks up an account and also changes a cache of it. -/
theorem lookup_cache_answers {α : Type} (s : StateDB T) (addr : Address) (c : α → Answer) (d : α)
    (f : StateObject T → StateDB T → α × StateObject T × StateDB T) (g : AccountView → α)
    (hf : ∀ (obj : StateObject T) (db : StateDB T), Loads keccak s db →
      (f obj db).1 = g (obj.view keccak s.base addr) ∧
      (f obj db).2.1.view keccak s.base addr = obj.view keccak s.base addr ∧
      (obj.Loaded keccak → (f obj db).2.1.Loaded keccak) ∧ Loads keccak db (f obj db).2.2) :
    Answers keccak s
      (.ok ((match s.getStateObject keccak addr with
        | (none, s) => (d, s)
        | (some obj, s) =>
          ((f obj s).1, (f obj s).2.2.setStateObject addr (f obj s).2.1)).map c id))
      (.ok (c (((s.view keccak).account addr).elim d g))) := by
  have hlook := getStateObject_looked keccak s addr
  generalize s.getStateObject keccak addr = r at hlook
  cases hlook with
  | absent hloads hfind => exact answers_ok c (by rw [account_eq_none.mpr hfind]; rfl) hloads
  | @found obj s₁ hloads hfind =>
    obtain ⟨hvalue, hview, hloaded, hdb⟩ := hf obj s₁ hloads
    have haccount := account_of_find hfind
    refine answers_ok c (by rw [haccount]; exact hvalue) ((hloads.trans hdb).setStateObject ?_ ?_)
    · rw [hview, haccount]
    · exact fun h => hloaded (h obj hfind)

/-- `Code` returns what the view shows, and caches it. -/
theorem code_spec (obj : StateObject T) (addr : Address) (db : StateDB T) :
    (obj.Code keccak db).1 = (obj.view keccak db.base addr).code ∧
      (obj.Code keccak db).2.1.view keccak db.base addr = obj.view keccak db.base addr ∧
      (obj.Loaded keccak → (obj.Code keccak db).2.1.Loaded keccak) ∧
      Loads keccak db (obj.Code keccak db).2.2 := by
  have hview : (obj.view keccak db.base addr).code =
      db.base.codeOf keccak obj.code obj.data.codeHash := rfl
  rw [hview, Base.codeOf, StateObject.Code]
  by_cases hne : obj.code ≠ []
  · simp only [if_pos hne]
    exact ⟨trivial, trivial, id, .refl db⟩
  by_cases hempty : obj.data.codeHash = emptyCodeHash keccak
  · simp only [if_neg hne, if_pos hempty]
    exact ⟨trivial, trivial, id, .refl db⟩
  simp only [if_neg hne, if_neg hempty]
  refine ⟨rfl, ?_, fun hl => ?_, ?_⟩
  · have hcode : db.base.codeOf keccak (db.reader.Code obj.data.codeHash) obj.data.codeHash =
        db.base.codeOf keccak obj.code obj.data.codeHash := by
      simp only [Base.codeOf, if_neg hne, if_neg hempty]
      split
      · rfl
      · rfl
    simp only [StateObject.view, hcode]
    rfl
  · rw [StateObject.Loaded, not_not.mp hne] at hl
    exact absurd hl.symm hempty
  · split
    · exact loads_setError db _
    · exact .refl db

theorem codeSize_spec (obj : StateObject T) (addr : Address) (db : StateDB T) :
    (obj.CodeSize keccak db).1 = (obj.view keccak db.base addr).code.length ∧
      Loads keccak db (obj.CodeSize keccak db).2 := by
  have hview : (obj.view keccak db.base addr).code =
      db.base.codeOf keccak obj.code obj.data.codeHash := rfl
  rw [hview, Base.codeOf, StateObject.CodeSize]
  by_cases hne : obj.code ≠ []
  · simp only [if_pos hne]
    exact ⟨trivial, .refl db⟩
  by_cases hempty : obj.data.codeHash = emptyCodeHash keccak
  · simp only [if_neg hne, if_pos hempty]
    exact ⟨rfl, .refl db⟩
  simp only [if_neg hne, if_neg hempty]
  refine ⟨rfl, ?_⟩
  split
  · exact loads_setError db _
  · exact .refl db

theorem getLogs_spec (s : StateDB T) (hash : Hash) (blockNumber : Nat) (blockHash : Hash) :
    (s.GetLogs hash blockNumber blockHash).1 = ((s.view keccak).logs hash).map
      ({ · with blockNumber := blockNumber, blockHash := blockHash }) ∧
    Loads keccak s (s.GetLogs hash blockNumber blockHash).2 := by
  have hview : ∀ h, (s.view keccak).logs h = ((s.logs.lookup h).getD []).map Log.plain :=
    fun _ => rfl
  rw [StateDB.GetLogs, hview]
  cases hlookup : s.logs.lookup hash with
  | none => exact ⟨rfl, .refl s⟩
  | some logs =>
    simp only [Option.getD_some, map_map]
    refine ⟨rfl, ⟨rfl, rfl, rfl, rfl, rfl, rfl, rfl⟩, rfl, ?_, fun _ h => h⟩
    refine View.ext rfl rfl rfl ?_ rfl rfl
    funext h
    show ((Finmap.lookup h (s.logs.insert hash _)).getD []).map Log.plain = _
    rw [Map.lookup_insert_ite, hview]
    split
    · rename_i hh
      rw [hh, hlookup, Option.getD_some, Option.getD_some, map_map]
      rfl
    · rfl

/-- **A getter returns what the view shows**, and changes at most caches. -/
theorem Getter.call_spec (s : StateDB T) (g : Getter) :
    Answers keccak s (g.call keccak s) (g.answer keccak (s.view keccak)) := by
  cases g with
  | exist addr =>
    have hlook := getStateObject_looked keccak s addr
    simp only [Getter.call, StateDB.Exist, Getter.answer]
    generalize s.getStateObject keccak addr = r at hlook
    cases hlook with
    | absent hloads hfind => exact answers_ok .bool (by rw [account_eq_none.mpr hfind]; rfl) hloads
    | found hloads hfind => exact answers_ok .bool (by rw [account_of_find hfind]; rfl) hloads
  | empty addr =>
    have hall : ((s.view keccak).account addr).all (·.empty keccak) =
        ((s.view keccak).account addr).elim true (·.empty keccak) := by
      cases (s.view keccak).account addr <;> rfl
    rw [Getter.answer, hall]
    exact lookup_answers s addr .bool true (·.empty keccak) (·.empty keccak) (fun _ => rfl)
  | balance addr => exact lookup_answers s addr .word 0 (·.data.balance) (·.balance) (fun _ => rfl)
  | nonce addr => exact lookup_answers s addr .uint64 0 (·.data.nonce) (·.nonce) (fun _ => rfl)
  | storageRoot addr =>
    exact lookup_answers s addr .hash zeroHash (·.data.root) (·.root) (fun _ => rfl)
  | code addr =>
    refine lookup_cache_answers s addr .bytes [] (fun obj db => obj.Code keccak db) (·.code) ?_
    intro obj db hdb
    rw [← hdb.frame.base]
    exact code_spec obj addr db
  | codeSize addr =>
    have hlook := getStateObject_looked keccak s addr
    simp only [Getter.call, StateDB.GetCodeSize, Getter.answer]
    generalize s.getStateObject keccak addr = r at hlook
    cases hlook with
    | absent hloads hfind => exact answers_ok .int (by rw [account_eq_none.mpr hfind]; rfl) hloads
    | @found obj s₁ hloads hfind =>
      obtain ⟨hvalue, hsize⟩ := @codeSize_spec T keccak obj addr s₁
      rw [hloads.frame.base] at hvalue
      exact answers_ok .int (by rw [account_of_find hfind]; exact hvalue) (hloads.trans hsize)
  | codeHash addr =>
    exact lookup_answers s addr .hash zeroHash (·.data.codeHash) (·.codeHash) (fun _ => rfl)
  | state addr key =>
    refine lookup_cache_answers s addr .hash zeroHash
      (fun obj db => ((obj.getState addr key db).1.1, (obj.getState addr key db).2))
      (·.state key) fun obj db hdb => ?_
    obtain ⟨hvalue, hview, hloaded, hload⟩ := @getState_spec T keccak obj addr key db
    rw [hdb.frame.base] at hvalue hview
    exact ⟨congrArg Prod.fst hvalue, hview, hloaded.mpr, hload⟩
  | committedState addr key =>
    refine lookup_cache_answers s addr .hash zeroHash
      (fun obj db => obj.GetCommittedState addr key db) (·.committed key) fun obj db hdb => ?_
    obtain ⟨hvalue, ⟨m, hobj⟩, hcommitted, hload⟩ :=
      @getCommittedState_spec T keccak obj addr key db
    rw [hdb.frame.base] at hvalue hcommitted
    refine ⟨hvalue, ?_, fun hl => ?_, hload⟩
    · simp only [StateObject.view, hcommitted]
      rw [hobj]
    · rw [hobj]
      exact hl
  | hasSelfDestructed addr =>
    have hany : ((s.view keccak).account addr).any (·.selfDestructed) =
        ((s.view keccak).account addr).elim false (·.selfDestructed) := by
      cases (s.view keccak).account addr <;> rfl
    rw [Getter.answer, hany]
    exact lookup_answers s addr .bool false (·.selfDestructed) (·.selfDestructed) (fun _ => rfl)
  | logs hash blockNumber blockHash =>
    obtain ⟨hvalue, hloads⟩ := @getLogs_spec T keccak s hash blockNumber blockHash
    exact answers_ok .logs hvalue hloads
  | slotInAccessList addr slot =>
    have hal : (s.view keccak).accessList = s.accessList := rfl
    simp only [Getter.call, StateDB.SlotInAccessList, Getter.answer, hal]
    cases s.accessList.Contains addr slot with
    | error p => exact ⟨rfl, fun _ hx => by cases hx⟩
    | ok x => exact answers_here s _
  | transientState _ _ | refund | addressInAccessList _ => exact answers_here s _

/-- No getter panics on a valid access list. -/
theorem Getter.answer_ne_error (hvalid : v.accessList.Valid) {g : Getter} (p : Panic) :
    g.answer keccak v ≠ .error p := by
  cases g with
  | slotInAccessList addr slot =>
    simp only [Getter.answer]
    rw [AccessList.Contains]
    split
    · rintro ⟨⟩
    next idx hlookup =>
    split
    · rintro ⟨⟩
    · rename_i hidx
      obtain ⟨m, hm, -⟩ := hvalid addr idx hlookup hidx
      rw [hm]
      rintro ⟨⟩
  | _ => rintro ⟨⟩

/-! ## Operations -/

/-- The operations of a transaction, with their arguments. -/
inductive Op where
  | addBalance (addr : Address) (amount : Word)
  | subBalance (addr : Address) (amount : Word)
  | setBalance (addr : Address) (amount : Word)
  | setNonce (addr : Address) (nonce : UInt64)
  | setCode (addr : Address) (code : Bytes)
  | setState (addr : Address) (key value : Hash)
  | setTransientState (addr : Address) (key value : Hash)
  | selfDestruct (addr : Address)
  | selfDestruct6780 (addr : Address)
  | createAccount (addr : Address)
  | createContract (addr : Address)
  | addRefund (gas : UInt64)
  | subRefund (gas : UInt64)
  | addLog (log : Log)
  | addAddressToAccessList (addr : Address)
  | addSlotToAccessList (addr : Address) (slot : Hash)
  | get (g : Getter)

/-- The state after a call of an operation. -/
def Op.call (keccak : Bytes → Hash) (s : StateDB T) : Op → Except Panic (StateDB T)
  | .addBalance addr amount => .ok (s.AddBalance keccak addr amount).2
  | .subBalance addr amount => .ok (s.SubBalance keccak addr amount).2
  | .setBalance addr amount => .ok (s.SetBalance keccak addr amount)
  | .setNonce addr nonce => .ok (s.SetNonce keccak addr nonce)
  | .setCode addr code => .ok (s.SetCode keccak addr code).2
  | .setState addr key value => .ok (s.SetState keccak addr key value).2
  | .setTransientState addr key value => .ok (s.SetTransientState addr key value)
  | .selfDestruct addr => .ok (s.SelfDestruct keccak addr).2
  | .selfDestruct6780 addr => .ok (s.SelfDestruct6780 keccak addr).2
  | .createAccount addr => .ok (s.CreateAccount keccak addr)
  | .createContract addr => s.CreateContract keccak addr
  | .addRefund gas => .ok (s.AddRefund gas)
  | .subRefund gas => s.SubRefund gas
  | .addLog log => .ok (s.AddLog log)
  | .addAddressToAccessList addr => .ok (s.AddAddressToAccessList addr)
  | .addSlotToAccessList addr slot => s.AddSlotToAccessList addr slot
  | .get g => (g.call keccak s).map Prod.snd

/-- The contracts of the operations: an account is created only where there is none, a
contract only where there is an account, and the refund counter is not overdrawn. -/
def Op.Allowed (v : View) : Op → Prop
  | .createAccount addr => v.account addr = none
  | .createContract addr => v.account addr ≠ none
  | .subRefund gas => gas ≤ v.refund
  | _ => True

/-- The acts of `SelfDestruct`. -/
def View.destructActs (v : View) (addr : Address) : List Act :=
  match v.account addr with
  | none => []
  | some a =>
    (if a.balance ≠ 0 then [.balance addr 0] else []) ++
      (if a.selfDestructed then [] else [.destruct addr])

/-- The elementary changes an operation makes. -/
def Op.acts (keccak : Bytes → Hash) (b : Base) (thash : Hash) (txIndex : Nat) (v : View) :
    Op → List Act
  | .addBalance addr amount =>
    let a := v.getOrNew keccak b addr
    v.ensure addr ++ if amount = 0 then (if a.empty keccak then [.touch addr] else [])
      else [.balance addr (a.balance + amount)]
  | .subBalance addr amount =>
    v.ensure addr ++
      if amount = 0 then [] else [.balance addr ((v.getOrNew keccak b addr).balance - amount)]
  | .setBalance addr amount => v.ensure addr ++ [.balance addr amount]
  | .setNonce addr nonce => v.ensure addr ++ [.nonce addr nonce]
  | .setCode addr code => v.ensure addr ++ [.code addr code]
  | .setState addr key value =>
    v.ensure addr ++
      if (v.getOrNew keccak b addr).state key = value then [] else [.storage addr key value]
  | .setTransientState addr key value =>
    if v.transient addr key = value then [] else [.transient addr key value]
  | .selfDestruct addr => v.destructActs addr
  | .selfDestruct6780 addr =>
    if (v.account addr).any (·.newContract) then v.destructActs addr else []
  | .createAccount addr => [.create addr]
  | .createContract addr => if (v.account addr).any (·.newContract) then [] else [.contract addr]
  | .addRefund gas => [.refund (v.refund + gas)]
  | .subRefund gas => [.refund (v.refund - gas)]
  | .addLog log => [.log { log with txHash := thash, txIndex := txIndex, index := v.logSize }]
  | .addAddressToAccessList addr =>
    if (v.accessList.AddAddress addr).1 then [.accessAddress addr] else []
  | .addSlotToAccessList addr slot =>
    match v.accessList.AddSlot addr slot with
    | .error _ => []
    | .ok (addrMod, slotMod, _) =>
      (if addrMod then [.accessAddress addr] else []) ++
        (if slotMod then [.accessSlot addr slot] else [])
  | .get _ => []

/-- The acts of an operation in a state. -/
def StateDB.acts (keccak : Bytes → Hash) (s : StateDB T) (op : Op) : List Act :=
  op.acts keccak s.base s.thash s.txIndex (s.view keccak)

theorem acted_touch (s : StateDB T) (addr : Address) :
    Acted keccak s (.touch addr) (.touchChange addr) (StateObject.touch addr s) where
  frame := ⟨rfl, rfl, rfl, rfl, rfl, rfl, rfl⟩
  records := .touch addr
  journal := touchChange_eq_record s.journal addr
  view := rfl
  loaded _ h := h
  recoded _ _ h := by cases h

/-- Setting the balance of an object that is the account's. -/
theorem acted_setBalance {obj : StateObject T}
    (haccount : (s.view keccak).account addr = some (obj.view keccak s.base addr))
    (hloaded : s.LoadedAt keccak addr → obj.Loaded keccak) (amount : Word) :
    Acted keccak s (.balance addr amount) (.balanceChange addr obj.data.balance)
      ((s.log (.balanceChange addr obj.data.balance)).setStateObject addr
        (obj.setBalance amount)) :=
  acted_object (.balance haccount amount) (by intro h; cases h) haccount (fun _ => rfl) rfl hloaded
    (by intro _ _ h; cases h)

section

variable (s : StateDB T) (addr : Address)

theorem addBalance_performs (amount : Word) :
    Performs keccak s (s.acts keccak (.addBalance addr amount))
      (s.AddBalance keccak addr amount).2 := by
  obtain ⟨obj, s₁, heq, hperf, hfind, haccount, hview⟩ := getOrNewStateObject_cases keccak s addr
  have hloaded : s₁.LoadedAt keccak addr → obj.Loaded keccak := fun h => h obj hfind
  rw [StateDB.AddBalance, heq]
  simp only [StateDB.acts, Op.acts, hview]
  refine hperf.trans ?_
  by_cases hzero : amount = 0
  · have hempty : (obj.view keccak s₁.base addr).empty keccak = obj.empty keccak := rfl
    simp only [StateObject.AddBalance, if_pos hzero, hempty]
    split
    · refine (Performs.ofActed (acted_touch s₁ addr)).load ?_
      exact (Loads.refl _).setStateObject haccount hloaded
    · exact .ofLoads ((Loads.refl _).setStateObject haccount hloaded)
  · simp only [StateObject.AddBalance, if_neg hzero, StateObject.SetBalance]
    exact .ofActed (acted_setBalance haccount hloaded _)

theorem subBalance_performs (amount : Word) :
    Performs keccak s (s.acts keccak (.subBalance addr amount))
      (s.SubBalance keccak addr amount).2 := by
  obtain ⟨obj, s₁, heq, hperf, hfind, haccount, hview⟩ := getOrNewStateObject_cases keccak s addr
  rw [StateDB.SubBalance, heq]
  simp only [StateDB.acts, Op.acts, hview]
  refine hperf.trans ?_
  by_cases hzero : amount = 0
  · simp only [if_pos hzero]
    exact .refl
  · simp only [if_neg hzero, StateObject.SetBalance]
    exact .ofActed (acted_setBalance haccount (fun h => h obj hfind) _)

theorem setBalance_performs (amount : Word) :
    Performs keccak s (s.acts keccak (.setBalance addr amount))
      (s.SetBalance keccak addr amount) := by
  obtain ⟨obj, s₁, heq, hperf, hfind, haccount, -⟩ := getOrNewStateObject_cases keccak s addr
  rw [StateDB.SetBalance, heq]
  exact hperf.trans (.ofActed (acted_setBalance haccount (fun h => h obj hfind) amount))

theorem setNonce_performs (nonce : UInt64) :
    Performs keccak s (s.acts keccak (.setNonce addr nonce)) (s.SetNonce keccak addr nonce) := by
  obtain ⟨obj, s₁, heq, hperf, hfind, haccount, -⟩ := getOrNewStateObject_cases keccak s addr
  rw [StateDB.SetNonce, heq]
  exact hperf.trans (.ofActed (acted_object (.nonce haccount nonce) (by intro h; cases h) haccount
    (fun _ => rfl) rfl (fun h => h obj hfind) (by intro _ _ h; cases h)))

theorem setCode_performs (code : Bytes) :
    Performs keccak s (s.acts keccak (.setCode addr code)) (s.SetCode keccak addr code).2 := by
  obtain ⟨obj, s₁, heq, hperf, hfind, haccount, -⟩ := getOrNewStateObject_cases keccak s addr
  rw [StateDB.SetCode, heq]
  exact hperf.trans (.ofActed (acted_object (.code hfind code) (by intro h; cases h) haccount
    (fun _ => rfl) (view_setCode s₁.base addr obj code) (fun _ => rfl)
    (by intro a c h; cases h; exact ⟨rfl, rfl⟩)))

theorem setState_performs (key value : Hash) :
    Performs keccak s (s.acts keccak (.setState addr key value))
      (s.SetState keccak addr key value).2 := by
  obtain ⟨obj, s₁, heq, hperf, hfind, haccount, hview⟩ := getOrNewStateObject_cases keccak s addr
  rw [StateDB.SetState, heq]
  simp only [StateDB.acts, Op.acts, hview]
  refine hperf.trans ?_
  obtain ⟨hvalue, hobj, hloaded, hloads⟩ := @getState_spec T keccak obj addr key s₁
  rw [StateObject.SetState]
  generalize obj.getState addr key s₁ = r at hvalue hobj hloaded hloads
  obtain ⟨⟨prev, origin⟩, obj', s₂⟩ := r
  simp only [Prod.mk.injEq] at hvalue hobj hloaded hloads ⊢
  obtain ⟨rfl, rfl⟩ := hvalue
  -- the state with the slot in the cache of its object
  have hcached : Loads keccak s₁ (s₂.setStateObject addr obj') := by
    refine hloads.setStateObject ?_ fun h => hloaded.mpr (h obj hfind)
    rw [haccount, hobj]
  split
  · exact .ofLoads hcached
  have haccount' : ((s₂.setStateObject addr obj').view keccak).account addr =
      some (obj'.view keccak s₁.base addr) := by
    rw [hcached.view, haccount, hobj]
  have hact : Records keccak (s₂.setStateObject addr obj') (.storage addr key value)
      (.storageChange addr key ((obj.view keccak s₁.base addr).state key)
        ((obj.view keccak s₁.base addr).committed key)) := by
    rw [← hobj]
    exact .storage haccount' key value
  have hbase : (s₂.setStateObject addr obj').base = s₁.base := hcached.frame.base
  have hslots : (obj'.setState key value
      ((obj.view keccak s₁.base addr).committed key)).view keccak
      (s₂.setStateObject addr obj').base addr =
      { obj'.view keccak s₁.base addr with
        state := update (obj'.view keccak s₁.base addr).state key value } := by
    have hkept : (if value = (obj.view keccak s₁.base addr).committed key then
        (obj.view keccak s₁.base addr).committed key else value) = value := by
      split
      · rename_i heq
        exact heq.symm
      · rfl
    rw [hbase, view_setState, hobj, hkept]
  refine (Performs.ofLoads hcached).trans ?_
  have hacted := acted_object hact (by intro h; cases h) haccount' (fun _ => rfl) hslots (by
    intro h
    have hobj' : obj'.Loaded keccak := h obj' (by rw [find_setStateObject, if_pos rfl])
    rw [StateObject.setState]
    split
    · exact hobj'
    · exact hobj') (by intro _ _ h; cases h)
  rw [setStateObject_twice] at hacted
  exact .ofActed hacted

theorem setTransientState_performs (key value : Hash) :
    Performs keccak s (s.acts keccak (.setTransientState addr key value))
      (s.SetTransientState addr key value) := by
  have hview : (s.view keccak).transient addr key = s.GetTransientState addr key := rfl
  simp only [StateDB.acts, Op.acts, StateDB.SetTransientState, hview]
  split
  · exact .refl
  have hrevert := @revert_view T keccak s (.transientStorageChange addr key value)
  refine .ofActed (e := .transientStorageChange addr key (s.GetTransientState addr key)) ?_
  exact {
    frame := ⟨rfl, rfl, rfl, rfl, rfl, rfl, rfl⟩
    records := .transient addr key value
    journal := rfl
    view := Except.ok.inj hrevert
    loaded := fun _ h => h
    recoded := by intro _ _ h; cases h }

/-- `SelfDestruct`, on the object it looks up. -/
theorem selfDestruct_performs :
    Performs keccak s ((s.view keccak).destructActs addr) (s.SelfDestruct keccak addr).2 := by
  have hlook := getStateObject_looked keccak s addr
  rw [StateDB.SelfDestruct, View.destructActs]
  generalize s.getStateObject keccak addr = r at hlook
  cases hlook with
  | absent hloads hfind =>
    rw [account_eq_none.mpr hfind]
    exact .ofLoads hloads
  | @found obj s₁ hloads hfind hfind₁ =>
    have haccount := account_of_find hfind₁
    rw [account_of_find hfind]
    have hbalance : (obj.view keccak s.base addr).balance = obj.data.balance := rfl
    have hflag : (obj.view keccak s.base addr).selfDestructed = obj.selfDestructed := rfl
    simp only [hbalance, hflag]
    refine (Performs.ofLoads hloads).trans ?_
    -- the object that is to be marked
    have hmark : ∀ (s₂ : StateDB T) (obj₂ : StateObject T),
        (s₂.view keccak).account addr = some (obj₂.view keccak s₂.base addr) →
        (s₂.LoadedAt keccak addr → obj₂.Loaded keccak) → obj₂.selfDestructed = false →
        Performs keccak s₂ [.destruct addr] ((s₂.log (.selfDestructChange addr)).setStateObject
          addr { obj₂ with selfDestructed := true }) := by
      intro s₂ obj₂ haccount₂ hloaded₂ hfalse
      exact .ofActed (acted_object (.destruct haccount₂ hfalse) (by intro h; cases h) haccount₂
        (fun _ => rfl) rfl hloaded₂ (by intro _ _ h; cases h))
    have hloaded : s₁.LoadedAt keccak addr → obj.Loaded keccak := fun h => h obj hfind₁
    by_cases hzero : obj.data.balance ≠ 0
    · simp only [if_pos hzero, StateObject.SetBalance, StateObject.setBalance]
      have hacted := acted_setBalance haccount hloaded 0
      have haccount₂ : (((s₁.log (.balanceChange addr obj.data.balance)).setStateObject addr
          (obj.setBalance 0)).view keccak).account addr =
          some ((obj.setBalance 0).view keccak s₁.base addr) := by
        rw [view_account, find_setStateObject, if_pos rfl]
        rfl
      split
      · exact .ofActed hacted
      next hfalse =>
      refine (Performs.ofActed hacted).trans ?_
      have hmarked := hmark _ _ haccount₂ (fun h => h _ (by rw [find_setStateObject, if_pos rfl]))
        (Bool.eq_false_of_not_eq_true hfalse)
      rw [setStateObject_twice] at hmarked
      exact hmarked
    · simp only [if_neg hzero]
      split
      · refine .ofLoads ((Loads.refl s₁).setStateObject haccount hloaded)
      · rename_i hfalse
        exact hmark _ _ haccount hloaded (Bool.eq_false_of_not_eq_true hfalse)

theorem selfDestruct6780_performs :
    Performs keccak s (s.acts keccak (.selfDestruct6780 addr))
      (s.SelfDestruct6780 keccak addr).2 := by
  have hlook := getStateObject_looked keccak s addr
  have hdestruct := @selfDestruct_performs T keccak (s.getStateObject keccak addr).2 addr
  rw [StateDB.SelfDestruct6780]
  simp only [StateDB.acts, Op.acts]
  generalize s.getStateObject keccak addr = r at hlook hdestruct
  cases hlook with
  | absent hloads hfind =>
    rw [account_eq_none.mpr hfind]
    exact .ofLoads hloads
  | @found obj s₁ hloads hfind =>
    rw [hloads.view] at hdestruct
    have hflag : (some (obj.view keccak s.base addr)).any (·.newContract) = obj.newContract := rfl
    simp only [account_of_find hfind, hflag]
    split
    · exact (Performs.ofLoads hloads).trans hdestruct
    · exact .ofLoads hloads

end

theorem createContract_performs (h : (s.view keccak).account addr ≠ none) :
    ∃ s', s.CreateContract keccak addr = .ok s' ∧
      Performs keccak s (s.acts keccak (.createContract addr)) s' := by
  have hlook := getStateObject_looked keccak s addr
  rw [StateDB.CreateContract]
  simp only [StateDB.acts, Op.acts]
  generalize s.getStateObject keccak addr = r at hlook
  cases hlook with
  | absent _ hfind => exact absurd (account_eq_none.mpr hfind) h
  | @found obj s₁ hloads hfind hfind₁ =>
    have haccount := account_of_find hfind₁
    have hflag : (some (obj.view keccak s.base addr)).any (·.newContract) = obj.newContract := rfl
    simp only [account_of_find hfind, hflag]
    by_cases hnew : obj.newContract
    · simp only [if_pos hnew]
      exact ⟨s₁, rfl, .ofLoads hloads⟩
    simp only [if_neg hnew]
    have hacted := @acted_object T keccak s₁ addr { obj with newContract := true } _ _ _ _
      (.contract haccount (Bool.eq_false_of_not_eq_true hnew)) (by intro h; cases h) haccount
      (fun _ => rfl) rfl (fun hl => hl obj hfind₁) (by intro _ _ h; cases h)
    exact ⟨_, rfl, (Performs.ofLoads hloads).trans (.ofActed hacted)⟩

theorem acted_refund (s : StateDB T) (gas : UInt64) :
    Acted keccak s (.refund gas) (.refundChange s.refund)
      { s.log (.refundChange s.refund) with refund := gas } where
  frame := ⟨rfl, rfl, rfl, rfl, rfl, rfl, rfl⟩
  records := .refund gas
  journal := rfl
  view := rfl
  loaded _ h := h
  recoded _ _ h := by cases h

theorem addLog_performs (s : StateDB T) (log : Log) :
    Performs keccak s (s.acts keccak (.addLog log)) (s.AddLog log) := by
  refine .ofActed (e := .addLogChange s.thash) ?_
  exact {
    frame := ⟨rfl, rfl, rfl, rfl, rfl, rfl, rfl⟩
    records := .log { log with txHash := s.thash, txIndex := s.txIndex, index := s.logSize }
    journal := rfl
    view := by
      refine View.ext rfl rfl rfl ?_ rfl rfl
      funext h
      show ((Finmap.lookup h (s.logs.insert s.thash _)).getD []).map Log.plain =
        update (s.view keccak).logs s.thash _ h
      rw [Map.lookup_insert_ite, update_apply]
      split
      · rw [Option.getD_some, map_append]
        rfl
      · rfl
    loaded := fun _ h => h
    recoded := by intro _ _ h; cases h }

/-- A new address in the access list. -/
theorem acted_accessAddress {s : StateDB T} {addr : Address}
    (h : (s.accessList.AddAddress addr).1 = true) :
    Acted keccak s (.accessAddress addr) (.accessListAddAccountChange addr)
      ({ s with accessList := (s.accessList.AddAddress addr).2 }.log
        (.accessListAddAccountChange addr)) where
  frame := ⟨rfl, rfl, rfl, rfl, rfl, rfl, rfl⟩
  records := .accessAddress h
  journal := rfl
  view := rfl
  loaded _ h := h
  recoded _ _ h := by cases h

/-- A new slot of an address in the access list. -/
theorem acted_accessSlot {slot : Hash} {al : AccessList}
    (h : s.accessList.AddSlot addr slot = .ok (false, true, al)) :
    Acted keccak s (.accessSlot addr slot) (.accessListAddSlotChange addr slot)
      ({ s with accessList := al }.log (.accessListAddSlotChange addr slot)) where
  frame := ⟨rfl, rfl, rfl, rfl, rfl, rfl, rfl⟩
  records := .accessSlot h
  journal := rfl
  view := by
    have hal : (s.view keccak).accessList = s.accessList := rfl
    simp only [Act.apply, hal, h]
    rfl
  loaded _ h := h
  recoded _ _ h := by cases h

theorem addSlotToAccessList_performs {s : StateDB T} (hvalid : s.accessList.Valid)
    (addr : Address) (slot : Hash) :
    ∃ s', s.AddSlotToAccessList addr slot = .ok s' ∧
      Performs keccak s (s.acts keccak (.addSlotToAccessList addr slot)) s' := by
  have hal : (s.view keccak).accessList = s.accessList := rfl
  obtain ⟨addrChange, slotChange, al, heq, -, hsame, -⟩ := hvalid.addSlot addr slot
  simp only [StateDB.acts, Op.acts, StateDB.AddSlotToAccessList, hal, heq]
  refine ⟨_, rfl, ?_⟩
  cases slotChange with
  | false =>
    obtain ⟨rfl, rfl⟩ := hsame rfl
    exact .refl
  | true =>
    cases addrChange with
    | false => exact .ofActed (acted_accessSlot heq)
    | true =>
      -- the address comes first
      have hnone : s.accessList.addresses.lookup addr = none := by
        rw [AccessList.AddSlot] at heq
        split at heq
        · assumption
        split at heq
        · cases heq
        · split at heq
          · cases heq
          · split at heq
            · cases heq
            · cases heq
      have hadded : s.accessList.AddAddress addr = (true,
          { s.accessList with addresses := s.accessList.addresses.insert addr (-1) }) := by
        rw [AccessList.AddAddress, hnone]
      have hfirst := @acted_accessAddress T keccak s addr (by rw [hadded])
      rw [hadded] at hfirst
      have hslot : AccessList.AddSlot
          { s.accessList with addresses := s.accessList.addresses.insert addr (-1) } addr slot =
          .ok (false, true, al) := by
        rw [AccessList.AddSlot, hnone] at heq
        cases heq
        rw [AccessList.AddSlot]
        simp only [Finmap.lookup_insert, if_true, AccessList.appendSlotmap, Finmap.insert_insert]
      exact (Performs.ofActed hfirst).trans (.ofActed (acted_accessSlot hslot))

/-- **Every operation performs its acts.** -/
theorem Op.call_performs (hvalid : s.accessList.Valid) {op : Op} (h : op.Allowed (s.view keccak)) :
    ∃ s', op.call keccak s = .ok s' ∧ Performs keccak s (s.acts keccak op) s' := by
  cases op with
  | addBalance addr amount => exact ⟨_, rfl, addBalance_performs s addr amount⟩
  | subBalance addr amount => exact ⟨_, rfl, subBalance_performs s addr amount⟩
  | setBalance addr amount => exact ⟨_, rfl, setBalance_performs s addr amount⟩
  | setNonce addr nonce => exact ⟨_, rfl, setNonce_performs s addr nonce⟩
  | setCode addr code => exact ⟨_, rfl, setCode_performs s addr code⟩
  | setState addr key value => exact ⟨_, rfl, setState_performs s addr key value⟩
  | setTransientState addr key value =>
    exact ⟨_, rfl, setTransientState_performs s addr key value⟩
  | selfDestruct addr => exact ⟨_, rfl, selfDestruct_performs s addr⟩
  | selfDestruct6780 addr => exact ⟨_, rfl, selfDestruct6780_performs s addr⟩
  | createAccount addr => exact ⟨_, rfl, .ofActed (acted_createObject h)⟩
  | createContract addr => exact createContract_performs h
  | addRefund gas => exact ⟨_, rfl, .ofActed (acted_refund s _)⟩
  | subRefund gas =>
    refine ⟨_, ?_, .ofActed (acted_refund s (s.refund - gas))⟩
    show StateDB.SubRefund s gas = _
    rw [StateDB.SubRefund, if_neg]
    exact UInt64.not_lt.mpr h
  | addLog log => exact ⟨_, rfl, addLog_performs s log⟩
  | addAddressToAccessList addr =>
    refine ⟨_, rfl, ?_⟩
    have hal : (s.view keccak).accessList = s.accessList := rfl
    simp only [StateDB.acts, Op.acts, StateDB.AddAddressToAccessList, hal]
    split
    · rename_i hadded
      exact .ofActed (acted_accessAddress hadded)
    next hsame =>
    rw [AccessList.AddAddress] at hsame ⊢
    split
    · exact .refl
    · rename_i hnone
      rw [hnone] at hsame
      exact absurd rfl hsame
  | addSlotToAccessList addr slot => exact addSlotToAccessList_performs hvalid addr slot
  | get g =>
    obtain ⟨hanswer, hloads⟩ := @Getter.call_spec T keccak s g
    show ∃ s', (g.call keccak s).map Prod.snd = .ok s' ∧ _
    cases hcall : g.call keccak s with
    | error p =>
      rw [hcall] at hanswer
      exact absurd hanswer.symm (Getter.answer_ne_error hvalid p)
    | ok r => exact ⟨r.2, rfl, .ofLoads (hloads r hcall)⟩

/-! ## Which acts an operation may make -/

/-- The kinds of elementary changes an operation may make. -/
def Op.mayDo : Op → Act → Bool
  | .addBalance addr _, .create a => a = addr
  | .addBalance addr _, .touch a => a = addr
  | .addBalance addr _, .balance a _ => a = addr
  | .subBalance addr _, .create a => a = addr
  | .subBalance addr _, .balance a _ => a = addr
  | .setBalance addr _, .create a => a = addr
  | .setBalance addr amount, .balance a x => a = addr ∧ x = amount
  | .setNonce addr _, .create a => a = addr
  | .setNonce addr nonce, .nonce a x => a = addr ∧ x = nonce
  | .setCode addr _, .create a => a = addr
  | .setCode addr code, .code a x => a = addr ∧ x = code
  | .setState addr _ _, .create a => a = addr
  | .setState addr key value, .storage a k x => a = addr ∧ k = key ∧ x = value
  | .setTransientState addr key value, .transient a k x => a = addr ∧ k = key ∧ x = value
  | .selfDestruct addr, .balance a x => a = addr ∧ x = 0
  | .selfDestruct addr, .destruct a => a = addr
  | .selfDestruct6780 addr, .balance a x => a = addr ∧ x = 0
  | .selfDestruct6780 addr, .destruct a => a = addr
  | .createAccount addr, .create a => a = addr
  | .createContract addr, .contract a => a = addr
  | .addRefund _, .refund _ => true
  | .subRefund _, .refund _ => true
  | .addLog _, .log _ => true
  | .addAddressToAccessList addr, .accessAddress a => a = addr
  | .addSlotToAccessList addr _, .accessAddress a => a = addr
  | .addSlotToAccessList addr slot, .accessSlot a k => a = addr ∧ k = slot
  | _, _ => false

/-! Lists of acts of one kind. -/

section Kinds

variable {P : Act → Prop} {acts acts' : List Act}

theorem all_one (h : P act) : ∀ x ∈ [act], P x := by
  intro x hx
  rw [mem_singleton.mp hx]
  exact h

theorem all_ite {c : Prop} [Decidable c] (h : ∀ x ∈ acts, P x) (h' : ∀ x ∈ acts', P x) :
    ∀ x ∈ (if c then acts else acts'), P x := by
  split
  · exact h
  · exact h'

theorem all_none : ∀ x ∈ ([] : List Act), P x := fun _ hx => absurd hx not_mem_nil

theorem all_append (h : ∀ x ∈ acts, P x) (h' : ∀ x ∈ acts', P x) : ∀ x ∈ acts ++ acts', P x :=
  forall_mem_append.mpr ⟨h, h'⟩

theorem all_ensure (h : P (.create addr)) : ∀ x ∈ v.ensure addr, P x := by
  rw [View.ensure]
  split
  · exact all_one h
  · exact all_none

theorem all_destructActs (hb : P (.balance addr 0)) (hd : P (.destruct addr)) :
    ∀ x ∈ v.destructActs addr, P x := by
  rw [View.destructActs]
  split
  · exact all_none
  · exact all_append (all_ite (all_one hb) all_none) (all_ite all_none (all_one hd))

end Kinds

/-- The acts of an operation are of these kinds. -/
theorem Op.mem_acts {b : Base} {thash : Hash} {txIndex : Nat} {op : Op} :
    ∀ act ∈ op.acts keccak b thash txIndex v, op.mayDo act = true := by
  cases op with
  | addBalance addr amount =>
    exact all_append (all_ensure (decide_eq_true rfl))
      (all_ite (all_ite (all_one (decide_eq_true rfl)) all_none) (all_one (decide_eq_true rfl)))
  | subBalance addr amount =>
    exact all_append (all_ensure (decide_eq_true rfl))
      (all_ite all_none (all_one (decide_eq_true rfl)))
  | setBalance addr amount =>
    exact all_append (all_ensure (decide_eq_true rfl)) (all_one (decide_eq_true ⟨rfl, rfl⟩))
  | setNonce addr nonce =>
    exact all_append (all_ensure (decide_eq_true rfl)) (all_one (decide_eq_true ⟨rfl, rfl⟩))
  | setCode addr code =>
    exact all_append (all_ensure (decide_eq_true rfl)) (all_one (decide_eq_true ⟨rfl, rfl⟩))
  | setState addr key value =>
    exact all_append (all_ensure (decide_eq_true rfl))
      (all_ite all_none (all_one (decide_eq_true ⟨rfl, rfl, rfl⟩)))
  | setTransientState addr key value =>
    exact all_ite all_none (all_one (decide_eq_true ⟨rfl, rfl, rfl⟩))
  | selfDestruct addr => exact all_destructActs (decide_eq_true ⟨rfl, rfl⟩) (decide_eq_true rfl)
  | selfDestruct6780 addr =>
    exact all_ite (all_destructActs (decide_eq_true ⟨rfl, rfl⟩) (decide_eq_true rfl)) all_none
  | createAccount addr => exact all_one (decide_eq_true rfl)
  | createContract addr => exact all_ite all_none (all_one (decide_eq_true rfl))
  | addRefund gas => exact all_one rfl
  | subRefund gas => exact all_one rfl
  | addLog log => exact all_one rfl
  | addAddressToAccessList addr => exact all_ite (all_one (decide_eq_true rfl)) all_none
  | addSlotToAccessList addr slot =>
    rw [Op.acts]
    split
    · exact all_none
    · exact all_append (all_ite (all_one (decide_eq_true rfl)) all_none)
        (all_ite (all_one (decide_eq_true ⟨rfl, rfl⟩)) all_none)
  | get g => exact all_none

end GoEthereum.State

import GoEthereum.State.Revert
import GoEthereum.State.Finalise

/-!
# The states that can be reached

Whatever calls a state has gone through, inside transactions and between them, its journal
is sound. So a snapshot of any such state can be gone back to.
-/

namespace GoEthereum.State

open List

variable {T : Type} {keccak : Bytes → Hash}

variable {b : Backend T} {o : Orders} {s s' : StateDB T}

theorem sound_new (root : Hash) (tr : T) (reader : Reader) :
    Sound (newWithReader root tr reader) where
  traced := AccessList.valid_new
  tallied := ⟨0, tally_new⟩
  revisions := ⟨List.Pairwise.nil, fun _ hr => absurd hr not_mem_nil⟩

/-- Creating an account over an existing one is not undone by its entry, but keeps the
journal sound. -/
theorem createAccount_sound (hs : Sound s) (addr : Address) :
    Sound (s.CreateAccount keccak addr) := by
  obtain ⟨hentries, hrevisions, hnext⟩ := record_entries s.journal (.createObjectChange addr)
  have hgrown : Grown s [.createObjectChange addr] (s.CreateAccount keccak addr) :=
    ⟨hentries, hrevisions, hnext, fun marks hm => hm.record (.createObjectChange addr)⟩
  refine hgrown.sound hs ?_
  rw [hgrown.entries, reverse_concat]
  refine ⟨hs.valid, fun al hal => ?_⟩
  cases hal
  exact hs.traced

/-- A call that succeeds keeps to its contract, unless it creates an account. -/
theorem Op.allowed_of_call {op : Op} (h : op.call keccak s = .ok s') :
    op.Allowed (s.view keccak) ∨ ∃ addr, op = .createAccount addr := by
  cases op with
  | createAccount addr => exact .inr ⟨addr, rfl⟩
  | createContract addr =>
    refine .inl ?_
    intro hnone
    have hcall : s.CreateContract keccak addr = .ok s' := h
    have hlook := getStateObject_looked keccak s addr
    rw [StateDB.CreateContract] at hcall
    generalize s.getStateObject keccak addr = r at hcall hlook
    cases hlook with
    | absent => cases hcall
    | found _ hfind => cases (account_eq_none.mp hnone).symm.trans hfind
  | subRefund gas =>
    refine .inl ?_
    have hcall : s.SubRefund gas = .ok s' := h
    rw [StateDB.SubRefund] at hcall
    split at hcall
    · cases hcall
    · rename_i hle
      exact UInt64.not_lt.mp hle
  | addBalance _ _ | subBalance _ _ | setBalance _ _ | setNonce _ _ | setCode _ _
  | setState _ _ _ | setTransientState _ _ _ | selfDestruct _ | selfDestruct6780 _
  | addRefund _ | addLog _ | addAddressToAccessList _ | addSlotToAccessList _ _ | get _ =>
    exact .inl trivial

theorem Cmd.call_sound (hs : Sound s) {c : Cmd} (h : c.call keccak s = .ok s') : Sound s' := by
  cases c with
  | snapshot =>
    cases h
    exact snapshot_sound hs
  | revertToSnapshot id =>
    obtain ⟨before, r, after, hsplit, rfl⟩ := revertToSnapshot_split h
    exact ((hs.revertToSnapshot hsplit).2 s' h).sound
  | op op =>
    rcases Op.allowed_of_call h with hop | ⟨addr, rfl⟩
    · obtain ⟨s₁, hcall, hperforms⟩ := Op.call_performs hs.valid hop
      cases hcall.symm.trans h
      exact (hperforms.undone (A := fun _ => false) hs (by intro _ _ _ hf; cases hf)).1
    · cases h
      exact createAccount_sound hs addr

theorem setError_accessList (s : StateDB T) (err : DbErr) :
    (s.setError err).accessList = s.accessList ∧ (s.setError err).journal = s.journal := by
  rw [StateDB.setError]
  split
  · exact ⟨rfl, rfl⟩
  · exact ⟨rfl, rfl⟩

theorem getCommittedState_accessList (obj : StateObject T) (addr : Address) (key : Hash)
    (db : StateDB T) : (obj.GetCommittedState addr key db).2.2.accessList = db.accessList := by
  have hloads := (@getCommittedState_spec T (fun _ => zeroHash) obj addr key db).2.2.2
  exact congrArg View.accessList hloads.view

theorem finaliseSlots_accessList (addr : Address) (dirtyStorage : Storage) (keys : List Hash) :
    ∀ (obj : StateObject T) (db : StateDB T),
      (obj.finaliseSlots addr dirtyStorage keys db).2.accessList = db.accessList := by
  induction keys with
  | nil =>
    intro obj db
    rfl
  | cons key keys ih =>
    intro obj db
    rw [StateObject.finaliseSlots]
    cases dirtyStorage.lookup key with
    | none => exact ih obj db
    | some value =>
      simp only
      rw [ih]
      rw [StateObject.finaliseSlot]
      cases obj.uncommittedStorage.lookup key with
      | some origin =>
        simp only
        split
        · rfl
        · rfl
      | none => exact getCommittedState_accessList obj addr key db

theorem finaliseObject_accessList (o : Orders) (deleteEmptyObjects : Bool) (s : StateDB T)
    (addr : Address) :
    (s.finaliseObject keccak o deleteEmptyObjects addr).accessList = s.accessList := by
  rw [StateDB.finaliseObject]
  cases s.stateObjects.lookup addr with
  | none => rfl
  | some obj =>
    simp only
    split
    · split
      · rfl
      · rfl
    · exact finaliseSlots_accessList addr obj.dirtyStorage _ obj s

theorem finalise_accessList (o : Orders) (deleteEmptyObjects : Bool) (s : StateDB T) :
    (s.Finalise keccak o deleteEmptyObjects).accessList = s.accessList := by
  show (o.dirties.foldl (StateDB.finaliseObject keccak o deleteEmptyObjects) s).accessList = _
  generalize o.dirties = addrs
  induction addrs generalizing s with
  | nil => rfl
  | cons addr addrs ih => rw [foldl_cons, ih, finaliseObject_accessList]

/-- A finalised state has a valid access list and an empty journal. -/
theorem sound_of_newJournal (hvalid : s.accessList.Valid) (hjournal : s.journal = newJournal) :
    Sound s where
  traced := by
    rw [hjournal]
    exact hvalid
  tallied := by
    rw [hjournal]
    exact ⟨0, tally_new⟩
  revisions := by
    rw [hjournal]
    exact ⟨List.Pairwise.nil, fun _ hr => absurd hr not_mem_nil⟩

theorem updateRoot_accessList (b : Backend T) (order : List Hash) (addr : Address)
    (obj : StateObject T) (db : StateDB T) :
    (obj.updateRoot b order addr db).2.accessList = db.accessList ∧
      (obj.updateRoot b order addr db).2.journal = db.journal := by
  have htrie : (obj.updateTrie b order addr db).2.2.accessList = db.accessList ∧
      (obj.updateTrie b order addr db).2.2.journal = db.journal := by
    rw [StateObject.updateTrie]
    split
    · exact ⟨rfl, rfl⟩
    split
    · exact setError_accessList db _
    · split
      · exact setError_accessList db _
      · split
        · exact setError_accessList db _
        · exact ⟨rfl, rfl⟩
  rw [StateObject.updateRoot]
  generalize obj.updateTrie b order addr db = r at htrie
  obtain ⟨tr, obj', db'⟩ := r
  cases tr with
  | none => exact htrie
  | some tr => exact htrie

theorem updateObjectRoot_accessList {addr : Address} (h : s.updateObjectRoot b o addr = .ok s') :
    s'.accessList = s.accessList ∧ s'.journal = s.journal := by
  rw [StateDB.updateObjectRoot] at h
  split at h
  · cases h
    exact ⟨rfl, rfl⟩
  split at h
  · cases h
    exact ⟨rfl, rfl⟩
  · split at h
    · cases h
    · cases h
      exact updateRoot_accessList b _ addr _ s

theorem workers_accessList (addrs : List Address) :
    ∀ {s s' : StateDB T}, addrs.foldlM (StateDB.updateObjectRoot b o) s = .ok s' →
      s'.accessList = s.accessList ∧ s'.journal = s.journal := by
  induction addrs with
  | nil =>
    intro s s' h
    cases h
    exact ⟨rfl, rfl⟩
  | cons addr addrs ih =>
    intro s s' h
    rw [foldlM_cons] at h
    obtain ⟨s₁, hstep, h⟩ := ok_of_bind h
    obtain ⟨hal, hjournal⟩ := updateObjectRoot_accessList hstep
    obtain ⟨hal', hjournal'⟩ := ih h
    exact ⟨hal'.trans hal, hjournal'.trans hjournal⟩

theorem updateStateObject_accessList (b : Backend T) (s : StateDB T) (addr : Address)
    (obj : StateObject T) :
    (s.updateStateObject b addr obj).accessList = s.accessList ∧
      (s.updateStateObject b addr obj).journal = s.journal := by
  rw [StateDB.updateStateObject]
  split
  · exact ⟨rfl, rfl⟩
  · exact setError_accessList _ _

theorem deleteStateObject_accessList (b : Backend T) (s : StateDB T) (addr : Address) :
    (s.deleteStateObject b addr).accessList = s.accessList ∧
      (s.deleteStateObject b addr).journal = s.journal := by
  rw [StateDB.deleteStateObject]
  split
  · exact ⟨rfl, rfl⟩
  · exact setError_accessList _ _

theorem applyMutations_accessList (addrs : List Address) :
    ∀ {s : StateDB T} {r : List Address × StateDB T}, s.applyMutations b addrs = .ok r →
      r.2.accessList = s.accessList ∧ r.2.journal = s.journal := by
  induction addrs with
  | nil =>
    intro s r h
    cases h
    exact ⟨rfl, rfl⟩
  | cons addr addrs ih =>
    intro s r h
    rw [StateDB.applyMutations] at h
    split at h
    · exact ih h
    split at h
    · exact ih h
    · simp only at h
      split at h
      · split at h
        · cases h
        · rename_i hrest
          have hkept := ih hrest
          cases h
          exact hkept
      · split at h
        · cases h
        · obtain ⟨hal, hjournal⟩ := ih h
          obtain ⟨hal', hjournal'⟩ := updateStateObject_accessList b _ addr _
          exact ⟨hal.trans hal', hjournal.trans hjournal'⟩

theorem intermediateRoot_accessList {deleteEmptyObjects : Bool} {root : Hash}
    (h : s.IntermediateRoot keccak b o deleteEmptyObjects = .ok (root, s')) :
    s'.accessList = s.accessList ∧ s'.journal = newJournal := by
  have hfinalised := @finalise_accessList T keccak o deleteEmptyObjects s
  have hdelete : ∀ (addrs : List Address) (s : StateDB T),
      (addrs.foldl (StateDB.deleteStateObject b) s).accessList = s.accessList ∧
        (addrs.foldl (StateDB.deleteStateObject b) s).journal = s.journal := by
    intro addrs
    induction addrs with
    | nil =>
      intro s
      exact ⟨rfl, rfl⟩
    | cons addr addrs ih =>
      intro s
      obtain ⟨hal, hjournal⟩ := ih (s.deleteStateObject b addr)
      obtain ⟨hal', hjournal'⟩ := deleteStateObject_accessList b s addr
      exact ⟨hal.trans hal', hjournal.trans hjournal'⟩
  rw [StateDB.IntermediateRoot] at h
  simp only at h
  split at h
  · cases h
  next s₁ hworkers =>
  obtain ⟨hal₁, hjournal₁⟩ := workers_accessList _ hworkers
  split at h
  · cases h
  next deleted s₂ hmutations =>
  obtain ⟨hal₂, hjournal₂⟩ := applyMutations_accessList _ hmutations
  obtain ⟨hal₃, hjournal₃⟩ := hdelete deleted s₂
  cases h
  exact ⟨hal₃.trans (hal₂.trans (hal₁.trans hfinalised)),
    hjournal₃.trans (hjournal₂.trans hjournal₁)⟩

theorem prepare_accessList {rules : StateDB.Rules} {sender coinbase : Address}
    {dst : Option Address} {precompiles : List Address} {list : List (Address × List Hash)}
    (hvalid : s.accessList.Valid)
    (h : s.Prepare rules sender coinbase dst precompiles list = .ok s') :
    s'.accessList.Valid ∧ s'.journal = s.journal := by
  have haddresses : ∀ (addrs : List Address) {al : AccessList}, al.Valid →
      (addrs.foldl (fun al addr => (al.AddAddress addr).2) al).Valid := by
    intro addrs
    induction addrs with
    | nil =>
      intro al hal
      exact hal
    | cons addr addrs ih =>
      intro al hal
      exact ih (hal.addAddress addr)
  have htuples : ∀ (list : List (Address × List Hash)) {al al' : AccessList}, al.Valid →
      list.foldlM (fun al el => al.addTuple el.1 el.2) al = .ok al' → al'.Valid := by
    intro list
    induction list with
    | nil =>
      intro al al' hal heq
      cases heq
      exact hal
    | cons el list ih =>
      intro al al' hal heq
      rw [foldlM_cons] at heq
      obtain ⟨al₁, htuple, heq⟩ := ok_of_bind heq
      exact ih (hal.addTuple htuple) heq
  rw [StateDB.Prepare] at h
  split at h
  · cases h
  split at h
  · simp only at h
    split at h
    · cases h
    next al hal =>
    cases h
    have hlist : al.Valid :=
      htuples list (haddresses _ (AccessList.valid_new.addAddress sender)) hal
    refine ⟨?_, rfl⟩
    simp only
    split
    · exact hlist.addAddress coinbase
    · exact hlist
  · cases h
    exact ⟨hvalid, rfl⟩

theorem traced_of_free {es : List JournalEntry} {al : AccessList} (hvalid : al.Valid)
    (hfree : ∀ e ∈ es, ∀ al, undoAccess al e = .ok al) : Traced es al := by
  induction es with
  | nil => exact hvalid
  | cons e es ih =>
    refine ⟨hvalid, fun al' hal' => ?_⟩
    rw [hfree e mem_cons_self al] at hal'
    cases hal'
    exact ih fun e' he' => hfree e' (mem_cons_of_mem e he')

/-- The states that can be reached: from a new one, by calls of a transaction, whether or
not they keep to their contracts, and by those between transactions. `Prepare` starts a
transaction with a new access list, so nothing in the journal may be about the old one. -/
inductive Reachable (keccak : Bytes → Hash) : StateDB T → Prop where
  | new (root : Hash) (tr : T) (reader : Reader) : Reachable keccak (newWithReader root tr reader)
  | cmd {s s' : StateDB T} (h : Reachable keccak s) (c : Cmd) (hcall : c.call keccak s = .ok s') :
      Reachable keccak s'
  | setTxContext {s : StateDB T} (h : Reachable keccak s) (thash : Hash) (ti : Nat) :
      Reachable keccak (s.SetTxContext thash ti)
  | prepare {s s' : StateDB T} (h : Reachable keccak s)
      (hfree : ∀ e ∈ s.journal.entries, ∀ al, undoAccess al e = .ok al)
      (rules : StateDB.Rules) (sender coinbase : Address) (dst : Option Address)
      (precompiles : List Address) (list : List (Address × List Hash))
      (hcall : s.Prepare rules sender coinbase dst precompiles list = .ok s') :
      Reachable keccak s'
  | finalise {s : StateDB T} (h : Reachable keccak s) (o : Orders) (deleteEmptyObjects : Bool) :
      Reachable keccak (s.Finalise keccak o deleteEmptyObjects)
  | intermediateRoot {s s' : StateDB T} (h : Reachable keccak s) (b : Backend T) (o : Orders)
      (deleteEmptyObjects : Bool) (root : Hash)
      (hcall : s.IntermediateRoot keccak b o deleteEmptyObjects = .ok (root, s')) :
      Reachable keccak s'

theorem Reachable.sound (h : Reachable keccak s) : Sound s := by
  induction h with
  | new root tr reader => exact sound_new root tr reader
  | cmd _ c hcall ih => exact Cmd.call_sound ih hcall
  | setTxContext _ thash ti ih => exact ⟨ih.traced, ih.tallied, ih.revisions⟩
  | prepare _ hfree rules sender coinbase dst precompiles list hcall ih =>
    obtain ⟨hvalid, hjournal⟩ := prepare_accessList ih.valid hcall
    refine ⟨?_, ?_, ?_⟩
    · rw [hjournal]
      exact traced_of_free hvalid fun e he => hfree e (mem_reverse.mp he)
    · rw [hjournal]
      exact ih.tallied
    · rw [hjournal]
      exact ih.revisions
  | @finalise s _ o deleteEmptyObjects ih =>
    refine sound_of_newJournal ?_ rfl
    rw [finalise_accessList]
    exact ih.valid
  | intermediateRoot _ b o deleteEmptyObjects root hcall ih =>
    obtain ⟨hal, hjournal⟩ := intermediateRoot_accessList hcall
    exact sound_of_newJournal (hal ▸ ih.valid) hjournal

/-! ## Reverting restores what is not code -/

/-- The getters whose answer depends on codes. -/
def Getter.aboutCode : Getter → Bool
  | .empty _ => true
  | .code _ => true
  | .codeSize _ => true
  | .codeHash _ => true
  | _ => false

/-- The flag of `CreateContract`. -/
def StateDB.newContract (keccak : Bytes → Hash) (s : StateDB T) (addr : Address) : Bool :=
  (s.getStateObject keccak addr).1.any (·.newContract)

/-- Two states show the same, codes apart: every getter that is not about code answers the
same, and the flags of new contracts and the log index agree. -/
structure AgreeApartFromCode (keccak : Bytes → Hash) (s t : StateDB T) : Prop where
  getters : ∀ g : Getter, g.aboutCode = false →
    (g.call keccak s).map Prod.fst = (g.call keccak t).map Prod.fst
  newContract : ∀ addr, s.newContract keccak addr = t.newContract keccak addr
  logSize : s.logSize = t.logSize

theorem answer_mask (v : View) {g : Getter} (hg : g.aboutCode = false) :
    g.answer keccak (v.mask fun _ => false) = g.answer keccak v := by
  have haccount : ∀ addr, (v.mask fun _ => false).account addr =
      (v.account addr).map (AccountView.mask false) := fun _ => rfl
  cases g with
  | empty addr => cases hg
  | code addr => cases hg
  | codeSize addr => cases hg
  | codeHash addr => cases hg
  | exist addr => rw [Getter.answer, Getter.answer, haccount, Option.isSome_map]
  | balance addr =>
    rw [Getter.answer, Getter.answer, haccount]
    cases v.account addr <;> rfl
  | nonce addr =>
    rw [Getter.answer, Getter.answer, haccount]
    cases v.account addr <;> rfl
  | storageRoot addr =>
    rw [Getter.answer, Getter.answer, haccount]
    cases v.account addr <;> rfl
  | state addr key =>
    rw [Getter.answer, Getter.answer, haccount]
    cases v.account addr <;> rfl
  | committedState addr key =>
    rw [Getter.answer, Getter.answer, haccount]
    cases v.account addr <;> rfl
  | hasSelfDestructed addr =>
    rw [Getter.answer, Getter.answer, haccount]
    cases v.account addr <;> rfl
  | transientState addr key => rfl
  | refund => rfl
  | logs hash blockNumber blockHash => rfl
  | addressInAccessList addr => rfl
  | slotInAccessList addr slot => rfl

theorem newContract_view (s : StateDB T) (addr : Address) :
    s.newContract keccak addr = (((s.view keccak).mask fun _ => false).account addr).any
      (·.newContract) := by
  have hlook := getStateObject_looked keccak s addr
  rw [StateDB.newContract]
  generalize s.getStateObject keccak addr = r at hlook
  show _ = (((s.view keccak).account addr).map _).any _
  cases hlook with
  | absent _ hfind =>
    rw [account_eq_none.mpr hfind]
    rfl
  | found _ hfind =>
    rw [account_of_find hfind]
    rfl

theorem agree_of_view {t : StateDB T}
    (h : (s.view keccak).mask (fun _ => false) = (t.view keccak).mask fun _ => false) :
    AgreeApartFromCode keccak s t where
  getters g hg := by
    rw [(Getter.call_spec s g).answer, (Getter.call_spec t g).answer, ← answer_mask _ hg, h, answer_mask _ hg]
  newContract addr := by rw [newContract_view, newContract_view, h]
  logSize := congrArg View.logSize h

/-- Sound states with the same journal positions and, codes apart, the same view go back to
the same. -/
theorem Sound.revert_agree {t : StateDB T} (hs : Sound s) (ht : Sound t) (hbase : s.base = t.base)
    (hentries : s.journal.entries = t.journal.entries)
    (hrevisions : s.journal.validRevisions = t.journal.validRevisions)
    (hview : (s.view keccak).mask (fun _ => false) = (t.view keccak).mask fun _ => false) {id : Nat}
    {t' : StateDB T} (h : t.RevertToSnapshot keccak id = .ok t') :
    ∃ s', s.RevertToSnapshot keccak id = .ok s' ∧ AgreeApartFromCode keccak s' t' := by
  obtain ⟨before, r, after, hsplit, rfl⟩ := revertToSnapshot_split h
  have hs' := (@Sound.revertToSnapshot T keccak s hs _ _ _ (hrevisions.trans hsplit)).1
  have ht' := (@Sound.revertToSnapshot T keccak t ht _ _ _ hsplit).1
  rw [h] at ht'
  have hundo := @View.undoAll_congr keccak _ t.base
    (t.journal.entries.drop r.journalIndex).reverse _ _ hview
  rw [← ht'] at hundo
  rw [hbase, hentries] at hs'
  rw [← hs'] at hundo
  obtain ⟨w, hw, hmask⟩ := ok_of_map hundo
  obtain ⟨s', hrevert, rfl⟩ := ok_of_map hw
  exact ⟨s', hrevert, agree_of_view hmask⟩

/-- **`RevertToSnapshot` restores what is not code.** From any state that can be reached,
after any calls that keep to their contracts, with nested snapshots and reverts, going back
to a snapshot succeeds; every getter that is not about code answers as when the snapshot was
taken; the earlier snapshots are still there, and going back to one of them gives the same
as before; the counters of dirty accounts are what they were, but for the account 0x03. -/
theorem revertToSnapshot_restores (s : StateDB T) (hs : Reachable keccak s) (cs : List Cmd)
    (hallowed : AllowedRun keccak s.Snapshot.1 s.Snapshot.2 cs) :
    ∃ s₁ s₂, runCmds keccak s.Snapshot.2 cs = .ok s₁ ∧
      s₁.RevertToSnapshot keccak s.Snapshot.1 = .ok s₂ ∧
      AgreeApartFromCode keccak s₂ s ∧
      s₂.journal.entries = s.journal.entries ∧
      s₂.journal.validRevisions = s.journal.validRevisions ∧
      (∀ id t, s.RevertToSnapshot keccak id = .ok t →
        ∃ t₂, s₂.RevertToSnapshot keccak id = .ok t₂ ∧ AgreeApartFromCode keccak t₂ t) ∧
      ∀ addr, addr ≠ ripemd → s₂.journal.dirties.lookup addr = s.journal.dirties.lookup addr := by
  have hsound := hs.sound
  have hstart : (undoneTo keccak s s.Snapshot.2).map (View.mask fun _ => false) =
      .ok ((s.view keccak).mask fun _ => false) := by
    rw [undoneTo_snapshot]
    rfl
  have hnocode : ∀ (cs : List Cmd) (t : StateDB T),
      AllCalls keccak (fun c s => ∀ addr, c.setsCode addr → (fun _ => false) addr = true →
        s.LoadedAt keccak addr) t cs := by
    intro cs
    induction cs with
    | nil =>
      intro t
      trivial
    | cons c cs ih =>
      intro t
      refine ⟨?_, fun t' _ => ih t'⟩
      intro _ _ hf
      cases hf
  obtain ⟨s₁, hrun, hsince, hundone⟩ :=
    (since_snapshot hsound).run cs hstart hallowed (hnocode cs _)
  obtain ⟨hview, hspec⟩ := @Since.revert T keccak s s₁ hsince
  rw [← hview] at hundone
  obtain ⟨v, hv, hmask⟩ := ok_of_map hundone
  obtain ⟨s₂, hrevert, rfl⟩ := ok_of_map hv
  obtain ⟨hframe, hsound₂, hentries, hrevisions, htally⟩ := hspec s₂ hrevert
  refine ⟨s₁, s₂, hrun, hrevert, agree_of_view hmask, hentries, hrevisions, ?_, ?_⟩
  · intro id t ht
    exact hsound₂.revert_agree hsound hframe.base hentries hrevisions hmask ht
  · intro addr hne
    obtain ⟨marks, hm⟩ := hsound.tallied
    obtain ⟨marks', -, hm'⟩ := htally marks hm
    rw [hm addr, hm' addr]
    simp only [dirtyCount, if_neg hne]

/-- Inside the run a snapshot is taken and gone back to. -/
theorem revertToSnapshot_restores_nested : let keccak : Bytes → Hash := fun _ => zeroHash
    let s : StateDB Unit := newWithReader zeroHash () ⟨fun _ => .ok none, fun _ _ => .ok zeroHash,
      fun _ => []⟩
    let cs : List Cmd := [.op (.addBalance ripemd 1), .op (.setState ripemd zeroHash zeroHash),
      .snapshot, .op (.addRefund 5), .op (.selfDestruct ripemd), .revertToSnapshot 1,
      .op (.addSlotToAccessList ripemd zeroHash)]
    ∃ s₁ s₂, runCmds keccak s.Snapshot.2 cs = .ok s₁ ∧
      s₁.RevertToSnapshot keccak 0 = .ok s₂ ∧ AgreeApartFromCode keccak s₂ s := by
  intro keccak s cs
  obtain ⟨s₁, s₂, hrun, hrevert, hagree, -⟩ := @revertToSnapshot_restores Unit keccak s
    (Reachable.new _ _ _) cs (by
      refine ⟨trivial, fun _ h => ?_⟩
      cases h
      refine ⟨trivial, fun _ h => ?_⟩
      cases h
      refine ⟨trivial, fun _ h => ?_⟩
      cases h
      refine ⟨trivial, fun _ h => ?_⟩
      cases h
      refine ⟨trivial, fun _ h => ?_⟩
      cases h
      refine ⟨⟨Nat.zero_lt_one, ⟨1, 2⟩, ?_, rfl⟩, fun _ _ => ⟨trivial, fun _ _ => trivial⟩⟩
      exact mem_cons_of_mem _ mem_cons_self)
  exact ⟨s₁, s₂, hrun, hrevert, hagree⟩

end GoEthereum.State

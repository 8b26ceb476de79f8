import GoEthereum.State.Reachable
import GoEthereum.Lib.Keccak

/-!
# Reverting changes of code

The code of an account is read into its object when it is first asked for. `SetCode`
journals the bytes the object holds, and undoing the entry also sets the code hash, to the
hash of these bytes. So a `SetCode` on an account whose code has not been read loses the
code when it is undone, and nothing else does.
-/

namespace GoEthereum.State

open Keccak (keccak256)
open List Function

variable {T : Type} {keccak : Bytes → Hash}

variable {addr : Address} {b : Base} {s s' s₀ : StateDB T} {v v' : View}

/-! ## Which entries touch the code of an account -/

/-- The entries whose undoing changes the code of an account. -/
def JournalEntry.recodes (addr : Address) : JournalEntry → Bool
  | .createObjectChange account => account = addr
  | .codeChange account _ => account = addr
  | _ => false

theorem modify_codeHash {a : Address} {f : AccountView → AccountView} (h : v.modify a f = .ok v')
    (hf : ∀ x, (f x).codeHash = x.codeHash) :
    (v'.account addr).map AccountView.codeHash = (v.account addr).map AccountView.codeHash := by
  rw [View.modify] at h
  split at h
  · cases h
  next x haccount =>
  cases h
  show Option.map _ (update v.account a (some (f x)) addr) = _
  rw [update_apply]
  by_cases ha : addr = a
  · rw [if_pos ha, ha, haccount, Option.map_some, Option.map_some, hf]
  · rw [if_neg ha]

/-- The other entries leave the code hash of the account alone. -/
theorem undo_codeHash {e : JournalEntry} (he : e.recodes addr = false)
    (h : v.undo keccak b e = .ok v') :
    (v'.account addr).map AccountView.codeHash = (v.account addr).map AccountView.codeHash := by
  cases e with
  | createObjectChange account =>
    cases h
    have hne : addr ≠ account := fun heq => of_decide_eq_false he heq.symm
    show Option.map _ (update v.account account _ addr) = _
    rw [update_of_ne hne]
  | codeChange account prevCode =>
    have hne : addr ≠ account := fun heq => of_decide_eq_false he heq.symm
    simp only [View.undo, View.modify] at h
    split at h
    · cases h
    · cases h
      show Option.map _ (update v.account account _ addr) = _
      rw [update_of_ne hne]
  | createContractChange account => exact modify_codeHash h fun _ => rfl
  | balanceChange account prev => exact modify_codeHash h fun _ => rfl
  | nonceChange account prev => exact modify_codeHash h fun _ => rfl
  | storageChange account key prevvalue origvalue => exact modify_codeHash h fun _ => rfl
  | selfDestructChange account =>
    cases h
    show Option.map _ (update v.account account _ addr) = _
    rw [update_apply]
    by_cases ha : addr = account
    · rw [if_pos ha, ha, Option.map_map]
      rfl
    · rw [if_neg ha]
  | refundChange prev =>
    cases h
    rfl
  | addLogChange txhash =>
    simp only [View.undo] at h
    split at h
    · cases h
    · cases h
      rfl
  | touchChange account =>
    cases h
    rfl
  | accessListAddAccountChange address =>
    cases h
    rfl
  | accessListAddSlotChange address slot =>
    simp only [View.undo] at h
    split at h
    · cases h
    · cases h
      rfl
  | transientStorageChange account key prevalue =>
    cases h
    rfl

theorem undo_codeChange_codeHash {prevCode : Bytes}
    (h : v.undo keccak b (.codeChange addr prevCode) = .ok v') :
    (v'.account addr).map AccountView.codeHash = some (keccak prevCode) := by
  simp only [View.undo, View.modify] at h
  split at h
  · cases h
  · cases h
    show Option.map _ (update v.account addr _ addr) = _
    rw [update_self]
    rfl

theorem undoAll_codeHash (es : List JournalEntry) :
    ∀ {v v' : View}, (∀ e ∈ es, e.recodes addr = false) → View.undoAll keccak b es v = .ok v' →
      (v'.account addr).map AccountView.codeHash = (v.account addr).map AccountView.codeHash := by
  induction es with
  | nil =>
    intro v v' _ h
    cases h
    rfl
  | cons e es ih =>
    intro v v' hes h
    rw [View.undoAll] at h
    split at h
    · cases h
    next w hundo =>
    rw [ih (fun e' he' => hes e' (mem_cons_of_mem e he')) h]
    exact undo_codeHash (hes e mem_cons_self) hundo

/-! ## Once in memory, a code stays there -/

/-- The entries since an earlier state. -/
def entriesSince (s₀ s : StateDB T) : List JournalEntry :=
  s.journal.entries.drop s₀.journal.entries.length

/-- What holds of an account along a run: it was created only where the database has none,
and once an entry is about its code, its code is in memory. -/
structure Tracked (keccak : Bytes → Hash) (addr : Address) (s₀ s : StateDB T) : Prop where
  fresh : .createObjectChange addr ∈ entriesSince s₀ s → s₀.base.account addr = none
  recoded : ∀ e ∈ entriesSince s₀ s, e.recodes addr = true → s.LoadedAt keccak addr

theorem Records.recodes {act : Act} {e : JournalEntry} (h : Records keccak s act e)
    (he : e.recodes addr = true) :
    (s.find keccak addr = none ∧ e = .createObjectChange addr) ∨ ∃ code, act = .code addr code := by
  cases h with
  | @create a hnone =>
    have ha : a = addr := of_decide_eq_true he
    rw [← ha]
    exact .inl ⟨account_eq_none.mp hnone, rfl⟩
  | @code a obj hfind code =>
    have ha : a = addr := of_decide_eq_true he
    rw [← ha]
    exact .inr ⟨code, rfl⟩
  | _ => cases he

theorem loadedAt_of_none (h : s.find keccak addr = none) : s.LoadedAt keccak addr := by
  intro obj hobj
  rw [h] at hobj
  cases hobj

theorem Performs.tracked {acts : List Act} (h : Performs keccak s acts s')
    (hbase : s.base = s₀.base) (hle : s₀.journal.entries.length ≤ s.journal.entries.length)
    (ht : Tracked keccak addr s₀ s) :
    s₀.journal.entries.length ≤ s'.journal.entries.length ∧ Tracked keccak addr s₀ s' := by
  induction h with
  | refl => exact ⟨hle, ht⟩
  | @load acts s₁ s₂ _ hl ih =>
    obtain ⟨hle₁, hfresh, hrecoded⟩ := ih
    have hentries : entriesSince s₀ s₂ = entriesSince s₀ s₁ := by
      rw [entriesSince, entriesSince, hl.journal]
    refine ⟨by rw [hl.journal]; exact hle₁, ?_, ?_⟩
    · rw [hentries]
      exact hfresh
    · rw [hentries]
      intro e he hre
      exact hl.loaded addr (hrecoded e he hre)
  | @act acts act e s₁ s₂ h ha ih =>
    obtain ⟨hle₁, hfresh, hrecoded⟩ := ih
    have hall := (record_entries s₁.journal e).1
    rw [← ha.journal] at hall
    have hentries : entriesSince s₀ s₂ = entriesSince s₀ s₁ ++ [e] := by
      rw [entriesSince, entriesSince, hall, drop_append_of_le_length hle₁]
    have hbase₁ : s₁.base = s₀.base := h.frame.base.trans hbase
    refine ⟨?_, ?_, ?_⟩
    · rw [hall, length_append]
      exact hle₁.trans (Nat.le_add_right _ _)
    · rw [hentries, mem_append, mem_singleton]
      rintro (hmem | rfl)
      · exact hfresh hmem
      · rcases ha.records.recodes (decide_eq_true rfl) with ⟨hnone, -⟩ | ⟨code, hact⟩
        · rw [← hbase₁]
          exact base_account_of_find hnone
        · have hrecords := ha.records
          rw [hact] at hrecords
          cases hrecords
    · rw [hentries]
      intro e' he' hre
      rw [mem_append, mem_singleton] at he'
      rcases he' with hmem | rfl
      · exact ha.loaded addr (hrecoded e' hmem hre)
      · rcases ha.records.recodes hre with ⟨hnone, -⟩ | ⟨code, hact⟩
        · exact ha.loaded addr (loadedAt_of_none hnone)
        · exact ha.recoded addr code hact

/-- The loop of `revert` keeps a code in memory. -/
theorem revertEntries_loaded (es : List JournalEntry) :
    ∀ {s s' : StateDB T}, (.createObjectChange addr ∈ es → s.base.account addr = none) →
      StateDB.revertEntries keccak es s = .ok s' → s.LoadedAt keccak addr →
      s'.LoadedAt keccak addr := by
  induction es with
  | nil =>
    intro s s' _ h hl
    cases h
    exact hl
  | cons e es ih =>
    intro s s' hfresh h hl
    rw [StateDB.revertEntries] at h
    split at h
    · cases h
    next s₁ hrevert =>
    have hbase := (revert_kept hrevert).frame.base
    have hl₁ : s₁.LoadedAt keccak addr :=
      (revert_kept hrevert).loaded _ (fun he => hfresh (he ▸ mem_cons_self)) hl
    refine ih ?_ h hl₁
    intro hmem
    have hnone := hfresh (mem_cons_of_mem e hmem)
    rw [← hbase] at hnone
    exact hnone

theorem revertToSnapshot_loaded {id : Nat}
    (hfresh : ∀ r ∈ s.journal.validRevisions, r.id = id → .createObjectChange addr ∈ s.journal.entries.drop r.journalIndex → s.base.account addr = none)
    (h : s.RevertToSnapshot keccak id = .ok s') (hl : s.LoadedAt keccak addr) :
    s'.LoadedAt keccak addr := by
  rw [StateDB.RevertToSnapshot] at h
  simp only at h
  split at h
  · cases h
  next r hr =>
  split at h
  · cases h
  next hid =>
  rw [StateDB.revert] at h
  split at h
  · cases h
  next s₁ hentries =>
  cases h
  split at hentries
  · cases hentries
  next s₂ hentries' =>
  cases hentries
  have hl₁ : s₂.LoadedAt keccak addr := by
    refine revertEntries_loaded _ ?_ hentries' hl
    intro hmem
    exact hfresh r (mem_of_getElem? hr) (not_not.mp hid) (mem_reverse.mp hmem)
  exact hl₁

section

variable (s : StateDB T) (addr : Address)

theorem getCode_eq :
    (s.GetCode keccak addr).1 = ((s.view keccak).account addr).elim [] AccountView.code :=
  Answer.bytes.inj (Except.ok.inj (Getter.call_spec s (.code addr)).answer)

theorem getCodeSize_eq : (s.GetCodeSize keccak addr).1 =
      ((s.view keccak).account addr).elim 0 fun a => a.code.length :=
  Answer.int.inj (Except.ok.inj (Getter.call_spec s (.codeSize addr)).answer)

theorem getCodeHash_eq : (s.GetCodeHash keccak addr).1 =
      ((s.view keccak).account addr).elim zeroHash AccountView.codeHash :=
  Answer.hash.inj (Except.ok.inj (Getter.call_spec s (.codeHash addr)).answer)

/-- A code that is set is in memory. -/
theorem setCode_loaded (code : Bytes) :
    (s.SetCode keccak addr code).2.LoadedAt keccak addr := by
  intro obj hobj
  rw [StateDB.SetCode] at hobj
  generalize s.getOrNewStateObject keccak addr = r at hobj
  obtain ⟨obj', s'⟩ := r
  simp only [StateObject.SetCode] at hobj
  rw [find_setStateObject, if_pos rfl] at hobj
  cases hobj
  rfl

end

/-- `SetCode` returns and journals the bytes in memory. -/
theorem setCode_some {obj : StateObject T} (h : s.find keccak addr = some obj) (code : Bytes) :
    (s.SetCode keccak addr code).1 = obj.code ∧ (s.SetCode keccak addr code).2.journal.entries =
        s.journal.entries ++ [.codeChange addr obj.code] := by
  have hlook := getStateObject_looked keccak s addr
  rw [StateDB.SetCode, StateDB.getOrNewStateObject]
  generalize s.getStateObject keccak addr = r at hlook
  cases hlook with
  | absent _ hfind => cases hfind.symm.trans h
  | @found _ s₁ hloads hfind =>
    cases hfind.symm.trans h
    refine ⟨rfl, ?_⟩
    show s₁.journal.entries ++ _ = _
    rw [hloads.journal]

/-- Of an account whose code is in memory, `SetCode` returns the code. -/
theorem setCode_returns (h : s.LoadedAt keccak addr) (code : Bytes) :
    (s.SetCode keccak addr code).1 = (s.GetCode keccak addr).1 := by
  rw [getCode_eq, view_account]
  cases hfind : s.find keccak addr with
  | some obj =>
    rw [(setCode_some hfind code).1]
    exact (codeOf_of_loaded s.base (h obj hfind)).symm
  | none =>
    have hlook := getStateObject_looked keccak s addr
    rw [StateDB.SetCode, StateDB.getOrNewStateObject]
    generalize s.getStateObject keccak addr = r at hlook
    cases hlook with
    | absent => rfl
    | found _ h' => cases hfind.symm.trans h'

/-- **One call** keeps an account tracked. A code in memory stays there, and one that is
set is there. -/
theorem Since.call_tracked (h : Since s₀ s) (ht : Tracked keccak addr s₀ s) {c : Cmd}
    (hallowed : c.Allowed keccak s₀.journal.nextRevisionId s) (hcall : c.call keccak s = .ok s') :
    Tracked keccak addr s₀ s' ∧ (s.LoadedAt keccak addr → s'.LoadedAt keccak addr) ∧
      (c.setsCode addr → s'.LoadedAt keccak addr) := by
  obtain ⟨es, hes⟩ := h.entries
  cases c with
  | op op =>
    obtain ⟨s₁, hcall₁, hperforms⟩ := Op.call_performs h.sound.valid hallowed
    cases hcall₁.symm.trans hcall
    have hle : s₀.journal.entries.length ≤ s.journal.entries.length := by
      rw [hes, length_append]
      exact Nat.le_add_right _ _
    refine ⟨(hperforms.tracked h.frame.base hle ht).2, hperforms.loaded, fun hsets => ?_⟩
    cases op with
    | setCode a code =>
      cases hsets
      cases hcall
      exact setCode_loaded s addr code
    | _ => cases hsets
  | snapshot =>
    cases hcall
    exact ⟨⟨ht.fresh, ht.recoded⟩, id, fun hsets => by cases hsets⟩
  | revertToSnapshot id =>
    obtain ⟨hlt, r, hr, rfl⟩ := hallowed
    obtain ⟨newer₁, newer₂, hsplit, hindex⟩ := h.newer hr hlt
    have hreverted := (@Sound.revertToSnapshot T keccak s h.sound _ _ _ hsplit).2 s' hcall
    have hsub : ∀ e ∈ entriesSince s₀ s', e ∈ entriesSince s₀ s := by
      intro e he
      rw [entriesSince, hreverted.entries, drop_take] at he
      exact mem_of_mem_take he
    have hloaded : s.LoadedAt keccak addr → s'.LoadedAt keccak addr := by
      refine revertToSnapshot_loaded ?_ hcall
      intro r' hr' hid hmem
      obtain ⟨-, -, -, hindex'⟩ := h.newer hr' (hid ▸ hlt)
      rw [h.frame.base]
      exact ht.fresh (drop_subset_drop_left _ hindex' hmem)
    refine ⟨⟨fun hmem => ht.fresh (hsub _ hmem), fun e he hre => ?_⟩, hloaded,
      fun hsets => by cases hsets⟩
    exact hloaded (ht.recoded e (hsub e he) hre)

theorem AllCalls.mono {P Q : Cmd → StateDB T → Prop} (hPQ : ∀ c s, P c s → Q c s)
    (cs : List Cmd) : ∀ {s : StateDB T}, AllCalls keccak P s cs → AllCalls keccak Q s cs := by
  induction cs with
  | nil =>
    intro s _
    trivial
  | cons c cs ih =>
    intro s h
    exact ⟨hPQ c s h.1, fun s' hs' => ih (h.2 s' hs')⟩

theorem allCalls_forall {ι : Type} {P : ι → Cmd → StateDB T → Prop} (cs : List Cmd) :
    ∀ {s : StateDB T}, (∀ i, AllCalls keccak (P i) s cs) →
      AllCalls keccak (fun c s => ∀ i, P i c s) s cs := by
  induction cs with
  | nil =>
    intro s _
    trivial
  | cons c cs ih =>
    intro s h
    exact ⟨fun i => (h i).1, fun s' hs' => ih fun i => (h i).2 s' hs'⟩

/-- The calls that set the code of an account find its code in memory. -/
def Cmd.FindsCode (keccak : Bytes → Hash) (addr : Address) (c : Cmd) (s : StateDB T) : Prop :=
  c.setsCode addr → s.LoadedAt keccak addr

/-- From a state that has the code in memory, every call finds it there. -/
theorem Since.run_loaded (cs : List Cmd) :
    ∀ {s : StateDB T}, Since s₀ s → Tracked keccak addr s₀ s → s.LoadedAt keccak addr →
      (undoneTo keccak s₀ s).map (View.mask fun _ => false) = .ok v →
      AllowedRun keccak s₀.journal.nextRevisionId s cs →
      AllCalls keccak (Cmd.FindsCode keccak addr) s cs := by
  induction cs with
  | nil =>
    intro s _ _ _ _ _
    trivial
  | cons c cs ih =>
    intro s h ht hl hundone hallowed
    refine ⟨fun _ => hl, fun s' hs' => ?_⟩
    obtain ⟨s₁, hcall, h₁, hundone₁⟩ := h.call hundone hallowed.1 (by intro _ _ hf; cases hf)
    cases hcall.symm.trans hs'
    obtain ⟨ht₁, hloaded, -⟩ := h.call_tracked ht hallowed.1 hs'
    exact ih h₁ ht₁ (hloaded hl) hundone₁ (hallowed.2 _ hs')

theorem mask_codeHash (v : View) (addr : Address) :
    ((v.mask fun a => a = addr).account addr).map AccountView.codeHash =
      (v.account addr).map AccountView.codeHash := by
  show Option.map _ (Option.map (AccountView.mask (decide (addr = addr))) _) = _
  rw [decide_eq_true rfl, Option.map_map]
  rfl

/-- A run in which some call sets the code of an account without finding it in memory:
undoing it leads to another code hash. -/
theorem Since.run_lost (cs : List Cmd) : ∀ {s : StateDB T}, Since s₀ s → Tracked keccak addr s₀ s →
      (undoneTo keccak s₀ s).map (View.mask fun a => a = addr) =
        .ok ((s₀.view keccak).mask fun a => a = addr) →
      AllowedRun keccak s₀.journal.nextRevisionId s cs →
      ¬ AllCalls keccak (Cmd.FindsCode keccak addr) s cs →
      ∃ s' w h₁ h₂, runCmds keccak s cs = .ok s' ∧ Since s₀ s' ∧
        (undoneTo keccak s₀ s').map (View.mask fun a => a = addr) = .ok w ∧
        (w.account addr).map AccountView.codeHash = some h₁ ∧
        ((s₀.view keccak).account addr).map AccountView.codeHash = some h₂ ∧ h₁ ≠ h₂ := by
  induction cs with
  | nil =>
    intro s _ _ _ _ hbad
    exact absurd trivial hbad
  | cons c cs ih =>
    intro s h ht hundone hallowed hbad
    by_cases hfinds : Cmd.FindsCode keccak addr c s
    · obtain ⟨s₁, hcall, h₁, hundone₁⟩ := h.call hundone hallowed.1 (by
        intro a hsets ha
        cases of_decide_eq_true ha
        exact hfinds hsets)
      obtain ⟨ht₁, -, -⟩ := h.call_tracked ht hallowed.1 hcall
      have hbad₁ : ¬ AllCalls keccak (Cmd.FindsCode keccak addr) s₁ cs := by
        intro hall
        refine hbad ⟨hfinds, fun s' hs' => ?_⟩
        cases hcall.symm.trans hs'
        exact hall
      obtain ⟨s', w, c₁, c₂, hrun, hrest⟩ := ih h₁ ht₁ hundone₁ (hallowed.2 _ hcall) hbad₁
      refine ⟨s', w, c₁, c₂, ?_, hrest⟩
      rw [runCmds, hcall]
      exact hrun
    · -- no entry so far is about the code, so it is still that of the snapshot
      obtain ⟨hsets, hunloaded⟩ := Classical.not_imp.mp hfinds
      have hfree : ∀ e ∈ (entriesSince s₀ s).reverse, e.recodes addr = false := by
        intro e he
        refine Bool.eq_false_iff.mpr fun hre => ?_
        exact hunloaded (ht.recoded e (mem_reverse.mp he) hre)
      rw [StateDB.LoadedAt] at hunloaded
      push Not at hunloaded
      obtain ⟨obj, hfind, hne⟩ := hunloaded
      obtain ⟨u, hu, humask⟩ := ok_of_map hundone
      have hhash : ((s₀.view keccak).account addr).map AccountView.codeHash =
          some obj.data.codeHash := by
        rw [← mask_codeHash, ← humask, mask_codeHash, undoAll_codeHash _ hfree hu, view_account,
          hfind]
        rfl
      cases c with
      | snapshot => cases hsets
      | revertToSnapshot id => cases hsets
      | op op =>
        cases op with
        | setCode a code =>
          cases hsets
          -- from here on the code is in memory, and undoing leads to its hash
          obtain ⟨v, hv⟩ : ∃ v, (undoneTo keccak s₀ s).map (View.mask fun _ => false) =
              .ok v := ⟨_, by rw [hu]; rfl⟩
          obtain ⟨s₁, hcall, h₁, hundone₁⟩ := h.call hv hallowed.1 (by
            intro _ _ hf
            cases hf)
          obtain ⟨ht₁, -, hset⟩ := h.call_tracked ht hallowed.1 hcall
          obtain ⟨w, hw, -⟩ := ok_of_map hundone₁
          have hfinds₁ := h₁.run_loaded cs ht₁ (hset rfl) hundone₁ (hallowed.2 _ hcall)
          obtain ⟨s', hrun, h', hundone'⟩ := h₁.run (A := fun a => a = addr) cs
            (v := w.mask fun a => a = addr) (by rw [hw]; rfl) (hallowed.2 _ hcall)
            (AllCalls.mono (by
              intro c' t hc' a hsets' ha
              cases of_decide_eq_true ha
              exact hc' hsets') cs hfinds₁)
          have hlost : (w.account addr).map AccountView.codeHash = some (keccak obj.code) := by
            cases hcall
            obtain ⟨es, hes⟩ := h.entries
            rw [undoneTo, (setCode_some hfind code).2,
              drop_append_of_le_length (by rw [hes, length_append]; omega),
              reverse_concat, View.undoAll] at hw
            split at hw
            · cases hw
            next w₁ hundo =>
            rw [undoAll_codeHash _ hfree hw]
            exact undo_codeChange_codeHash hundo
          refine ⟨s', _, _, _, ?_, h', hundone', ?_, hhash, hne⟩
          · rw [runCmds, hcall]
            exact hrun
          · rw [mask_codeHash]
            exact hlost
        | _ => cases hsets

/-! ## Which runs restore the codes -/

/-- Two states return the same codes. -/
structure SameCode (keccak : Bytes → Hash) (s t : StateDB T) : Prop where
  code : ∀ addr, (s.GetCode keccak addr).1 = (t.GetCode keccak addr).1
  codeSize : ∀ addr, (s.GetCodeSize keccak addr).1 = (t.GetCodeSize keccak addr).1
  codeHash : ∀ addr, (s.GetCodeHash keccak addr).1 = (t.GetCodeHash keccak addr).1

theorem sameCode_of_view {t : StateDB T} (h : s.view keccak = t.view keccak) :
    SameCode keccak s t where
  code addr := by rw [getCode_eq, getCode_eq, h]
  codeSize addr := by rw [getCodeSize_eq, getCodeSize_eq, h]
  codeHash addr := by rw [getCodeHash_eq, getCodeHash_eq, h]

theorem tracked_snapshot (addr : Address) (s : StateDB T) : Tracked keccak addr s s.Snapshot.2 := by
  have hnil : entriesSince s s.Snapshot.2 = [] := drop_length
  refine ⟨fun hmem => ?_, fun e he => ?_⟩
  · rw [hnil] at hmem
    cases hmem
  · rw [hnil] at he
    cases he

/-- **`RevertToSnapshot` restores the codes just when every `SetCode` of the run found the
code in memory.** A run from a snapshot succeeds, and going back gives every account its
code, size and hash back, every `SetCode` having returned what `GetCode` would have, if and
only if every `SetCode` of the run was on an account without code, or one whose code had
been read or set before, with the hash that the account has. -/
theorem revertToSnapshot_restores_code_iff (s : StateDB T) (hs : Reachable keccak s)
    (cs : List Cmd) (hallowed : AllowedRun keccak s.Snapshot.1 s.Snapshot.2 cs) :
    ((∃ s₁ s₂, runCmds keccak s.Snapshot.2 cs = .ok s₁ ∧
        s₁.RevertToSnapshot keccak s.Snapshot.1 = .ok s₂ ∧ SameCode keccak s₂ s) ∧
      AllCalls keccak (fun c t => ∀ addr code, c = .op (.setCode addr code) →
        (t.SetCode keccak addr code).1 = (t.GetCode keccak addr).1) s.Snapshot.2 cs) ↔
    AllCalls keccak (fun c t => ∀ addr, c.FindsCode keccak addr t) s.Snapshot.2 cs := by
  have hsince := since_snapshot hs.sound
  constructor
  · rintro ⟨⟨s₁, s₂, hrun, hrevert, hsame⟩, -⟩
    refine allCalls_forall cs fun addr => ?_
    by_contra hbad
    have hstart : (undoneTo keccak s s.Snapshot.2).map (View.mask fun a => a = addr) =
        .ok ((s.view keccak).mask fun a => a = addr) := by
      rw [undoneTo_snapshot]
      rfl
    obtain ⟨s₁', w, c₁, c₂, hrun', hsince', hundone, hc₁, hc₂, hne⟩ :=
      hsince.run_lost cs (tracked_snapshot addr s) hstart hallowed hbad
    cases hrun'.symm.trans hrun
    have hview := (@Since.revert T keccak s s₁ hsince').1
    have hrevert' : s₁.RevertToSnapshot keccak s.journal.nextRevisionId = .ok s₂ := hrevert
    rw [hrevert'] at hview
    rw [← hview] at hundone
    have hmask : (s₂.view keccak).mask (fun a => a = addr) = w := Except.ok.inj hundone
    rw [← hmask, mask_codeHash] at hc₁
    have hhash := hsame.codeHash addr
    rw [getCodeHash_eq, getCodeHash_eq] at hhash
    obtain ⟨a₁, ha₁, rfl⟩ := Option.map_eq_some_iff.mp hc₁
    obtain ⟨a₂, ha₂, rfl⟩ := Option.map_eq_some_iff.mp hc₂
    rw [ha₁, ha₂] at hhash
    exact hne hhash
  · intro hfinds
    have hstart : (undoneTo keccak s s.Snapshot.2).map (View.mask fun _ => true) =
        .ok ((s.view keccak).mask fun _ => true) := by
      rw [undoneTo_snapshot]
      rfl
    obtain ⟨s₁, hrun, hsince₁, hundone⟩ := hsince.run cs hstart hallowed
      (AllCalls.mono (fun c t hc addr hsets _ => hc addr hsets) cs hfinds)
    rw [← (@Since.revert T keccak s s₁ hsince₁).1] at hundone
    obtain ⟨v, hv, hmask⟩ := ok_of_map hundone
    obtain ⟨s₂, hrevert, rfl⟩ := ok_of_map hv
    rw [View.mask_univ, View.mask_univ] at hmask
    refine ⟨⟨s₁, s₂, hrun, hrevert, sameCode_of_view hmask⟩, ?_⟩
    refine AllCalls.mono ?_ cs hfinds
    rintro c t hc addr code rfl
    exact setCode_returns (hc addr rfl) code

/-- A database with one contract, whose code is the byte 0x60. -/
def contractReader : Reader where
  Account addr :=
    if addr = ripemd then .ok (some ⟨1, 0, Trie.emptyRootHash, keccak256 [0x60]⟩)
    else .ok none
  Storage _ _ := .ok zeroHash
  Code h := if h = keccak256 [0x60] then [0x60] else []

/-- A new state over that database. -/
def contractState : StateDB Unit := newWithReader zeroHash () contractReader

/-- Once `GetCode` has read the code, changing it is undone. -/
theorem revertToSnapshot_restores_code_iff_read :
    ∃ s₁ s₂, runCmds keccak256 contractState.Snapshot.2
        [.op (.get (.code ripemd)), .op (.setCode ripemd [0x01])] = .ok s₁ ∧
      s₁.RevertToSnapshot keccak256 contractState.Snapshot.1 = .ok s₂ ∧
      SameCode keccak256 s₂ contractState := by
  refine ((revertToSnapshot_restores_code_iff contractState (.new _ _ _) _ ?_).mpr ?_).1
  · exact ⟨trivial, fun _ _ => ⟨trivial, fun _ _ => trivial⟩⟩
  · refine ⟨(fun _ hsets => by cases hsets), fun t ht => ⟨?_, fun _ _ => trivial⟩⟩
    rintro addr rfl obj hobj
    have hloaded : (((Getter.code ripemd).call keccak256
        contractState.Snapshot.2).toOption.bind fun r => r.2.find keccak256 ripemd).all
        (fun obj => decide (keccak256 obj.code = obj.data.codeHash)) = true := by
      decide +kernel
    have hcall : (Op.get (.code ripemd)).call keccak256 contractState.Snapshot.2 = .ok t := ht
    rw [Op.call] at hcall
    obtain ⟨r, hr, rfl⟩ := ok_of_map hcall
    rw [hr] at hloaded
    simp only [Except.toOption, Option.bind_some] at hloaded
    rw [hobj] at hloaded
    have hhash : keccak256 obj.code = obj.data.codeHash := of_decide_eq_true hloaded
    exact hhash

/-- Unread, the code is lost: it is 0x60 before the snapshot and empty after going back to
it, and `SetCode` has returned no code. -/
theorem revertToSnapshot_loses_code : (contractState.GetCode keccak256 ripemd).1 = [0x60] ∧
      (contractState.Snapshot.2.SetCode keccak256 ripemd [0x01]).1 = [] ∧
      ((contractState.Snapshot.2.SetCode keccak256 ripemd [0x01]).2.RevertToSnapshot
        keccak256 contractState.Snapshot.1).toOption.map
        (fun s => (s.GetCode keccak256 ripemd).1) = some [] := by
  decide +kernel

end GoEthereum.State

import GoEthereum.Vm.GasSStore
import GoEthereum.State.Guard
import GoEthereum.State.Reachable
import GoEthereum.Lib.Keccak

/-!
# The refund counter

Under every schedule with net metering the counter covers the clearing refund of every
slot that was not zero when the transaction began and is zero now. So a refund that is
taken back has been given before. Reverts go back to views in which this holds too. The
counter has 64 bits and is not checked for overflow: the result is for transactions whose
refunds do not add up to more.
-/

namespace GoEthereum.Vm

open Keccak (keccak256)
open State List Function

variable {T : Type} {keccak : Bytes → Hash}

variable {addr : Address} {slot value : Hash} {revid : Nat} {s s' : StateDB T} {refund : UInt64}
  {v w : View}

/-! ## Cleared slots -/

/-- The slots whose committed value is not zero and whose current value is. -/
def clearedSlots (v : View) : Set (Address × Hash) :=
  {p | committedSlot v p.1 p.2 ≠ zeroHash ∧ currentSlot v p.1 p.2 = zeroHash}

/-- The counter covers the refunds of all cleared slots. -/
def Covered (clearRefund : UInt64) (v : View) : Prop :=
  (clearedSlots v).Finite ∧ clearRefund.toNat * (clearedSlots v).ncard ≤ v.refund.toNat

theorem clearedSlots_congr
    (hcommitted : ∀ addr slot, committedSlot v addr slot = committedSlot w addr slot)
    (hcurrent : ∀ addr slot, currentSlot v addr slot = currentSlot w addr slot) :
    clearedSlots v = clearedSlots w := by
  ext ⟨addr, slot⟩
  show _ ∧ _ ↔ _ ∧ _
  rw [hcommitted, hcurrent]

theorem clearedSlots_mask (v : View) : clearedSlots (v.mask fun _ => false) = clearedSlots v := by
  refine clearedSlots_congr (fun addr slot => ?_) (fun addr slot => ?_)
  · show ((v.account addr).map _).elim _ _ = _
    rw [committedSlot]
    cases v.account addr <;> rfl
  · show ((v.account addr).map _).elim _ _ = _
    rw [currentSlot]
    cases v.account addr <;> rfl

theorem covered_codeBlind (clearRefund : UInt64) : CodeBlind (Covered clearRefund) := by
  intro v w hmask hcovered
  have hcleared : clearedSlots w = clearedSlots v := by
    rw [← clearedSlots_mask w, ← hmask, clearedSlots_mask]
  have hrefund : w.refund = v.refund := (congrArg View.refund hmask).symm
  rw [Covered, hcleared, hrefund]
  exact hcovered

/-- A change of an account is not seen by what does not depend on it. -/
theorem elim_alter (v : View) (addr addr' : Address) {f : AccountView → AccountView}
    {g : AccountView → Hash} (h : ∀ a, g (f a) = g a) :
    ((v.alter addr f).account addr').elim zeroHash g = (v.account addr').elim zeroHash g := by
  show (update v.account addr ((v.account addr).map f) addr').elim _ _ = _
  rw [update_apply]
  split
  · rename_i heq
    rw [heq]
    cases v.account addr with
    | none => rfl
    | some a => exact h a
  · rfl

/-- A change of an account that leaves its slots alone. -/
theorem clearedSlots_alter (v : View) (addr : Address) {f : AccountView → AccountView}
    (hcommitted : ∀ a, (f a).committed = a.committed) (hstate : ∀ a, (f a).state = a.state) :
    clearedSlots (v.alter addr f) = clearedSlots v :=
  clearedSlots_congr (fun addr' slot => elim_alter v addr addr' fun a => by rw [hcommitted])
    (fun addr' slot => elim_alter v addr addr' fun a => by rw [hstate])

/-- A new account has no cleared slot. -/
theorem clearedSlots_create (h : v.account addr = none) (b : Base) :
    clearedSlots (v.setAccount addr (some (newAccount keccak b addr))) = clearedSlots v := by
  ext ⟨addr', slot⟩
  show _ ∧ _ ↔ _ ∧ _
  simp only [committedSlot, currentSlot, View.setAccount, update_apply]
  split
  · rename_i heq
    rw [heq, h]
    constructor
    · rintro ⟨hne, heq⟩
      exact absurd heq hne
    · rintro ⟨hne, -⟩
      exact absurd rfl hne
  · exact Iff.rfl

/-- The changes of storage. -/
def isStorage : Act → Bool
  | .storage _ _ _ => true
  | _ => false

/-- The changes of the refund counter. -/
def isRefund : Act → Bool
  | .refund _ => true
  | _ => false

theorem clearedSlots_apply {act : Act} {e : JournalEntry} (h : Records keccak s act e)
    (hact : isStorage act = false) :
    clearedSlots (act.apply keccak s.base (s.view keccak)) = clearedSlots (s.view keccak) := by
  cases h with
  | create hnone => exact clearedSlots_create hnone s.base
  | contract _ _ => exact clearedSlots_alter _ _ (fun _ => rfl) fun _ => rfl
  | destruct _ _ => exact clearedSlots_alter _ _ (fun _ => rfl) fun _ => rfl
  | balance _ amount => exact clearedSlots_alter _ _ (fun _ => rfl) fun _ => rfl
  | nonce _ nonce => exact clearedSlots_alter _ _ (fun _ => rfl) fun _ => rfl
  | storage _ key value => cases hact
  | code _ code => exact clearedSlots_alter _ _ (fun _ => rfl) fun _ => rfl
  | refund gas => rfl
  | log log => rfl
  | touch addr => rfl
  | accessAddress _ => rfl
  | @accessSlot addr slot al hslot =>
    have hal : (s.view keccak).accessList = s.accessList := rfl
    simp only [Act.apply, hal, hslot]
    rfl
  | transient addr key value => rfl

theorem refund_apply {b : Base} {v : View} {act : Act} (hact : isRefund act = false) :
    (act.apply keccak b v).refund = v.refund := by
  cases act with
  | refund gas => cases hact
  | accessSlot addr slot =>
    simp only [Act.apply]
    cases v.accessList.AddSlot addr slot with
    | error p => rfl
    | ok r => rfl
  | _ => rfl

/-- Operations that change neither storage nor the counter leave both as they are. -/
theorem performs_cleared {acts : List Act} (h : Performs keccak s acts s')
    (hstorage : ∀ act ∈ acts, isStorage act = false) :
    clearedSlots (s'.view keccak) = clearedSlots (s.view keccak) :=
  h.preserves clearedSlots_apply hstorage

theorem performs_refund {acts : List Act} (h : Performs keccak s acts s')
    (hrefund : ∀ act ∈ acts, isRefund act = false) : s'.refund = s.refund :=
  h.preserves (f := View.refund) (fun _ hact => refund_apply hact) hrefund

/-! ## One write -/

/-- A write to a slot of an account that is there. -/
theorem setState_slots {s : StateDB T} {addr : Address} {a : AccountView}
    (h : (s.view keccak).account addr = some a) (slot value : Hash) :
    (∃ acts, Performs keccak s acts (s.SetState keccak addr slot value).2) ∧
      (s.SetState keccak addr slot value).2.refund = s.refund ∧
      ((s.SetState keccak addr slot value).2.view keccak).account =
        update (s.view keccak).account addr
          (some { a with state := update a.state slot value }) := by
  have hperforms := @setState_performs T keccak s addr slot value
  have hrefund : (s.SetState keccak addr slot value).2.refund = s.refund := by
    refine performs_refund hperforms fun act hact => ?_
    have hmay := Op.mem_acts _ hact
    cases act with
    | refund gas => cases hmay
    | _ => rfl
  refine ⟨⟨_, hperforms⟩, hrefund, ?_⟩
  rw [hperforms.view]
  simp only [StateDB.acts, Op.acts, View.ensure, View.getOrNew, h, nil_append, Option.getD_some]
  split
  · rename_i hsame
    show (s.view keccak).account = _
    rw [← hsame, update_eq_self, ← h, update_eq_self]
  · show update (s.view keccak).account addr (((s.view keccak).account addr).map _) = _
    rw [h]
    rfl

/-- The cleared slots after a write: the slot is one of them if it had a value. -/
theorem clearedSlots_write {a : AccountView} (h : v.account addr = some a)
    (hw : w.account = update v.account addr (some { a with state := update a.state slot value })) :
    clearedSlots w = if committedSlot v addr slot ≠ zeroHash ∧ value = zeroHash then
        insert (addr, slot) (clearedSlots v)
      else clearedSlots v \ {(addr, slot)} := by
  have hcommitted : ∀ addr' slot', committedSlot w addr' slot' = committedSlot v addr' slot' := by
    intro addr' slot'
    rw [committedSlot, committedSlot, hw, update_apply]
    split
    · rename_i heq
      rw [heq, h]
      rfl
    · rfl
  have hcurrent : ∀ addr' slot', currentSlot w addr' slot' =
      if (addr', slot') = (addr, slot) then value else currentSlot v addr' slot' := by
    intro addr' slot'
    rw [currentSlot, currentSlot, hw, update_apply]
    by_cases haddr : addr' = addr
    · subst haddr
      rw [if_pos rfl, h]
      show update a.state slot value slot' = _
      rw [update_apply]
      by_cases hslot : slot' = slot
      · rw [if_pos hslot, if_pos (by rw [hslot])]
      · rw [if_neg hslot, if_neg fun heq => hslot (Prod.mk.inj heq).2]
        rfl
    · rw [if_neg haddr, if_neg fun heq => haddr (Prod.mk.inj heq).1]
  ext ⟨addr', slot'⟩
  show _ ∧ _ ↔ _
  simp only [hcommitted, hcurrent]
  by_cases hpair : (addr', slot') = (addr, slot)
  · obtain ⟨rfl, rfl⟩ := Prod.mk.inj hpair
    rw [if_pos rfl]
    split
    · rename_i hboth
      exact ⟨fun _ => Set.mem_insert _ _, fun _ => hboth⟩
    · rename_i hboth
      exact ⟨fun hmem => absurd hmem hboth, fun hmem => absurd rfl hmem.2⟩
  · rw [if_neg hpair]
    split
    · constructor
      · exact fun hmem => Set.mem_insert_of_mem _ hmem
      · intro hmem
        exact hmem.resolve_left hpair
    · exact ⟨fun hmem => ⟨hmem, hpair⟩, fun hmem => hmem.1⟩

/-- The largest refund of a schedule. -/
def NetSchedule.most (p : NetSchedule) : Nat :=
  max p.clearRefund.toNat (max p.resetClearRefund.toNat p.resetRefund.toNat)

theorem toNat_add_of_lt {a b : UInt64} (h : a.toNat + b.toNat < 2 ^ 64) :
    (a + b).toNat = a.toNat + b.toNat := by
  rw [UInt64.toNat_add, Nat.mod_eq_of_lt h]

/-- **Net metering keeps the counter at what the cleared slots need.** -/
theorem netRefund_covers {p : NetSchedule} {original current : Hash} {n : Nat}
    (hcovered : p.clearRefund.toNat * n ≤ refund.toNat) (hroom : refund.toNat + p.most < 2 ^ 64)
    (hcleared : original ≠ zeroHash → current = zeroHash → 0 < n) :
    p.clearRefund.toNat * (if original ≠ zeroHash ∧ value = zeroHash then
          (if current = zeroHash then n else n + 1)
        else if original ≠ zeroHash ∧ current = zeroHash then n - 1 else n) ≤
      (netRefund p original current value refund).toNat := by
  have hclear : p.clearRefund.toNat ≤ p.most := le_max_left _ _
  have hresetClear : p.resetClearRefund.toNat ≤ p.most :=
    (le_max_left _ _).trans (le_max_right _ _)
  have hreset : p.resetRefund.toNat ≤ p.most := (le_max_right _ _).trans (le_max_right _ _)
  have hadd : ∀ g : UInt64, g.toNat ≤ p.most → (refund + g).toNat = refund.toNat + g.toNat :=
    fun g hg => toNat_add_of_lt (by omega)
  rw [netRefund]
  by_cases hsame : current = value
  · subst hsame
    rw [if_pos rfl]
    by_cases hboth : original ≠ zeroHash ∧ current = zeroHash
    · rw [if_pos hboth, if_pos hboth.2]
      exact hcovered
    · rw [if_neg hboth, if_neg hboth]
      exact hcovered
  rw [if_neg hsame]
  by_cases hclean : original = current
  · subst hclean
    rw [if_pos rfl]
    by_cases hboth : original ≠ zeroHash ∧ value = zeroHash
    · rw [if_pos hboth, if_pos hboth, if_neg hboth.1, hadd _ hclear, Nat.mul_succ]
      omega
    · rw [if_neg hboth, if_neg hboth, if_neg fun h => h.1 h.2]
      exact hcovered
  rw [if_neg hclean]
  simp only
  by_cases horiginal : original ≠ zeroHash
  · simp only [if_pos horiginal, if_neg horiginal]
    by_cases hcurrent : current = zeroHash
    · -- recreated: the refund that is taken back is one of those counted
      have hvalue : value ≠ zeroHash := fun h => hsame (hcurrent.trans h.symm)
      have hpos := hcleared horiginal hcurrent
      obtain ⟨m, rfl⟩ : ∃ m, n = m + 1 := ⟨n - 1, by omega⟩
      rw [Nat.mul_succ] at hcovered
      have hle : p.clearRefund ≤ refund := UInt64.le_iff_toNat_le.mpr (by omega)
      have hsub : (refund - p.clearRefund).toNat = refund.toNat - p.clearRefund.toNat :=
        UInt64.toNat_sub_of_le _ _ hle
      rw [if_neg fun h => hvalue h.2, if_pos ⟨horiginal, hcurrent⟩, if_pos hcurrent,
        Nat.add_sub_cancel]
      split
      · rw [toNat_add_of_lt (by omega), hsub]
        omega
      · rw [hsub]
        omega
    · simp only [hcurrent, if_false, and_false]
      by_cases hvalue : value = zeroHash
      · have hne : original ≠ value := fun h => horiginal (h.trans hvalue)
        rw [if_pos ⟨horiginal, hvalue⟩, if_pos hvalue, if_neg hne, hadd _ hclear, Nat.mul_succ]
        omega
      rw [if_neg fun h => hvalue h.2, if_neg hvalue]
      split
      · rw [hadd _ hreset]
        omega
      · exact hcovered
  · have hzero : original = zeroHash := not_not.mp horiginal
    simp only [hzero, ne_eq, not_true, false_and, if_false, if_true]
    split
    · rw [hadd _ hresetClear]
      omega
    · exact hcovered

/-! ## The schedules -/

/-- The schedules with net metering. That of EIP-1283 is in force under Constantinople and
no longer under Petersburg. -/
inductive Schedule where
  | eip1283 (rules : Params.Rules) (h : rules.isConstantinople = true ∧ rules.isPetersburg = false)
  | eip2200
  | eip2929
  | eip3529

/-- The amounts of a schedule. -/
def Schedule.net : Schedule → NetSchedule
  | .eip1283 _ _ => scheduleEIP1283
  | .eip2200 => scheduleEIP2200
  | .eip2929 => scheduleEIP2929 Params.SstoreClearsScheduleRefundEIP2200
  | .eip3529 => scheduleEIP2929 Params.SstoreClearsScheduleRefundEIP3529

/-- The gas function of a schedule. -/
def Schedule.gas (keccak : Bytes → Hash) (contractGas : UInt64) (addr : Address) (x y : Word)
    (s : StateDB T) : Schedule → Except Panic (Except Err UInt64 × StateDB T)
  | .eip1283 rules _ => gasSStore keccak rules addr x y s
  | .eip2200 => gasSStoreEIP2200 keccak contractGas addr x y s
  | .eip2929 => gasSStoreEIP2929 keccak contractGas addr x y s
  | .eip3529 => gasSStoreEIP3529 keccak contractGas addr x y s

/-- What a gas function leaves: it changes the counter and the access list. -/
structure Charged (keccak : Bytes → Hash) (s : StateDB T) (refund : UInt64) (s' : StateDB T) :
    Prop where
  performs : ∃ acts, Performs keccak s acts s'
  account : (s'.view keccak).account = (s.view keccak).account
  refund_eq : s'.refund = refund

theorem Refunds.charged (h : Refunds keccak s refund s') : Charged keccak s refund s' where
  performs := h.1
  account := by rw [h.2]
  refund_eq := h.refund_eq

theorem Charged.trans {s₁ s₂ : StateDB T} {refund' : UInt64} (h : Charged keccak s refund s₁)
    (h' : Charged keccak s₁ refund' s₂) : Charged keccak s refund' s₂ := by
  obtain ⟨acts, hacts⟩ := h.performs
  obtain ⟨acts', hacts'⟩ := h'.performs
  exact ⟨⟨_, hacts.trans hacts'⟩, h'.account.trans h.account, h'.refund_eq⟩

theorem committedSlot_congr (h : w.account = v.account) (addr : Address) (slot : Hash) :
    committedSlot w addr slot = committedSlot v addr slot := by
  rw [committedSlot, committedSlot, h]

theorem currentSlot_congr (h : w.account = v.account) (addr : Address) (slot : Hash) :
    currentSlot w addr slot = currentSlot v addr slot := by
  rw [currentSlot, currentSlot, h]

/-- The check of the access list changes nothing but the access list. -/
theorem coldSlot_charged {s : StateDB T} (hvalid : s.accessList.Valid) (addr : Address)
    (slot : Hash) :
    ∃ cost s', coldSlot addr slot s = .ok (cost, s') ∧ Charged keccak s s.refund s' := by
  have hsame : Charged keccak s s.refund s := ⟨⟨[], .refl⟩, rfl, rfl⟩
  rw [coldSlot]
  cases hslot : s.SlotInAccessList addr slot with
  | error p =>
    have hanswer := (@Getter.call_spec T keccak s (.slotInAccessList addr slot)).answer
    rw [Getter.call, hslot] at hanswer
    exact absurd hanswer.symm (Getter.answer_ne_error hvalid p)
  | ok present =>
    obtain ⟨addressPresent, slotPresent⟩ := present
    simp only
    cases slotPresent with
    | true =>
      rw [if_pos rfl]
      exact ⟨_, s, rfl, hsame⟩
    | false =>
      obtain ⟨s', hadd, hperforms⟩ :=
        @addSlotToAccessList_performs T keccak s hvalid addr slot
      rw [if_neg Bool.false_ne_true, hadd]
      refine ⟨_, s', rfl, ⟨⟨_, hperforms⟩, ?_, ?_⟩⟩
      · refine hperforms.preserves (fun {s act _} _ hmay => ?_) Op.mem_acts
        cases act with
        | accessAddress a => rfl
        | accessSlot a k =>
          simp only [Act.apply]
          cases (s.view keccak).accessList.AddSlot a k with
          | error p => rfl
          | ok r => rfl
        | _ => cases hmay
      · refine performs_refund hperforms fun act hact => ?_
        have hmay := Op.mem_acts _ hact
        cases act with
        | refund gas => cases hmay
        | _ => rfl

/-- A gas function charges by net metering, or fails at the sentry and does nothing. -/
theorem Schedule.gas_charged (sched : Schedule) {s : StateDB T} (hvalid : s.accessList.Valid)
    (contractGas : UInt64) (addr : Address) (x y : Word) {original current : Hash}
    (horiginal : committedSlot (s.view keccak) addr (bytes32 x) = original)
    (hslot : currentSlot (s.view keccak) addr (bytes32 x) = current)
    (h : Recreates original current (bytes32 y) → sched.net.clearRefund ≤ s.refund) :
    (∃ err, sched.gas keccak contractGas addr x y s = .ok (.error err, s)) ∨
      ∃ gas s', sched.gas keccak contractGas addr x y s = .ok (.ok gas, s') ∧
        Charged keccak s (netRefund sched.net original current (bytes32 y) s.refund) s' := by
  -- the slot is read first, which changes nothing that is visible
  obtain ⟨hcurrent, hloads⟩ := @getState_loads T keccak s addr (bytes32 x)
  rw [hslot] at hcurrent
  have hread : Charged keccak s s.refund (s.GetState keccak addr (bytes32 x)).2 :=
    (Refunds.ofLoads hloads).charged
  have hvalid' : (s.GetState keccak addr (bytes32 x)).2.accessList.Valid := by
    have hal : (s.GetState keccak addr (bytes32 x)).2.accessList = s.accessList :=
      congrArg View.accessList hloads.view
    rw [hal]
    exact hvalid
  have hnet : ∀ {s₁ : StateDB T}, Charged keccak s s.refund s₁ →
      ∃ gas s', netGas keccak sched.net addr (bytes32 x) current (bytes32 y) s₁ = .ok (gas, s') ∧
        Charged keccak s (netRefund sched.net original current (bytes32 y) s.refund) s' := by
    intro s₁ hcharged
    have hcommitted := (committedSlot_congr hcharged.account addr (bytes32 x)).trans horiginal
    obtain ⟨gas, s', hgas, hrefunds⟩ := @netGas_refunds T keccak sched.net addr (bytes32 x)
      current (bytes32 y) s₁ (by
        rw [hcommitted, hcharged.refund_eq]
        exact h)
    rw [hcommitted, hcharged.refund_eq] at hrefunds
    exact ⟨gas, s', hgas, hcharged.trans hrefunds.charged⟩
  have hfunc : ∀ clearingRefund, sched.net = scheduleEIP2929 clearingRefund →
      (∃ err, makeGasSStoreFunc keccak clearingRefund contractGas addr x y s =
        .ok (.error err, s)) ∨
      ∃ gas s', makeGasSStoreFunc keccak clearingRefund contractGas addr x y s = .ok (.ok gas, s') ∧
        Charged keccak s (netRefund sched.net original current (bytes32 y) s.refund) s' := by
    intro clearingRefund hsched
    rw [makeGasSStoreFunc]
    split
    · exact .inl ⟨_, rfl⟩
    refine .inr ?_
    simp only
    obtain ⟨cost, s₁, hcold, hcharged⟩ :=
      @coldSlot_charged T keccak _ hvalid' addr (bytes32 x)
    have hcharged' := hread.trans hcharged
    rw [hread.refund_eq] at hcharged'
    obtain ⟨gas, s', hgas, hdone⟩ := hnet hcharged'
    rw [hsched] at hgas
    rw [hcold, hcurrent]
    simp only [hgas]
    exact ⟨_, s', rfl, hdone⟩
  cases sched with
  | eip1283 rules hrules =>
    refine .inr ?_
    obtain ⟨gas, s', hgas, hdone⟩ := hnet hread
    refine ⟨gas, s', ?_, hdone⟩
    show gasSStore keccak rules addr x y s = _
    rw [gasSStore]
    simp only
    rw [if_neg (by rw [hrules.1, hrules.2]; decide), hcurrent]
    have hgas' : netGas keccak scheduleEIP1283 addr (bytes32 x) current (bytes32 y) _ =
      .ok (gas, s') := hgas
    rw [hgas']
  | eip2200 =>
    show (∃ err, gasSStoreEIP2200 keccak contractGas addr x y s = _) ∨ _
    rw [gasSStoreEIP2200]
    split
    · exact .inl ⟨_, rfl⟩
    next hsentry =>
    refine .inr ?_
    obtain ⟨gas, s', hgas, hdone⟩ := hnet hread
    refine ⟨gas, s', ?_, hdone⟩
    show gasSStoreEIP2200 keccak contractGas addr x y s = _
    rw [gasSStoreEIP2200, if_neg hsentry]
    simp only
    rw [hcurrent]
    have hgas' : netGas keccak scheduleEIP2200 addr (bytes32 x) current (bytes32 y) _ =
      .ok (gas, s') := hgas
    rw [hgas']
  | eip2929 => exact hfunc _ rfl
  | eip3529 => exact hfunc _ rfl

/-! ## Transactions -/

/-- The steps of a transaction. A storage write is its gas function and `opSstore`; it is
aborted if its gas cannot be paid or the frame is read only, and then the frame goes back to
its snapshot. -/
inductive Event where
  | sstore (contractGas : UInt64) (addr : Address) (x y : Word)
  | aborted (contractGas : UInt64) (addr : Address) (x y : Word) (id : Nat)
  | op (op : Op)
  | snapshot
  | revertToSnapshot (id : Nat)

section

variable (keccak : Bytes → Hash) (sched : Schedule)

/-- The state after a step. -/
def Event.call (s : StateDB T) : Event → Except Panic (StateDB T)
  | .sstore contractGas addr x y =>
    match sched.gas keccak contractGas addr x y s with
    | .error p => .error p
    | .ok (.error _, s) => .ok s
    | .ok (.ok _, s) => .ok (s.SetState keccak addr (bytes32 x) (bytes32 y)).2
  | .aborted contractGas addr x y id =>
    match sched.gas keccak contractGas addr x y s with
    | .error p => .error p
    | .ok (_, s) => s.RevertToSnapshot keccak id
  | .op o => o.call keccak s
  | .snapshot => .ok s.Snapshot.2
  | .revertToSnapshot id => s.RevertToSnapshot keccak id

/-- The state after a sequence of steps. -/
def runEvents : StateDB T → List Event → Except Panic (StateDB T)
  | s, [] => .ok s
  | s, ev :: evs =>
    match ev.call keccak sched s with
    | .error p => .error p
    | .ok s => runEvents s evs

/-- A step as the virtual machine takes it: storage is written by contracts that exist,
slots and the counter are changed by `SSTORE` only, but for refunds that other operations
add, and reverts are to snapshots of the transaction. -/
def Event.Allowed (revid : Nat) (s : StateDB T) : Event → Prop
  | .sstore _ addr _ _ => (s.view keccak).account addr ≠ none
  | .aborted _ _ _ _ id => revid ≤ id ∧ ∃ r ∈ s.journal.validRevisions, r.id = id
  | .op (.setState _ _ _) => False
  | .op (.subRefund _) => False
  | .op o => o.Allowed (s.view keccak)
  | .snapshot => True
  | .revertToSnapshot id => revid ≤ id ∧ ∃ r ∈ s.journal.validRevisions, r.id = id

/-- The most a step may add to the counter. -/
def Event.most : Event → Nat
  | .sstore _ _ _ _ => sched.net.most
  | .op (.addRefund gas) => gas.toNat
  | _ => 0

/-- The steps of a run meet a condition on the state they find. -/
def AllEvents (P : Event → StateDB T → Prop) : StateDB T → List Event → Prop
  | _, [] => True
  | s, ev :: evs =>
    P ev s ∧ ∀ s', ev.call keccak sched s = .ok s' → AllEvents P s' evs

end

/-- The invariant of a transaction. -/
structure Solvent (keccak : Bytes → Hash) (sched : Schedule) (revid : Nat) (s : StateDB T) :
    Prop where
  sound : Sound s
  covered : Covered sched.net.clearRefund (s.view keccak)
  backed : Backed keccak (Covered sched.net.clearRefund) revid s

/-- A cleared slot has its refund in the counter. -/
theorem Covered.recreates {clearRefund : UInt64} (h : Covered clearRefund v)
    (hr : Recreates (committedSlot v addr slot) (currentSlot v addr slot) value) :
    clearRefund ≤ v.refund := by
  have hpos : 0 < (clearedSlots v).ncard :=
    (Set.ncard_pos h.1).mpr ⟨(addr, slot), hr.1, hr.2.1⟩
  have hle := Nat.le_mul_of_pos_right clearRefund.toNat hpos
  exact UInt64.le_iff_toNat_le.mpr (hle.trans h.2)

/-- **A storage write** keeps the counter covered. -/
theorem Solvent.sstore {sched : Schedule} (h : Solvent keccak sched revid s) (contractGas : UInt64)
    (x y : Word) (haccount : (s.view keccak).account addr ≠ none)
    (hroom : s.refund.toNat + sched.net.most < 2 ^ 64) :
    ∃ s', (Event.sstore contractGas addr x y).call keccak sched s = .ok s' ∧
      Solvent keccak sched revid s' := by
  rw [Event.call]
  rcases @Schedule.gas_charged T keccak sched s h.sound.valid contractGas addr x y _ _ rfl rfl
    h.covered.recreates with ⟨err, hgas⟩ | ⟨gas, s₁, hgas, hcharged⟩
  · rw [hgas]
    exact ⟨s, rfl, h⟩
  rw [hgas]
  refine ⟨_, rfl, ?_⟩
  obtain ⟨acts, hacts⟩ := hcharged.performs
  obtain ⟨a, ha⟩ := Option.ne_none_iff_exists'.mp haccount
  have ha₁ : (s₁.view keccak).account addr = some a := by rw [hcharged.account, ha]
  obtain ⟨⟨acts', hacts'⟩, hrefund, hview⟩ :=
    @setState_slots T keccak s₁ addr a ha₁ (bytes32 x) (bytes32 y)
  obtain ⟨hbacked, hsound⟩ := h.backed.performs (covered_codeBlind _) h.sound (hacts.trans hacts')
  refine ⟨hsound, ?_, hbacked⟩
  -- the slots before the write are those the gas function found
  have hsame : clearedSlots (s₁.view keccak) = clearedSlots (s.view keccak) :=
    clearedSlots_congr (committedSlot_congr hcharged.account) (currentSlot_congr hcharged.account)
  have hcleared := clearedSlots_write ha₁ hview
  rw [hsame, committedSlot_congr hcharged.account] at hcleared
  have hfinite := h.covered.1
  have hmem : (addr, bytes32 x) ∈ clearedSlots (s.view keccak) ↔
      committedSlot (s.view keccak) addr (bytes32 x) ≠ zeroHash ∧
        currentSlot (s.view keccak) addr (bytes32 x) = zeroHash := Iff.rfl
  set cleared := clearedSlots (s.view keccak)
  set original := committedSlot (s.view keccak) addr (bytes32 x)
  set current := currentSlot (s.view keccak) addr (bytes32 x)
  have hcount : (clearedSlots ((s₁.SetState keccak addr (bytes32 x) (bytes32 y)).2.view
      keccak)).ncard =
      if original ≠ zeroHash ∧ bytes32 y = zeroHash then
        (if current = zeroHash then cleared.ncard else cleared.ncard + 1)
      else if original ≠ zeroHash ∧ current = zeroHash then cleared.ncard - 1
      else cleared.ncard := by
    rw [hcleared]
    split
    · rename_i hboth
      split
      · rename_i hzero
        rw [Set.insert_eq_of_mem (hmem.mpr ⟨hboth.1, hzero⟩)]
      · rename_i hnonzero
        exact Set.ncard_insert_of_notMem (fun hin => hnonzero (hmem.mp hin).2) hfinite
    · split
      · rename_i hboth
        exact Set.ncard_sdiff_singleton_of_mem (hmem.mpr hboth)
      · rename_i hnot
        rw [Set.sdiff_singleton_eq_self fun hin => hnot (hmem.mp hin)]
  refine ⟨?_, ?_⟩
  · rw [hcleared]
    split
    · exact hfinite.insert _
    · exact hfinite.sdiff
  · show _ ≤ (s₁.SetState keccak addr (bytes32 x) (bytes32 y)).2.refund.toNat
    rw [hcount, hrefund, hcharged.refund_eq]
    refine netRefund_covers h.covered.2 hroom fun hne hzero => ?_
    exact (Set.ncard_pos hfinite).mpr ⟨_, hmem.mpr ⟨hne, hzero⟩⟩

/-- The other operations keep it covered. -/
theorem Solvent.op {sched : Schedule} (h : Solvent keccak sched revid s) {op : Op}
    (hallowed : (Event.op op).Allowed keccak revid s)
    (hroom : s.refund.toNat + (Event.op op).most sched < 2 ^ 64) :
    ∃ s', op.call keccak s = .ok s' ∧ Solvent keccak sched revid s' := by
  have hop : op.Allowed (s.view keccak) := by
    cases op with
    | setState _ _ _ => cases hallowed
    | subRefund _ => cases hallowed
    | _ => exact hallowed
  obtain ⟨s', hcall, hperforms⟩ := Op.call_performs h.sound.valid hop
  obtain ⟨hbacked, hsound⟩ := h.backed.performs (covered_codeBlind _) h.sound hperforms
  have hcleared : clearedSlots (s'.view keccak) = clearedSlots (s.view keccak) := by
    refine performs_cleared hperforms fun act hact => ?_
    have hmay := Op.mem_acts _ hact
    cases act with
    | storage addr key value =>
      cases op with
      | setState _ _ _ => cases hallowed
      | _ => cases hmay
    | _ => rfl
  have hrefund : s.refund.toNat ≤ s'.refund.toNat := by
    cases op with
    | addRefund gas =>
      cases hcall
      show _ ≤ (s.refund + gas).toNat
      rw [toNat_add_of_lt hroom]
      exact Nat.le_add_right _ _
    | subRefund gas => cases hallowed
    | _ =>
      refine (congrArg UInt64.toNat (performs_refund hperforms fun act hact => ?_)).ge
      have hmay := Op.mem_acts _ hact
      cases act with
      | refund gas => cases hmay
      | _ => rfl
  refine ⟨s', hcall, hsound, ⟨?_, ?_⟩, hbacked⟩
  · rw [hcleared]
    exact h.covered.1
  · rw [hcleared]
    exact h.covered.2.trans hrefund

/-- **One step.** -/
theorem Solvent.step {sched : Schedule} (h : Solvent keccak sched revid s) {ev : Event}
    (hallowed : ev.Allowed keccak revid s) (hroom : s.refund.toNat + ev.most sched < 2 ^ 64) :
    ∃ s', ev.call keccak sched s = .ok s' ∧ Solvent keccak sched revid s' := by
  cases ev with
  | sstore contractGas addr x y => exact h.sstore contractGas x y hallowed hroom
  | aborted contractGas addr x y id =>
    obtain ⟨hid, r, hr, rfl⟩ := hallowed
    rw [Event.call]
    -- whatever the gas function has done is undone with the rest
    have hback : ∀ {s₁ : StateDB T}, (∃ acts, Performs keccak s acts s₁) →
        ∃ s', s₁.RevertToSnapshot keccak r.id = .ok s' ∧ Solvent keccak sched revid s' := by
      rintro s₁ ⟨acts, hacts⟩
      obtain ⟨hbacked, hsound⟩ := h.backed.performs (covered_codeBlind _) h.sound hacts
      obtain ⟨-, es, hgrown, -⟩ := hacts.undone (A := fun _ => false) h.sound (by
        intro _ _ _ hf
        cases hf)
      have hr₁ : r ∈ s₁.journal.validRevisions := by rw [hgrown.validRevisions]; exact hr
      obtain ⟨s', hs', hcovered, hbacked', hsound', -⟩ := hbacked.revert hsound hr₁ hid
      exact ⟨s', hs', hsound', hcovered, hbacked'⟩
    rcases @Schedule.gas_charged T keccak sched s h.sound.valid contractGas addr x y _ _ rfl rfl
      h.covered.recreates with ⟨err, hgas⟩ | ⟨gas, s₁, hgas, hcharged⟩
    · rw [hgas]
      exact hback ⟨[], .refl⟩
    · rw [hgas]
      exact hback hcharged.performs
  | op op => exact h.op hallowed hroom
  | snapshot =>
    exact ⟨_, rfl, snapshot_sound h.sound, h.covered, h.backed.snapshot h.covered⟩
  | revertToSnapshot id =>
    obtain ⟨hid, r, hr, rfl⟩ := hallowed
    obtain ⟨s', hs', hcovered, hbacked, hsound, -⟩ := h.backed.revert h.sound hr hid
    exact ⟨s', hs', hsound, hcovered, hbacked⟩

/-- **A run.** -/
theorem Solvent.run {sched : Schedule} (evs : List Event) :
    ∀ {s : StateDB T}, Solvent keccak sched revid s →
      AllEvents keccak sched (fun ev s => ev.Allowed keccak revid s) s evs →
      AllEvents keccak sched (fun ev s => s.refund.toNat + ev.most sched < 2 ^ 64) s evs →
      ∃ s', runEvents keccak sched s evs = .ok s' ∧ Solvent keccak sched revid s' := by
  induction evs with
  | nil =>
    intro s h _ _
    exact ⟨s, rfl, h⟩
  | cons ev evs ih =>
    intro s h hallowed hroom
    obtain ⟨s₁, hcall, h₁⟩ := h.step hallowed.1 hroom.1
    obtain ⟨s', hrun, h'⟩ := ih h₁ (hallowed.2 s₁ hcall) (hroom.2 s₁ hcall)
    refine ⟨s', ?_, h'⟩
    rw [runEvents, hcall]
    exact hrun

/-- The cleared slots, by the getters. -/
def observedCleared (keccak : Bytes → Hash) (s : StateDB T) : Set (Address × Hash) :=
  {p | (s.GetCommittedState keccak p.1 p.2).1 ≠ zeroHash ∧ (s.GetState keccak p.1 p.2).1 = zeroHash}

theorem observedCleared_eq (s : StateDB T) :
    observedCleared keccak s = clearedSlots (s.view keccak) := by
  ext ⟨addr, slot⟩
  show _ ∧ _ ↔ _ ∧ _
  rw [(getCommittedState_loads s addr slot).1, (getState_loads s addr slot).1]

/-- **The refund counter is never overdrawn.** A transaction begins with the counter at
zero and no slot changed. Under every schedule with net metering, whatever storage writes,
refunds, snapshots and reverts it makes, each step succeeds, and the counter is at least
the clearing refund times the number of cleared slots, as long as the counter keeps below
its 64 bits. -/
theorem refund_covers_cleared (sched : Schedule) (s : StateDB T) (hs : Reachable keccak s)
    (hrefund : s.refund = 0)
    (hclean : ∀ addr slot,
      (s.GetState keccak addr slot).1 = (s.GetCommittedState keccak addr slot).1)
    (evs : List Event)
    (hallowed : AllEvents keccak sched
      (fun ev t => ev.Allowed keccak s.journal.nextRevisionId t) s evs)
    (hroom : AllEvents keccak sched (fun ev t => t.refund.toNat + ev.most sched < 2 ^ 64) s evs) :
    ∃ s', runEvents keccak sched s evs = .ok s' ∧ (observedCleared keccak s').Finite ∧
      sched.net.clearRefund.toNat * (observedCleared keccak s').ncard ≤ s'.refund.toNat := by
  have hempty : clearedSlots (s.view keccak) = ∅ := by
    rw [← observedCleared_eq, Set.eq_empty_iff_forall_notMem]
    rintro ⟨addr, slot⟩ ⟨hne, heq⟩
    exact hne ((hclean addr slot).symm.trans heq)
  have hstart : Solvent keccak sched s.journal.nextRevisionId s := by
    refine ⟨hs.sound, ⟨?_, ?_⟩, hs.sound.backed⟩
    · rw [hempty]
      exact Set.finite_empty
    · rw [hempty, Set.ncard_empty, Nat.mul_zero]
      exact Nat.zero_le _
  obtain ⟨s', hrun, h'⟩ := hstart.run evs hallowed hroom
  refine ⟨s', hrun, ?_⟩
  rw [observedCleared_eq]
  exact h'.covered

/-! ## Where the counter wraps -/

/-- A database with one contract, whose slots are all one. -/
def slotsReader : Reader where
  Account addr :=
    if addr = ripemd then .ok (some ⟨1, 0, Trie.emptyRootHash, zeroHash⟩) else .ok none
  Storage addr _ := if addr = ripemd then .ok (bytes32 1) else .ok zeroHash
  Code _ := []

/-- The state at the beginning of a transaction. -/
def slotsState : StateDB Unit := newWithReader zeroHash () slotsReader

theorem slotsState_clean (addr : Address) (slot : Hash) :
    (slotsState.GetState keccak addr slot).1 = (slotsState.GetCommittedState keccak addr slot).1 := by
  rw [(getState_loads slotsState addr slot).1, (getCommittedState_loads slotsState addr slot).1,
    currentSlot, committedSlot, view_account]
  have hfind : slotsState.find keccak addr =
      (slotsState.base.account addr).map fun acct => newObject keccak (some acct) := rfl
  rw [hfind]
  cases slotsState.base.account addr with
  | none => rfl
  | some acct => rfl

/-- Clearing a slot. -/
theorem refund_covers_cleared_one :
    ∃ s', runEvents keccak256 .eip3529 slotsState [.sstore 100000 ripemd 0 0] = .ok s' ∧
      (observedCleared keccak256 s').Finite ∧
      Schedule.eip3529.net.clearRefund.toNat * (observedCleared keccak256 s').ncard ≤
        s'.refund.toNat := by
  refine refund_covers_cleared .eip3529 slotsState (.new _ _ _) rfl slotsState_clean _ ?_ ?_
  · refine ⟨?_, fun _ _ => trivial⟩
    intro hnone
    have hsome : ((slotsState.view keccak256).account ripemd).isSome = true := by
      decide +kernel
    rw [hnone] at hsome
    cases hsome
  · exact ⟨by decide, fun _ _ => trivial⟩

theorem runEvents_append {sched : Schedule} (evs evs' : List Event) :
    ∀ {s s₁ : StateDB T}, runEvents keccak sched s evs = .ok s₁ →
      runEvents keccak sched s (evs ++ evs') = runEvents keccak sched s₁ evs' := by
  induction evs with
  | nil =>
    intro s s₁ h
    cases h
    rfl
  | cons ev evs ih =>
    intro s s₁ h
    rw [runEvents] at h
    rw [cons_append, runEvents]
    split at h
    · cases h
    next s₂ hcall =>
    exact ih h

/-- Many additions to the counter, modulo 2^64. -/
theorem runEvents_addRefunds {sched : Schedule} (gas : UInt64) (n : Nat) : ∀ s : StateDB T,
    ∃ s', runEvents keccak sched s (replicate n (.op (.addRefund gas))) = .ok s' ∧
      s'.view keccak =
        { s.view keccak with refund := s.refund + UInt64.ofNat (n * gas.toNat) } := by
  induction n with
  | zero =>
    intro s
    refine ⟨s, rfl, ?_⟩
    have hzero : s.refund + UInt64.ofNat (0 * gas.toNat) = s.refund := by
      rw [Nat.zero_mul]
      exact UInt64.add_zero _
    rw [hzero]
    rfl
  | succ n ih =>
    intro s
    obtain ⟨s', hrun, hview⟩ := ih (s.AddRefund gas)
    refine ⟨s', hrun, ?_⟩
    have hsum : s.refund + gas + UInt64.ofNat (n * gas.toNat) =
        s.refund + UInt64.ofNat ((n + 1) * gas.toNat) := by
      rw [Nat.add_mul, Nat.one_mul, UInt64.ofNat_add, UInt64.ofNat_toNat, UInt64.add_assoc,
        UInt64.add_comm gas]
    rw [hview, ← hsum]
    rfl

/-- A counter that does not cover the refund to be taken back. -/
theorem netGas_panics {p : NetSchedule} {current : Hash}
    (hr : Recreates (committedSlot (s.view keccak) addr slot) current value)
    (hlt : s.refund < p.clearRefund) :
    netGas keccak p addr slot current value s = .error (.refund p.clearRefund s.refund) := by
  obtain ⟨horiginal, hcurrent, hvalue⟩ := hr
  have hne : current ≠ value := fun h => hvalue (h.symm.trans hcurrent)
  rw [netGas, if_neg hne]
  obtain ⟨hcommitted, hloads⟩ := @getCommittedState_loads T keccak s addr slot
  generalize s.GetCommittedState keccak addr slot = r at hcommitted hloads
  obtain ⟨original, s₁⟩ := r
  simp only at hcommitted hloads
  rw [← hcommitted] at horiginal
  have hdirty : original ≠ current := fun h => horiginal (h.trans hcurrent)
  have hrefund : s₁.refund = s.refund := congrArg View.refund hloads.view
  simp only
  rw [if_neg hdirty, netClear, if_pos horiginal, if_pos hcurrent, StateDB.SubRefund,
    if_pos (by rw [hrefund]; exact hlt), hrefund]

/-- Two slots are cleared, 768614336404564 contracts destruct themselves, and the counter is
past 2^64: writing one of the slots again panics. -/
theorem refund_counter_wraps : runEvents keccak256 .eip2200 slotsState
      ([.sstore 100000 ripemd 0 0, .sstore 100000 ripemd 1 0] ++
        (replicate 768614336404564 (.op (.addRefund Params.SelfdestructRefundGas)) ++
          [.sstore 100000 ripemd 0 1])) = .error (.refund 15000 14384) := by
  obtain ⟨s₁, hfirst, hcurrent, hcommitted, hrefund⟩ : ∃ s, runEvents keccak256 .eip2200 slotsState
      [.sstore 100000 ripemd 0 0, .sstore 100000 ripemd 1 0] = .ok s ∧
        (s.GetState keccak256 ripemd (bytes32 0)).1 = zeroHash ∧
        (s.GetCommittedState keccak256 ripemd (bytes32 0)).1 = bytes32 1 ∧ s.refund = 30000 :=
    of_checked (by decide +kernel)
  obtain ⟨s₂, hmany, hview⟩ := @runEvents_addRefunds Unit keccak256 .eip2200
    Params.SelfdestructRefundGas 768614336404564 s₁
  rw [runEvents_append _ _ hfirst, runEvents_append _ _ hmany]
  rw [(getState_loads s₁ _ _).1] at hcurrent
  rw [(getCommittedState_loads s₁ _ _).1] at hcommitted
  have haccount : (s₂.view keccak256).account = (s₁.view keccak256).account := by
    rw [hview]
  -- the last write finds the slot cleared and the counter too low
  obtain ⟨hcurrent₂, hloads⟩ := @getState_loads Unit keccak256 s₂ ripemd (bytes32 0)
  have hcurrent₂' : (s₂.GetState keccak256 ripemd (bytes32 0)).1 = zeroHash := by
    rw [hcurrent₂, currentSlot_congr haccount, hcurrent]
  have hrefund₂ : (s₂.GetState keccak256 ripemd (bytes32 0)).2.refund = 14384 := by
    have hlast : s₂.refund = s₁.refund + UInt64.ofNat (768614336404564 *
        Params.SelfdestructRefundGas.toNat) := congrArg View.refund hview
    rw [hrefund] at hlast
    exact (congrArg View.refund hloads.view).trans (hlast.trans (by decide +kernel))
  have hcommitted₂ : committedSlot
      ((s₂.GetState keccak256 ripemd (bytes32 0)).2.view keccak256) ripemd
      (bytes32 0) = bytes32 1 := by
    rw [hloads.view, committedSlot_congr haccount, hcommitted]
  have hone : bytes32 1 ≠ zeroHash := by decide +kernel
  have hpanic : netGas keccak256 scheduleEIP2200 ripemd (bytes32 0) zeroHash
      (bytes32 1) (s₂.GetState keccak256 ripemd (bytes32 0)).2 =
      .error (.refund 15000 14384) := by
    rw [netGas_panics (by rw [hcommitted₂]; exact ⟨hone, rfl, hone⟩)
      (by rw [hrefund₂]; decide), hrefund₂]
    rfl
  have hgas : Schedule.eip2200.gas keccak256 100000 ripemd 0 1 s₂ =
      .error (.refund 15000 14384) := by
    show gasSStoreEIP2200 keccak256 100000 ripemd 0 1 s₂ = _
    rw [gasSStoreEIP2200, if_neg (by decide)]
    simp only
    rw [hcurrent₂', hpanic]
  rw [runEvents, Event.call, hgas]

end GoEthereum.Vm

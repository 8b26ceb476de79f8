import GoEthereum.Vm.Params
import GoEthereum.State.Act

/-!
# The gas of storage writes

The gas functions of `SSTORE`. They read the slot and charge for the change, and before the
write is made they already change the refund counter and, from EIP-2929 on, the access
list.
-/

namespace GoEthereum.Vm

open State

variable {T : Type}

/-- `Bytes32` of a `uint256.Int`. -/
def bytes32 (x : Word) : Hash := bigToHash x.toNat

/-- The amounts of a schedule with net metering. -/
structure NetSchedule where
  noopGas : UInt64
  initGas : UInt64
  cleanGas : UInt64
  dirtyGas : UInt64
  clearRefund : UInt64
  resetClearRefund : UInt64
  resetRefund : UInt64

section

variable (keccak : Bytes → Hash)

/-- Clause 2.2.1: a slot that was not zero is recreated or deleted. -/
def netClear (p : NetSchedule) (original current value : Hash) (s : StateDB T) :
    Except Panic (StateDB T) :=
  if original ≠ zeroHash then
    if current = zeroHash then s.SubRefund p.clearRefund
    else if value = zeroHash then .ok (s.AddRefund p.clearRefund)
    else .ok s
  else .ok s

/-- Clause 2.2.2: a slot gets its original value back. -/
def netReset (p : NetSchedule) (original value : Hash) (s : StateDB T) : StateDB T :=
  if original = value then
    if original = zeroHash then s.AddRefund p.resetClearRefund
    else s.AddRefund p.resetRefund
  else s

/-- The clauses of net metering, for a slot with the value `current`. -/
def netGas (p : NetSchedule) (addr : Address) (slot current value : Hash) (s : StateDB T) :
    Except Panic (UInt64 × StateDB T) :=
  if current = value then .ok (p.noopGas, s)
  else
    let (original, s) := s.GetCommittedState keccak addr slot
    if original = current then
      if original = zeroHash then .ok (p.initGas, s)
      else .ok (p.cleanGas, if value = zeroHash then s.AddRefund p.clearRefund else s)
    else
      match netClear p original current value s with
      | .error panic => .error panic
      | .ok s => .ok (p.dirtyGas, netReset p original value s)

/-- The amounts of EIP-1283. -/
def scheduleEIP1283 : NetSchedule where
  noopGas := Params.NetSstoreNoopGas
  initGas := Params.NetSstoreInitGas
  cleanGas := Params.NetSstoreCleanGas
  dirtyGas := Params.NetSstoreDirtyGas
  clearRefund := Params.NetSstoreClearRefund
  resetClearRefund := Params.NetSstoreResetClearRefund
  resetRefund := Params.NetSstoreResetRefund

/-- The amounts of EIP-2200. -/
def scheduleEIP2200 : NetSchedule where
  noopGas := Params.SloadGasEIP2200
  initGas := Params.SstoreSetGasEIP2200
  cleanGas := Params.SstoreResetGasEIP2200
  dirtyGas := Params.SloadGasEIP2200
  clearRefund := Params.SstoreClearsScheduleRefundEIP2200
  resetClearRefund := Params.SstoreSetGasEIP2200 - Params.SloadGasEIP2200
  resetRefund := Params.SstoreResetGasEIP2200 - Params.SloadGasEIP2200

/-- The amounts of `makeGasSStoreFunc`. -/
def scheduleEIP2929 (clearingRefund : UInt64) : NetSchedule where
  noopGas := Params.WarmStorageReadCostEIP2929
  initGas := Params.SstoreSetGasEIP2200
  cleanGas := Params.SstoreResetGasEIP2200 - Params.ColdSloadCostEIP2929
  dirtyGas := Params.WarmStorageReadCostEIP2929
  clearRefund := clearingRefund
  resetClearRefund := Params.SstoreSetGasEIP2200 - Params.WarmStorageReadCostEIP2929
  resetRefund := (Params.SstoreResetGasEIP2200 - Params.ColdSloadCostEIP2929) -
    Params.WarmStorageReadCostEIP2929

def gasSStore (rules : Params.Rules) (addr : Address) (x y : Word) (s : StateDB T) :
    Except Panic (Except Err UInt64 × StateDB T) :=
  let (current, s) := s.GetState keccak addr (bytes32 x)
  -- the legacy rules: Petersburg took EIP-1283 out again
  if rules.isPetersburg ∨ ¬ rules.isConstantinople then
    if current = zeroHash ∧ y ≠ 0 then .ok (.ok Params.SstoreSetGas, s)
    else if current ≠ zeroHash ∧ y = 0 then
      .ok (.ok Params.SstoreClearGas, s.AddRefund Params.SstoreRefundGas)
    else .ok (.ok Params.SstoreResetGas, s)
  else
    match netGas keccak scheduleEIP1283 addr (bytes32 x) current (bytes32 y) s with
    | .error panic => .error panic
    | .ok (gas, s) => .ok (.ok gas, s)

def gasSStoreEIP2200 (contractGas : UInt64) (addr : Address) (x y : Word) (s : StateDB T) :
    Except Panic (Except Err UInt64 × StateDB T) :=
  if contractGas ≤ Params.SstoreSentryGasEIP2200 then .ok (.error .reentrancySentry, s)
  else
    let (current, s) := s.GetState keccak addr (bytes32 x)
    match netGas keccak scheduleEIP2200 addr (bytes32 x) current (bytes32 y) s with
    | .error panic => .error panic
    | .ok (gas, s) => .ok (.ok gas, s)

/-- The check of the access list: the cost of a cold slot, which is warm from then on. -/
def coldSlot (addr : Address) (slot : Hash) (s : StateDB T) : Except Panic (UInt64 × StateDB T) :=
  match s.SlotInAccessList addr slot with
  | .error panic => .error panic
  | .ok (_, slotPresent) =>
    if slotPresent then .ok (0, s)
    else
      match s.AddSlotToAccessList addr slot with
      | .error panic => .error panic
      | .ok s => .ok (Params.ColdSloadCostEIP2929, s)

def makeGasSStoreFunc (clearingRefund : UInt64) (contractGas : UInt64) (addr : Address)
    (x y : Word) (s : StateDB T) : Except Panic (Except Err UInt64 × StateDB T) :=
  if contractGas ≤ Params.SstoreSentryGasEIP2200 then .ok (.error .reentrancySentry, s)
  else
    let slot := bytes32 x
    let (current, s) := s.GetState keccak addr slot
    match coldSlot addr slot s with
    | .error panic => .error panic
    | .ok (cost, s) =>
      match netGas keccak (scheduleEIP2929 clearingRefund) addr slot current (bytes32 y) s with
      | .error panic => .error panic
      | .ok (gas, s) => .ok (.ok (cost + gas), s)

def gasSStoreEIP2929 (contractGas : UInt64) (addr : Address) (x y : Word) (s : StateDB T) :
    Except Panic (Except Err UInt64 × StateDB T) :=
  makeGasSStoreFunc keccak Params.SstoreClearsScheduleRefundEIP2200 contractGas addr x y s

def gasSStoreEIP3529 (contractGas : UInt64) (addr : Address) (x y : Word) (s : StateDB T) :
    Except Panic (Except Err UInt64 × StateDB T) :=
  makeGasSStoreFunc keccak Params.SstoreClearsScheduleRefundEIP3529 contractGas addr x y s

end

variable {keccak : Bytes → Hash}

/-! ## What they do to the state -/

/-- The committed value of a slot. -/
def committedSlot (v : View) (addr : Address) (slot : Hash) : Hash :=
  (v.account addr).elim zeroHash (·.committed slot)

/-- The current value of a slot. -/
def currentSlot (v : View) (addr : Address) (slot : Hash) : Hash :=
  (v.account addr).elim zeroHash (·.state slot)

/-- The refund counter after the clauses of net metering. -/
def netRefund (p : NetSchedule) (original current value : Hash) (refund : UInt64) : UInt64 :=
  if current = value then refund
  else if original = current then
    if original ≠ zeroHash ∧ value = zeroHash then refund + p.clearRefund else refund
  else
    let refund :=
      if original ≠ zeroHash then
        if current = zeroHash then refund - p.clearRefund
        else if value = zeroHash then refund + p.clearRefund
        else refund
      else refund
    if original = value then
      if original = zeroHash then refund + p.resetClearRefund else refund + p.resetRefund
    else refund

/-- The change takes a refund back: it recreates a slot that had been cleared. -/
def Recreates (original current value : Hash) : Prop :=
  original ≠ zeroHash ∧ current = zeroHash ∧ value ≠ zeroHash

theorem getState_loads (s : StateDB T) (addr : Address) (slot : Hash) :
    (s.GetState keccak addr slot).1 = currentSlot (s.view keccak) addr slot ∧
      Loads keccak s (s.GetState keccak addr slot).2 := by
  obtain ⟨hanswer, hloads⟩ := @Getter.call_spec T keccak s (.state addr slot)
  exact ⟨Answer.hash.inj (Except.ok.inj hanswer), hloads _ rfl⟩

theorem getCommittedState_loads (s : StateDB T) (addr : Address) (slot : Hash) :
    (s.GetCommittedState keccak addr slot).1 = committedSlot (s.view keccak) addr slot ∧
      Loads keccak s (s.GetCommittedState keccak addr slot).2 := by
  obtain ⟨hanswer, hloads⟩ := @Getter.call_spec T keccak s (.committedState addr slot)
  exact ⟨Answer.hash.inj (Except.ok.inj hanswer), hloads _ rfl⟩

/-- A state that performs refund changes only, to a last value of the counter. -/
def Refunds (keccak : Bytes → Hash) (s : StateDB T) (refund : UInt64) (s' : StateDB T) : Prop :=
  (∃ acts, Performs keccak s acts s') ∧ s'.view keccak = { s.view keccak with refund := refund }

theorem Refunds.ofLoads {s s' : StateDB T} (h : Loads keccak s s') :
    Refunds keccak s s.refund s' := ⟨⟨[], .ofLoads h⟩, h.view⟩

theorem Refunds.refund_eq {s s' : StateDB T} {refund : UInt64} (h : Refunds keccak s refund s') :
    s'.refund = refund := congrArg View.refund h.2

theorem Refunds.trans {s s₁ s₂ : StateDB T} {refund refund' : UInt64}
    (h : Refunds keccak s refund s₁) (h' : Refunds keccak s₁ refund' s₂) :
    Refunds keccak s refund' s₂ := by
  obtain ⟨⟨acts, hacts⟩, hview⟩ := h
  obtain ⟨⟨acts', hacts'⟩, hview'⟩ := h'
  refine ⟨⟨acts ++ acts', hacts.trans hacts'⟩, ?_⟩
  rw [hview', hview]

theorem refunds_addRefund (s : StateDB T) (gas : UInt64) :
    Refunds keccak s (s.refund + gas) (s.AddRefund gas) :=
  ⟨⟨_, .ofActed (acted_refund s _)⟩, rfl⟩

theorem refunds_subRefund {s : StateDB T} {gas : UInt64} (h : gas ≤ s.refund) :
    ∃ s', s.SubRefund gas = .ok s' ∧ Refunds keccak s (s.refund - gas) s' := by
  rw [StateDB.SubRefund, if_neg (UInt64.not_lt.mpr h)]
  exact ⟨_, rfl, ⟨_, .ofActed (acted_refund s _)⟩, rfl⟩

theorem netClear_refunds {p : NetSchedule} {original current value : Hash} {s : StateDB T}
    (hne : current ≠ value)
    (h : Recreates original current value → p.clearRefund ≤ s.refund) :
    ∃ s', netClear p original current value s = .ok s' ∧ Refunds keccak s
      (if original ≠ zeroHash then
        if current = zeroHash then s.refund - p.clearRefund
        else if value = zeroHash then s.refund + p.clearRefund
        else s.refund
      else s.refund) s' := by
  rw [netClear]
  by_cases horiginal : original ≠ zeroHash
  · rw [if_pos horiginal, if_pos horiginal]
    by_cases hcurrent : current = zeroHash
    · rw [if_pos hcurrent, if_pos hcurrent]
      refine refunds_subRefund (h ⟨horiginal, hcurrent, ?_⟩)
      intro hvalue
      exact hne (hcurrent.trans hvalue.symm)
    rw [if_neg hcurrent, if_neg hcurrent]
    by_cases hvalue : value = zeroHash
    · rw [if_pos hvalue, if_pos hvalue]
      exact ⟨_, rfl, refunds_addRefund s _⟩
    · rw [if_neg hvalue, if_neg hvalue]
      exact ⟨s, rfl, .ofLoads (.refl s)⟩
  · rw [if_neg horiginal, if_neg horiginal]
    exact ⟨s, rfl, .ofLoads (.refl s)⟩

theorem netReset_refunds (p : NetSchedule) (original value : Hash) (s : StateDB T) :
    Refunds keccak s (if original = value then
        if original = zeroHash then s.refund + p.resetClearRefund else s.refund + p.resetRefund
      else s.refund) (netReset p original value s) := by
  rw [netReset]
  split
  · split
    · exact refunds_addRefund s _
    · exact refunds_addRefund s _
  · exact .ofLoads (.refl s)

/-- **Net metering** changes the refund counter and nothing else, and does not overdraw it
if the counter covers the refund that is taken back. -/
theorem netGas_refunds {p : NetSchedule} {addr : Address} {slot current value : Hash}
    {s : StateDB T}
    (h : Recreates (committedSlot (s.view keccak) addr slot) current value →
      p.clearRefund ≤ s.refund) :
    ∃ gas s', netGas keccak p addr slot current value s = .ok (gas, s') ∧ Refunds keccak s
        (netRefund p (committedSlot (s.view keccak) addr slot) current value s.refund) s' := by
  rw [netGas, netRefund]
  by_cases hne : current = value
  · rw [if_pos hne, if_pos hne]
    exact ⟨_, s, rfl, .ofLoads (.refl s)⟩
  rw [if_neg hne, if_neg hne]
  obtain ⟨hvalue, hloads⟩ := @getCommittedState_loads T keccak s addr slot
  generalize s.GetCommittedState keccak addr slot = r at hvalue hloads
  obtain ⟨original, s₁⟩ := r
  simp only at hvalue hloads
  rw [← hvalue] at h ⊢
  have hrefund : s₁.refund = s.refund := congrArg View.refund hloads.view
  have hfirst := Refunds.ofLoads hloads
  simp only
  by_cases hclean : original = current
  · rw [if_pos hclean, if_pos hclean]
    by_cases hzero : original = zeroHash
    · rw [if_pos hzero, if_neg fun hboth => hboth.1 hzero]
      exact ⟨_, s₁, rfl, hfirst⟩
    rw [if_neg hzero]
    refine ⟨_, _, rfl, ?_⟩
    by_cases hdelete : value = zeroHash
    · rw [if_pos hdelete, if_pos ⟨hzero, hdelete⟩, ← hrefund]
      exact hfirst.trans (refunds_addRefund s₁ _)
    · rw [if_neg hdelete, if_neg fun hboth => hdelete hboth.2]
      exact hfirst
  · rw [if_neg hclean, if_neg hclean]
    obtain ⟨s₂, hclear, hrefunds⟩ := @netClear_refunds T keccak p original current value s₁ hne
      (fun hr => by rw [hrefund]; exact h hr)
    rw [hclear]
    refine ⟨_, _, rfl, ?_⟩
    have hlast := @netReset_refunds T keccak p original value s₂
    rw [hrefunds.refund_eq, hrefund] at hlast
    exact (hfirst.trans hrefunds).trans hlast

end GoEthereum.Vm

import GoEthereum.Consensus.Batch

/-!
# Fees

`CalcBaseFee` of `eip1559.go`: how far the base fee moves, and in which direction.
-/

namespace GoEthereum.Consensus

variable {config : ChainConfig} {parent parent' : Header} {fee fee' : Nat}

/-! ## The base fee -/

/-- What is added to or taken from the base fee, before it is rounded up. -/
def baseFeeDelta (delta fee target : Nat) : Nat :=
  delta * fee / target / baseFeeChangeDenominator

/-- The base fee after a block with this target that used this much gas. -/
def nextBaseFee (target used fee : Nat) : Nat :=
  if target < used then fee + max 1 (baseFeeDelta (used - target) fee target)
  else fee - baseFeeDelta (target - used) fee target

/-- A parent with a base fee and a gas limit as headers have them. -/
structure PostLondon (config : ChainConfig) (parent : Header) (fee : Nat) : Prop where
  london : config.isLondon parent.number = true
  baseFee : parent.baseFee = some fee
  limit : 5000 ≤ parent.gasLimit
  used : parent.gasUsed ≤ parent.gasLimit

theorem PostLondon.calcBaseFee (h : PostLondon config parent fee) :
    calcBaseFee config parent =
      .ok (nextBaseFee (parent.gasLimit / elasticityMultiplier) parent.gasUsed fee) := by
  have htarget : parent.gasLimit / elasticityMultiplier ≠ 0 := by
    have := h.limit
    unfold elasticityMultiplier
    omega
  unfold Consensus.calcBaseFee nextBaseFee
  simp only [h.london, h.baseFee, Bool.not_true, Bool.false_eq_true, if_false, if_neg htarget]
  rcases Nat.lt_trichotomy parent.gasUsed (parent.gasLimit / elasticityMultiplier) with
    hlt | heq | hgt
  · rw [if_neg hlt.ne, if_neg hlt.not_gt, if_neg hlt.not_gt]
    rfl
  · rw [if_pos heq, if_neg heq.not_gt, heq, Nat.sub_self]
    unfold baseFeeDelta
    rw [Nat.zero_mul, Nat.zero_div, Nat.zero_div, Nat.sub_zero]
  · rw [if_neg hgt.ne', if_pos hgt, if_pos hgt]
    show Except.ok _ = Except.ok (fee + max 1 (_ / baseFeeChangeDenominator))
    congr 1
    split
    · rename_i hzero
      rw [max_eq_left hzero.le]
    · rename_i hpos
      rw [max_eq_right (not_lt.mp hpos)]

theorem baseFeeDelta_mono (target : Nat) {delta delta' : Nat} (hdelta : delta ≤ delta')
    (hfee : fee ≤ fee') : baseFeeDelta delta fee target ≤ baseFeeDelta delta' fee' target := by
  unfold baseFeeDelta
  gcongr

/-- A share of the fee of at most the whole. -/
theorem baseFeeDelta_le (fee : Nat) {delta target : Nat} (h : delta ≤ target) :
    baseFeeDelta delta fee target ≤ fee / 8 := by
  refine Nat.div_le_div_right (Nat.div_le_of_le_mul ?_)
  exact Nat.mul_le_mul_right fee h

/-- Where gas is left over, a greater fee stays greater. -/
theorem sub_baseFeeDelta_mono {delta target : Nat} (h : delta ≤ target) (hfee : fee ≤ fee') :
    fee - baseFeeDelta delta fee target ≤ fee' - baseFeeDelta delta fee' target := by
  obtain ⟨d, rfl⟩ := Nat.exists_eq_add_of_le hfee
  have hstep : delta * (fee + d) / target ≤ delta * fee / target + d := by
    rcases Nat.eq_zero_or_pos target with rfl | hpos
    · simp
    calc delta * (fee + d) / target ≤ (delta * fee + target * d) / target := by
          gcongr
          rw [Nat.mul_add]
          gcongr
      _ = delta * fee / target + d := Nat.add_mul_div_left _ _ hpos
  have hle : baseFeeDelta delta fee target ≤ fee / 8 := baseFeeDelta_le fee h
  unfold baseFeeDelta baseFeeChangeDenominator at *
  omega

theorem nextBaseFee_mono {target used used' : Nat} (hused : used ≤ used') (hfee : fee ≤ fee') :
    nextBaseFee target used fee ≤ nextBaseFee target used' fee' := by
  unfold nextBaseFee
  split_ifs with h h'
  · have := baseFeeDelta_mono target (Nat.sub_le_sub_right hused target) hfee
    omega
  · omega
  · omega
  · refine (sub_baseFeeDelta_mono (Nat.sub_le target used) hfee).trans ?_
    exact Nat.sub_le_sub_left (baseFeeDelta_mono target (Nat.sub_le_sub_left hused target) le_rfl) fee'

/-- The base fee after a block: above the parent's exactly when the block used more gas than
the target, monotone in the gas used and in the parent's base fee. It falls by at most an eighth
and rises by at most an eighth, or by one; only a block that is full up to an odd gas limit can
raise it by an eighth of what the target's share of the fee adds to the fee. -/
theorem calcBaseFee_bounds (config : ChainConfig) (parent : Header) (fee : Nat)
    (h : PostLondon config parent fee) : ∃ next, calcBaseFee config parent = .ok next ∧
      (fee < next ↔ parent.gasLimit / 2 < parent.gasUsed) ∧
      fee - next ≤ fee / 8 ∧
      next - fee ≤ max 1 ((fee + fee / (parent.gasLimit / 2)) / 8) ∧
      (parent.gasUsed ≤ 2 * (parent.gasLimit / 2) → next - fee ≤ max 1 (fee / 8)) ∧
      (∀ parent' fee' next', PostLondon config parent' fee' →
        parent'.gasLimit = parent.gasLimit → parent.gasUsed ≤ parent'.gasUsed → fee ≤ fee' →
        calcBaseFee config parent' = .ok next' → next ≤ next') := by
  have hlimit := h.limit
  have hused := h.used
  have htarget : elasticityMultiplier = 2 := rfl
  refine ⟨_, h.calcBaseFee, ?_, ?_, ?_, ?_, ?_⟩
  all_goals rw [htarget]
  all_goals generalize ht : parent.gasLimit / 2 = target
  · unfold nextBaseFee
    split_ifs <;> omega
  · have := baseFeeDelta_le fee (Nat.sub_le target parent.gasUsed)
    unfold nextBaseFee
    split_ifs <;> omega
  · -- a full block uses the target twice, and one unit more when the limit is odd
    have hdelta : parent.gasUsed - target ≤ target + 1 := by omega
    have hrise : baseFeeDelta (parent.gasUsed - target) fee target ≤ (fee + fee / target) / 8 := by
      refine (baseFeeDelta_mono target hdelta le_rfl).trans (Nat.div_le_div_right ?_)
      rw [Nat.add_one_mul, Nat.mul_add_div (by omega)]
    unfold nextBaseFee
    split_ifs <;> omega
  · intro hfull
    have := baseFeeDelta_le fee (show parent.gasUsed - target ≤ target by omega)
    unfold nextBaseFee
    split_ifs <;> omega
  · intro parent' fee' next' h' hlimit' hused' hfee hnext
    rw [h'.calcBaseFee, hlimit', htarget, ht] at hnext
    cases hnext
    exact nextBaseFee_mono hused' hfee

/-- A block that is full up to an odd gas limit. -/
def oddParent : Header :=
  { mergedGenesis with gasLimit := 5001, gasUsed := 5001, baseFee := some 20000 }

theorem postLondon_oddParent : PostLondon mergedConfig oddParent 20000 :=
  ⟨rfl, rfl, by decide, le_rfl⟩

/-- It raises the base fee by more than an eighth. -/
theorem calcBaseFee_above_eighth : PostLondon mergedConfig oddParent 20000 ∧
    calcBaseFee mergedConfig oddParent = .ok 22501 ∧ max 1 (20000 / 8) < 22501 - 20000 :=
  ⟨postLondon_oddParent, by decide +kernel, by decide⟩

theorem calcBaseFee_bounds_odd : ∃ next, calcBaseFee mergedConfig oddParent = .ok next ∧
    next - 20000 ≤ max 1 ((20000 + 20000 / 2500) / 8) := by
  obtain ⟨next, hnext, -, -, hrise, -⟩ :=
    calcBaseFee_bounds mergedConfig oddParent 20000 postLondon_oddParent
  exact ⟨next, hnext, hrise⟩

end GoEthereum.Consensus

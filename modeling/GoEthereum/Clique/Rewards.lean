import GoEthereum.Clique.Engine
import GoEthereum.Lib.Keccak

/-!
# What a Clique block mints

The reward that `Finalize` pays against the one that was announced. The
announcement in force is the last well-formed `RewardSetUpdated` event for the
signer; its weights are integers of 256 bits. The engine keeps their low 64 bits
and adds them in 64 bits, so that the share it pays a receiver is the one
computed from the truncated weights. The main result says for which
announcements and states the block mints one ether, split as announced.
-/

namespace GoEthereum.Clique

open List

variable {a signer : Address} {m : Address → Option RewardSnapshot} {cr : Crypto} {c c' : Engine}
  {h : Header} {receivers : List Address} {ws : List Nat} {log : Log} {s : StateDB}

/-! ## The announcement in force -/

/-- A well-formed event: the signer it is for, its receivers and weights. -/
def rewardEvent (cr : Crypto) (log : Log) : Option (Address × List Address × List Nat) :=
  match log.topics with
  | topic0 :: topic1 :: _ =>
    if topic0 = rewardSetUpdatedSig cr then
      (unpackRewardSet log.data).map fun rw => (topicAddress topic1, rw)
    else none
  | _ => none

/-- The last event for `signer` among the logs. -/
def announced (cr : Crypto) (signer : Address) : List Log → Option (List Address × List Nat)
  | [] => none
  | log :: logs =>
    match announced cr signer logs with
    | some rw => some rw
    | none =>
      match rewardEvent cr log with
      | some (a, rw) => if a = signer then some rw else none
      | none => none

/-- The snapshot the engine makes of an announcement. -/
def snapshotOf (signer : Address) (rw : List Address × List Nat) : RewardSnapshot where
  signer := signer
  receivers := rw.1
  weights := rw.2.map weightUint64

/-- A log that is no event leaves the engine as it is; an event replaces the
snapshot of its signer. -/
theorem processLog_ok (hm : c.rewardSnapshots = some m) (h : processLog cr c log = .ok c') :
    c' = { c with
      rewardSnapshots := some (fun a =>
        match rewardEvent cr log with
        | some (b, rw) => if a = b then some (snapshotOf b rw) else m a
        | none => m a) } := by
  obtain ⟨config, signatures, proposals, signer, snaps⟩ := c
  simp only at hm
  subst hm
  unfold processLog at h
  unfold rewardEvent
  match ht : log.topics with
  | [] =>
    simp only [ht, Except.ok.injEq] at h
    exact h.symm
  | [t0] =>
    simp only [ht] at h
    split at h
    · simpa using h.symm
    · simp at h
  | t0 :: t1 :: ts =>
    simp only [ht] at h
    by_cases h0 : t0 = rewardSetUpdatedSig cr
    · simp only [h0, ne_eq, not_true_eq_false, if_false] at h
      cases hu : unpackRewardSet log.data with
      | none =>
        simp only [hu, Except.ok.injEq] at h
        simp [h0, ← h]
      | some rw =>
        simp only [hu, Engine.setRewardSnapshot, Except.ok.injEq] at h
        simp [h0, ← h, snapshotOf]
    · simp only [ne_eq, h0, not_false_eq_true, if_true, Except.ok.injEq] at h
      simp [h0, ← h]

theorem processLogs_ok : ∀ {logs : List Log} {c c' : Engine}
    {m : Address → Option RewardSnapshot}, c.rewardSnapshots = some m →
    processLogs cr c logs = .ok c' →
    c' = { c with
      rewardSnapshots := some (fun a =>
        match announced cr a logs with
        | some rw => some (snapshotOf a rw)
        | none => m a) }
  | [], c, c', m, hm, h => by
    simp only [processLogs, Except.ok.injEq] at h
    subst h
    simp only [announced]
    cases c
    simp_all
  | log :: logs, c, c', m, hm, h => by
    simp only [processLogs] at h
    cases hl : processLog cr c log with
    | error p => simp [hl] at h
    | ok c₁ =>
      simp only [hl] at h
      have h₁ := processLog_ok hm hl
      subst h₁
      rw [processLogs_ok rfl h]
      simp only [announced]
      congr 2
      funext a
      cases announced cr a logs with
      | some rw => rfl
      | none =>
        cases rewardEvent cr log with
        | none => rfl
        | some e =>
          obtain ⟨b, rw⟩ := e
          by_cases hab : a = b
          · subst hab
            simp
          · simp [hab, Ne.symm hab]

/-- An engine with an allocated map takes every event. -/
theorem processRewardEvents_of_event {rw : List Address × List Nat}
    (hev : rewardEvent cr log = some (a, rw)) (hm : c.rewardSnapshots = some m) :
    ∃ c₁, processRewardEvents cr c [⟨[log]⟩] = .ok c₁ := by
  unfold rewardEvent at hev
  split at hev
  · rename_i t0 t1 ts ht
    split at hev
    · rename_i h0
      rw [Option.map_eq_some_iff] at hev
      obtain ⟨rw', hu, _⟩ := hev
      simp [processRewardEvents, processLogs, processLog, ht, h0, hu, Engine.setRewardSnapshot, hm]
    · cases hev
  · cases hev

/-! ## The arithmetic of the split -/

/-- One ether in wei. -/
def ether : Nat := 10 ^ 18

/-- The share of receiver `i`, from the announced weights as integers. -/
def announcedShare (weights : List Nat) (i : Nat) : Nat :=
  ether * weights.getD i 0 / weights.sum

/-- The same share when the weight and the sum are cut to 64 bits. -/
def truncatedShare (weights : List Nat) (i : Nat) : Nat :=
  ether * (weights.getD i 0 % 2 ^ 64) / (weights.sum % 2 ^ 64)

theorem part_toNat (w sum : BitVec 64) : (part w sum).toNat = ether * w.toNat / sum.toNat := by
  have hw := w.isLt
  have hs := sum.isLt
  unfold part total ether
  rw [BitVec.toNat_udiv, BitVec.toNat_mul, BitVec.toNat_setWidth,
    BitVec.toNat_setWidth, BitVec.toNat_ofNat]
  rw [Nat.mod_eq_of_lt (a := w.toNat) (by omega), Nat.mod_eq_of_lt (a := sum.toNat) (by omega),
    Nat.mod_eq_of_lt (a := 10 ^ 18) (by norm_num),
    Nat.mod_eq_of_lt (a := 10 ^ 18 * w.toNat) (by omega)]

theorem foldl_weight_toNat (ws : List Nat) (acc : BitVec 64) :
    ((ws.map weightUint64).foldl (fun sum w => sum + w) acc).toNat =
      (acc.toNat + ws.sum) % 2 ^ 64 := by
  induction ws generalizing acc with
  | nil =>
    have := acc.isLt
    simp only [map_nil, foldl_nil, sum_nil, Nat.add_zero]
    exact (Nat.mod_eq_of_lt this).symm
  | cons w ws ih =>
    simp only [map_cons, foldl_cons, sum_cons]
    rw [ih, BitVec.toNat_add, weightUint64, BitVec.toNat_ofNat]
    omega

/-- The 64-bit sum is the integer sum modulo `2 ^ 64`. -/
theorem weightSum_toNat (ws : List Nat) :
    (weightSum (ws.map weightUint64)).toNat = ws.sum % 2 ^ 64 := by
  rw [weightSum, foldl_weight_toNat]
  simp

theorem part_weightUint64 (ws : List Nat) (i : Nat) :
    (part (weightUint64 (ws.getD i 0)) (weightSum (ws.map weightUint64))).toNat =
      truncatedShare ws i := by
  rw [part_toNat, weightSum_toNat, weightUint64, BitVec.toNat_ofNat, truncatedShare]

/-- What `Finalize` pays receiver `i` under an announcement. -/
def paidPart (ws : List Nat) (i : Nat) : Word :=
  part (weightUint64 (ws.getD i 0)) (weightSum (ws.map weightUint64))

/-- The loop over the receivers: it pays everybody, or panics when a weight is
missing. -/
theorem receiverCredits_eq (ws : List Nat) : ∀ (rs : List Address) (i : Nat),
    receiverCredits (ws.map weightUint64) (weightSum (ws.map weightUint64)) i rs =
      if rs.length = 0 ∨ i + rs.length ≤ ws.length then
        .ok (rs.zipIdx i |>.map fun e => (e.1, paidPart ws e.2))
      else .error .indexOutOfRange
  | [], i => by simp [receiverCredits]
  | r :: rs, i => by
    simp only [receiverCredits, getElem?_map]
    by_cases hi : i < ws.length
    · have hw : ws[i]? = some (ws.getD i 0) := by
        rw [getD_eq_getElem?_getD, getElem?_eq_getElem hi]
        rfl
      rw [hw]
      simp only [Option.map_some, receiverCredits_eq ws rs (i + 1), length_cons]
      by_cases hrs : rs.length = 0 ∨ i + 1 + rs.length ≤ ws.length
      · rw [if_pos hrs, if_pos (by omega)]
        simp [paidPart]
      · rw [if_neg hrs, if_neg (by omega)]
    · have hw : ws[i]? = none := by
        rw [getElem?_eq_none_iff]
        omega
      rw [hw]
      simp only [Option.map_none, length_cons]
      rw [if_neg (by omega)]

/-- The receivers with their shares. -/
def sharesOf (share : Nat → Nat) (receivers : List Address) : List (Address × Nat) :=
  receivers.zipIdx.map fun e => (e.1, share e.2)

/-- The parts paid to the receivers, in wei. -/
def payments (receivers : List Address) (weights : List Nat) : List (Address × Nat) :=
  sharesOf (truncatedShare weights) receivers

def paid (payments : List (Address × Nat)) : Nat := (payments.map Prod.snd).sum

/-- A list of `AddBalance` calls in wei. -/
def inWei (credits : List (Address × Word)) : List (Address × Nat) :=
  credits.map fun e => (e.1, e.2.toNat)

theorem inWei_paidParts (receivers : List Address) (ws : List Nat) :
    inWei (receivers.zipIdx.map fun e => (e.1, paidPart ws e.2)) = payments receivers ws := by
  simp only [inWei, payments, sharesOf, map_map]
  apply map_congr_left
  intro e _
  simp only [Function.comp_apply, Prod.mk.injEq, true_and]
  exact part_weightUint64 ws e.2

theorem foldl_sub_toNat (credits : List (Address × Word)) (acc : Word)
    (h : paid (inWei credits) ≤ acc.toNat) :
    (credits.foldl (fun remain e => remain - e.2) acc).toNat =
      acc.toNat - paid (inWei credits) := by
  induction credits generalizing acc with
  | nil => simp [inWei, paid]
  | cons e credits ih =>
    simp only [inWei, paid, map_cons, sum_cons] at h ih ⊢
    have hacc := acc.isLt
    have he := e.2.isLt
    have hsub : (acc - e.2).toNat = acc.toNat - e.2.toNat := by
      rw [BitVec.toNat_sub]
      omega
    rw [foldl_cons, ih _ (by omega), hsub]
    omega

theorem total_toNat : total.toNat = ether := by
  simp [total, ether]

/-- As long as the parts do not exceed the ether, `remain` is what is left. -/
theorem remain_toNat {credits : List (Address × Word)} (h : paid (inWei credits) ≤ ether) :
    (remain credits).toNat = ether - paid (inWei credits) := by
  rw [remain, foldl_sub_toNat credits total (by rw [total_toNat]; exact h), total_toNat]

/-! ## Balances -/

theorem balance_put (s : StateDB) (a b : Address) (acct : Account) :
    (s.put a acct).balance b = if b = a then acct.balance else s.balance b := by
  simp only [StateDB.balance, StateDB.put]
  split <;> rename_i h <;> split at h <;> simp_all

theorem balance_addBalance (s : StateDB) (a b : Address) (x : Word) :
    (s.addBalance a x).balance b = if b = a then s.balance a + x else s.balance b := by
  unfold StateDB.addBalance
  cases ha : s.accounts a with
  | none =>
    simp only [balance_put, StateDB.newAccount]
    simp [StateDB.balance, ha]
  | some acct =>
    have hbal : s.balance a = acct.balance := by simp [StateDB.balance, ha]
    by_cases hx : x = 0
    · subst hx
      simp only [if_true]
      split
      · rw [balance_put]
        split <;> simp_all
      · split <;> simp_all
    · simp only [hx, if_false, balance_put, hbal]

/-- What a list of payments sends to one address. -/
def creditedTo (payments : List (Address × Nat)) (a : Address) : Nat :=
  (payments.map fun e => if a = e.1 then e.2 else 0).sum

theorem balance_addBalances (s : StateDB) (credits : List (Address × Word)) (a : Address) :
    ((s.addBalances credits).balance a).toNat =
      ((s.balance a).toNat + creditedTo (inWei credits) a) % 2 ^ 256 := by
  induction credits generalizing s with
  | nil =>
    have := (s.balance a).isLt
    simp only [StateDB.addBalances, foldl_nil, creditedTo, inWei, map_nil, sum_nil, Nat.add_zero]
    exact (Nat.mod_eq_of_lt this).symm
  | cons e credits ih =>
    have hstep := ih (s.addBalance e.1 e.2)
    simp only [StateDB.addBalances, creditedTo, inWei, foldl_cons, map_cons, sum_cons] at hstep ⊢
    rw [hstep, balance_addBalance]
    by_cases ha : a = e.1
    · subst ha
      simp only [if_true, BitVec.toNat_add]
      omega
    · simp only [ha, if_false, Nat.zero_add]

def totalBalance (s : StateDB) : Nat := ∑ a : Address, (s.balance a).toNat

theorem sum_creditedTo (payments : List (Address × Nat)) :
    ∑ a : Address, creditedTo payments a = paid payments := by
  induction payments with
  | nil => simp [creditedTo, paid]
  | cons e payments ih =>
    simp only [creditedTo, paid, map_cons, sum_cons] at ih ⊢
    rw [Finset.sum_add_distrib, ih]
    simp

/-- The sum of all balances grows by what is paid exactly when no balance
overflows. -/
theorem totalBalance_addBalances_iff (s : StateDB) (credits : List (Address × Word)) :
    totalBalance (s.addBalances credits) = totalBalance s + paid (inWei credits) ↔
      ∀ a, (s.balance a).toNat + creditedTo (inWei credits) a < 2 ^ 256 := by
  unfold totalBalance
  rw [← sum_creditedTo, ← Finset.sum_add_distrib]
  simp only [balance_addBalances]
  rw [Finset.sum_eq_sum_iff_of_le (fun a _ => Nat.mod_le _ _)]
  simp only [Finset.mem_univ, forall_true_left]
  apply forall_congr'
  intro a
  exact Nat.mod_eq_iff_lt (by norm_num)

/-! ## The split `Finalize` makes -/

section

variable (share : Nat → Nat) (receivers : List Address)

theorem map_snd_sharesOf :
    (sharesOf share receivers).map Prod.snd = (range receivers.length).map share := by
  have h : (sharesOf share receivers).map Prod.snd = (receivers.zipIdx.map Prod.snd).map share := by
    simp only [sharesOf, map_map]
    rfl
  rw [h, zipIdx_map_snd, range_eq_range']

theorem length_sharesOf :
    (sharesOf share receivers).length = receivers.length := by
  simp [sharesOf]

theorem sharesOf_eq_zip : sharesOf share receivers =
      receivers.zip ((range receivers.length).map share) := by
  rw [← map_snd_sharesOf]
  have hfst : (sharesOf share receivers).map Prod.fst = receivers := by
    have h : (sharesOf share receivers).map Prod.fst = receivers.zipIdx.map Prod.fst := by
      simp only [sharesOf, map_map]
      rfl
    rw [h, zipIdx_map_fst]
  conv_lhs => rw [← zip_unzip (sharesOf share receivers)]
  rw [unzip_eq_map, hfst]

end

theorem sum_range_getD_le (ws : List Nat) (n : Nat) :
    ((range n).map fun i => ws.getD i 0).sum ≤ ws.sum := by
  induction ws generalizing n with
  | nil => simp
  | cons w ws ih =>
    cases n with
    | zero => simp
    | succ n =>
      simp only [range_succ_eq_map, map_cons, map_map, sum_cons]
      exact Nat.add_le_add_left (ih n) w

theorem sum_map_div_le (l : List Nat) (f : Nat → Nat) (d : Nat) :
    (l.map fun i => f i / d).sum * d ≤ (l.map f).sum := by
  induction l with
  | nil => simp
  | cons i l ih =>
    simp only [map_cons, sum_cons, Nat.add_mul]
    have := Nat.div_mul_le_self (f i) d
    omega

/-- The announced shares of the receivers never exceed the ether. -/
theorem sum_announcedShare_le (ws : List Nat) (n : Nat) :
    ((range n).map (announcedShare ws)).sum ≤ ether := by
  rcases Nat.eq_zero_or_pos ws.sum with hz | hpos
  · have : (range n).map (announcedShare ws) = (range n).map fun _ => 0 := by
      apply map_congr_left
      intro i _
      rw [announcedShare, hz, Nat.div_zero]
    rw [this]
    simp
  · apply Nat.le_of_mul_le_mul_right _ hpos
    calc ((range n).map (announcedShare ws)).sum * ws.sum
        ≤ ((range n).map fun i => ether * ws.getD i 0).sum :=
          sum_map_div_le (range n) (fun i => ether * ws.getD i 0) ws.sum
      _ = ether * ((range n).map fun i => ws.getD i 0).sum := by
        rw [sum_map_mul_left]
      _ ≤ ether * ws.sum := Nat.mul_le_mul_left _ (sum_range_getD_le ws n)

/-- Weights whose sum fits in 64 bits are paid as announced. -/
theorem truncatedShare_of_sum_lt (h : ws.sum < 2 ^ 64) (i : Nat) :
    truncatedShare ws i = announcedShare ws i := by
  have hi : ws.getD i 0 ≤ ws.sum := by
    by_cases hi : i < ws.length
    · rw [getD_eq_getElem?_getD, getElem?_eq_getElem hi]
      exact le_sum_of_mem (getElem_mem hi)
    · simp [getD_eq_getElem?_getD, getElem?_eq_none (Nat.le_of_not_lt hi)]
  rw [truncatedShare, announcedShare, Nat.mod_eq_of_lt h, Nat.mod_eq_of_lt (hi.trans_lt h)]

/-- The reward set a block of `signer` is paid by, after the logs were processed
by an engine with the snapshots `m`: receivers and weights as integers. -/
def rewardSet (cr : Crypto) (m : Address → Option RewardSnapshot) (logs : List Log)
    (signer : Address) : List Address × List Nat :=
  match announced cr signer logs with
  | some rw => rw
  | none =>
    match m signer with
    | some snap => (snap.receivers, snap.weights.map BitVec.toNat)
    | none => ([], [])

theorem map_weightUint64_toNat (ws : List (BitVec 64)) :
    (ws.map BitVec.toNat).map weightUint64 = ws := by
  simp [weightUint64, Function.comp_def]

/-- The parts of the receivers as `AddBalance` calls. -/
def partCredits (receivers : List Address) (ws : List Nat) : List (Address × Word) :=
  receivers.zipIdx.map fun e => (e.1, paidPart ws e.2)

/-- The final `AddBalance` of a non-zero remainder. -/
def restCredits (signer : Address) (rest : Word) : List (Address × Word) :=
  if rest = 0 then [] else [(signer, rest)]

/-- All `AddBalance` calls of a block of `signer`. -/
def setCredits (signer : Address) (receivers : List Address) (ws : List Nat) :
    List (Address × Word) :=
  partCredits receivers ws ++ restCredits signer (remain (partCredits receivers ws))

/-- A run of the receivers' loop for a snapshot with the announced weights. -/
theorem snapshot_credits (snap : RewardSnapshot)
    (hsnap : c.rewardSnapshots.bind (fun m => m signer) = some snap)
    (hr : snap.receivers = receivers) (hw : snap.weights = ws.map weightUint64) :
    rewardCredits c signer = if receivers.length = 0 ∨ receivers.length ≤ ws.length then
        .ok (setCredits signer receivers ws)
      else .error .indexOutOfRange := by
  have hloop := receiverCredits_eq ws receivers 0
  rw [Nat.zero_add] at hloop
  unfold rewardCredits
  rw [hsnap]
  simp only [hr, hw, hloop]
  by_cases hlen : receivers.length = 0 ∨ receivers.length ≤ ws.length
  · rw [if_pos hlen, if_pos hlen]
    simp only [setCredits, restCredits]
    by_cases hz : remain (partCredits receivers ws) = 0
    · rw [if_pos hz, append_nil]
      exact if_pos hz
    · rw [if_neg hz]
      exact if_neg hz
  · rw [if_neg hlen, if_neg hlen]

/-- The calls `Finalize` makes after the events were processed. -/
theorem rewardCredits_eq {logs : List Log} (signer : Address)
    (hm : c.rewardSnapshots = some (fun a => match announced cr a logs with | some rw => some (snapshotOf a rw) | none => m a)) :
    rewardCredits c signer = let R := (rewardSet cr m logs signer).1
      let W := (rewardSet cr m logs signer).2
      if R.length = 0 ∨ R.length ≤ W.length then
        .ok (setCredits signer R W)
      else .error .indexOutOfRange := by
  unfold rewardSet
  cases ha : announced cr signer logs with
  | some rw =>
    apply snapshot_credits (snapshotOf signer rw)
    · rw [hm]
      simp only [Option.bind_some, ha]
    · rfl
    · rfl
  | none =>
    cases hs : m signer with
    | some snap =>
      apply snapshot_credits snap
      · rw [hm]
        simp only [Option.bind_some, ha, hs]
      · rfl
      · exact (map_weightUint64_toNat snap.weights).symm
    | none =>
      have hnone : c.rewardSnapshots.bind (fun m => m signer) = none := by
        rw [hm]
        simp only [Option.bind_some, ha, hs]
      unfold rewardCredits
      rw [hnone]
      simp [setCredits, partCredits, restCredits, remain, total]

/-! ## When the block reward is as announced -/

theorem inWei_append (cs ds : List (Address × Word)) :
    inWei (cs ++ ds) = inWei cs ++ inWei ds := map_append

theorem paid_append (ps qs : List (Address × Nat)) : paid (ps ++ qs) = paid ps + paid qs := by
  simp [paid]

theorem creditedTo_append (ps qs : List (Address × Nat)) (a : Address) :
    creditedTo (ps ++ qs) a = creditedTo ps a + creditedTo qs a := by
  simp [creditedTo]

theorem creditedTo_le_paid (ps : List (Address × Nat)) (a : Address) :
    creditedTo ps a ≤ paid ps := by
  apply sum_le_sum
  intro e _
  split <;> simp

/-- The remainder as a payment; a zero remainder is not paid. -/
def restPayment (signer : Address) (rest : Nat) : List (Address × Nat) :=
  if rest = 0 then [] else [(signer, rest)]

theorem inWei_restCredits (signer : Address) (rest : Word) :
    inWei (restCredits signer rest) = restPayment signer rest.toNat := by
  unfold restCredits restPayment
  by_cases h : rest = 0
  · subst h
    rfl
  have hne : rest.toNat ≠ 0 := by
    intro hz
    apply h
    apply BitVec.eq_of_toNat_eq
    rw [hz]
    rfl
  rw [if_neg h, if_neg hne]
  rfl

theorem paid_restPayment (signer : Address) (rest : Nat) :
    paid (restPayment signer rest) = rest := by
  unfold restPayment
  split <;> simp_all [paid]

theorem creditedTo_restPayment (signer a : Address) (rest : Nat) :
    creditedTo (restPayment signer rest) a = if a = signer then rest else 0 := by
  unfold restPayment
  split <;> simp_all [creditedTo]

/-- Everything a block of `signer` pays: the receivers' parts and what is left
of the ether. -/
def rewardPayments (signer : Address) (receivers : List Address) (ws : List Nat) :
    List (Address × Nat) :=
  payments receivers ws ++ restPayment signer (ether - paid (payments receivers ws))

/-- The block's payments are the announced ones: the balances grow by one ether
in all, no receiver gets more than the share computed from the announced weights,
and the signer gets what remains. -/
structure MintsAsAnnounced (s s' : StateDB) (signer : Address) (receivers : List Address)
    (ws : List Nat) (credits : List (Address × Word)) : Prop where
  minted : totalBalance s' = totalBalance s + ether
  split : ∃ (parts : List Nat) (rest : Nat), parts.length = receivers.length ∧
    (∀ i < receivers.length, parts.getD i 0 ≤ announcedShare ws i) ∧
    parts.sum + rest = ether ∧
    inWei credits = receivers.zip parts ++ restPayment signer rest

/-- The announcements and states for which that happens. There is a weight for
every receiver, cutting the weights and their sum to 64 bits gives nobody a larger
share, and no balance passes `2 ^ 256`. -/
structure SplitsExactly (s : StateDB) (signer : Address) (receivers : List Address)
    (ws : List Nat) : Prop where
  weights : receivers.length = 0 ∨ receivers.length ≤ ws.length
  shares : ∀ i < receivers.length, truncatedShare ws i ≤ announcedShare ws i
  balances : ∀ a, (s.balance a).toNat + creditedTo (rewardPayments signer receivers ws) a < 2 ^ 256

theorem paid_payments_le (h : SplitsExactly s signer receivers ws) :
    paid (payments receivers ws) ≤ ether := by
  rw [paid, payments, map_snd_sharesOf]
  refine le_trans ?_ (sum_announcedShare_le ws receivers.length)
  apply sum_le_sum
  intro i hi
  exact h.shares i (mem_range.mp hi)

/-- The calls for a reward set in wei, when the parts fit into the ether. -/
theorem inWei_credits (signer : Address) (h : paid (payments receivers ws) ≤ ether) :
    inWei (setCredits signer receivers ws) = rewardPayments signer receivers ws := by
  have hparts : inWei (partCredits receivers ws) = payments receivers ws :=
    inWei_paidParts receivers ws
  rw [setCredits, inWei_append, inWei_restCredits, remain_toNat (by rw [hparts]; exact h), hparts]
  rfl

theorem MintsAsAnnounced.of_splitsExactly (h : SplitsExactly s signer receivers ws) :
    MintsAsAnnounced s (s.addBalances (setCredits signer receivers ws)) signer receivers ws
      (setCredits signer receivers ws) := by
  have hle := paid_payments_le h
  have hwei := inWei_credits signer hle
  have hpaid : paid (rewardPayments signer receivers ws) = ether := by
    rw [rewardPayments, paid_append, paid_restPayment]
    omega
  constructor
  · have hiff := totalBalance_addBalances_iff s (setCredits signer receivers ws)
    rw [hwei, hpaid] at hiff
    exact hiff.mpr h.balances
  · refine ⟨(range receivers.length).map (truncatedShare ws),
      ether - paid (payments receivers ws), ?_, ?_, ?_, ?_⟩
    · simp
    · intro i hi
      simpa [getD_eq_getElem?_getD, hi] using h.shares i hi
    · rw [← map_snd_sharesOf]
      exact Nat.add_sub_cancel' hle
    · rw [hwei, rewardPayments, payments, sharesOf_eq_zip]

/-- Payments that are the announced ones are the truncated ones. -/
theorem MintsAsAnnounced.parts_eq {s' : StateDB} {rest : Word}
    (h : MintsAsAnnounced s s' signer receivers ws (partCredits receivers ws ++ restCredits signer rest)) :
    (∀ i < receivers.length, truncatedShare ws i ≤ announcedShare ws i) ∧
      paid (payments receivers ws) + rest.toNat = ether := by
  obtain ⟨parts, rest', hlen, hshare, hsum, heq⟩ := h.split
  have hparts : inWei (partCredits receivers ws) = payments receivers ws :=
    inWei_paidParts receivers ws
  rw [inWei_append, hparts, inWei_restCredits] at heq
  -- both sides start with one payment for each receiver
  obtain ⟨hzip, hrest⟩ := append_inj heq (by
    rw [payments, length_sharesOf, length_zip, hlen, Nat.min_self])
  rw [payments, sharesOf_eq_zip] at hzip
  have htrunc : (range receivers.length).map (truncatedShare ws) = parts := by
    have hsnd := congrArg (map Prod.snd) hzip
    rwa [map_snd_zip (by simp), map_snd_zip (by omega)] at hsnd
  constructor
  · intro i hi
    have := hshare i hi
    rw [← htrunc] at this
    simpa [getD_eq_getElem?_getD, hi] using this
  · have hval := congrArg paid hrest
    rw [paid_restPayment, paid_restPayment] at hval
    rw [hval, paid, payments, map_snd_sharesOf, htrunc]
    exact hsum

theorem MintsAsAnnounced.splitsExactly (hw : receivers.length = 0 ∨ receivers.length ≤ ws.length)
    (h : MintsAsAnnounced s (s.addBalances (setCredits signer receivers ws)) signer receivers ws (setCredits signer receivers ws)) :
    SplitsExactly s signer receivers ws := by
  obtain ⟨hshares, hpaid⟩ := h.parts_eq
  have hle : paid (payments receivers ws) ≤ ether := by omega
  refine ⟨hw, hshares, ?_⟩
  have hiff := totalBalance_addBalances_iff s (setCredits signer receivers ws)
  rw [inWei_credits signer hle] at hiff
  apply hiff.mp
  rw [h.minted, rewardPayments, paid_append, paid_restPayment]
  omega

theorem author_rewardSnapshots {e : Option Err} (ha : author cr c h = .ok (a, e, c')) :
    c'.rewardSnapshots = c.rewardSnapshots := by
  unfold author at ha
  cases hr : ecrecover cr h c.signatures with
  | error p => simp [hr, Except.map] at ha
  | ok r =>
    simp only [hr, Except.map, Except.ok.injEq, Prod.mk.injEq] at ha
    rw [← ha.2.2]

theorem finalize_of_author {e : Option Err} (s : StateDB) (ha : author cr c h = .ok (signer, e, c')) :
    finalize cr c h s =
      (rewardCredits c' signer).map fun credits => (s.addBalances credits, c') := by
  simp only [finalize, ha]
  cases rewardCredits c' signer <;> rfl

/-- A block mints exactly one ether, split as announced, when and only when its
header lets the engine name a signer and the reward set in force splits exactly. -/
theorem finalize_mints_iff (cr : Crypto) (c c₁ : Engine)
    (m : Address → Option RewardSnapshot) (receipts : List Receipt) (h : Header)
    (s : StateDB) (hm : c.rewardSnapshots = some m)
    (hp : processRewardEvents cr c receipts = .ok c₁) :
    let set := rewardSet cr m (receipts.flatMap Receipt.logs)
    (∃ signer e c₂ credits s', author cr c₁ h = .ok (signer, e, c₂) ∧
        rewardCredits c₂ signer = .ok credits ∧ finalize cr c₁ h s = .ok (s', c₂) ∧
        MintsAsAnnounced s s' signer (set signer).1 (set signer).2 credits) ↔
      ∃ signer e c₂, author cr c₁ h = .ok (signer, e, c₂) ∧
        SplitsExactly s signer (set signer).1 (set signer).2 := by
  intro set
  have hc₁ := processLogs_ok hm hp
  have hcredits : ∀ signer e c₂, author cr c₁ h = .ok (signer, e, c₂) → rewardCredits c₂ signer =
        if (set signer).1.length = 0 ∨ (set signer).1.length ≤ (set signer).2.length then
          .ok (setCredits signer (set signer).1 (set signer).2)
        else .error .indexOutOfRange := by
    intro signer e c₂ ha
    exact rewardCredits_eq signer (by rw [author_rewardSnapshots ha, hc₁])
  constructor
  · rintro ⟨signer, e, c₂, credits, s', ha, hr, hf, hmint⟩
    refine ⟨signer, e, c₂, ha, ?_⟩
    rw [finalize_of_author s ha, hr] at hf
    simp only [Except.map, Except.ok.injEq, Prod.mk.injEq, and_true] at hf
    subst hf
    rw [hcredits signer e c₂ ha] at hr
    by_cases hw : (set signer).1.length = 0 ∨ (set signer).1.length ≤ (set signer).2.length
    · rw [if_pos hw, Except.ok.injEq] at hr
      subst hr
      exact hmint.splitsExactly hw
    · rw [if_neg hw] at hr
      cases hr
  · rintro ⟨signer, e, c₂, ha, hsplit⟩
    have hr := hcredits signer e c₂ ha
    rw [if_pos hsplit.weights] at hr
    refine ⟨signer, e, c₂, _, _, ha, hr, ?_, MintsAsAnnounced.of_splitsExactly hsplit⟩
    rw [finalize_of_author s ha, hr]
    rfl

/-! ## A sealed block

A key, two sealed headers of its chain and the hash and recovery functions on
them, for the concrete inputs below. -/

def keyAddress : Address := bigToAddress 0x7e5f4552091a69125d5dfcb7b8c2659029395bdf

def keyPubkey : Bytes :=
  [0x04] ++ beBytes 32 0x79be667ef9dcbbac55a06295ce870b07029bfcdb2dce28d959f2815b16f81798 ++
    beBytes 32 0x483ada7726a3c4655da4fbfc0e1108a8fd17b448a68554199c47d08ffb10d4b8

/-- `types.EmptyRootHash`. -/
def emptyRootHash : Hash :=
  bigToHash 0x56e81f171bcc55a6ff8345e692c0f86e5b48e01b996cadc001622fb5e363b421

/-- `types.EmptyUncleHash`. -/
def emptyUncleHash : Hash :=
  bigToHash 0x1dcc4de8dec75d7aab85b567b6ccd41ad312451b948a7413f0a142fd40d49347

/-- `types.EmptyCodeHash`. -/
def emptyCodeHash : Hash :=
  bigToHash 0xc5d2460186f7233c927e7db2dcc703c0e500b653ca82273b7bfad8045d85a470

/-- Block 1 with room for its seal; the state holds one ether at the zero
address. -/
def header1 : Header where
  parentHash :=
    bigToHash 0xd509164f3a36292acd62641e390f432a7a53a0e40765b51c400c06eabff0b021
  uncleHash := emptyUncleHash
  coinbase := zeroAddress
  root :=
    bigToHash 0x6bfa97078f6b1842210a40e5238eb606322da628d404123a634fe2280067daa0
  txHash := emptyRootHash
  receiptHash := emptyRootHash
  bloom := replicate 256 0
  difficulty := 2
  number := 1
  gasLimit := 30000000
  gasUsed := 0
  time := 5
  extra := replicate (extraVanity + extraSeal) 0
  mixDigest := zeroHash
  nonce := replicate 8 0
  baseFee := none
  withdrawalsHash := none
  blobGasUsed := none
  excessBlobGas := none
  parentBeaconRoot := none
  requestsHash := none

def seal1 : Bytes :=
  beBytes 32 0x9377c312145a5afb911bf9e8c067bcf6094c533603687850df502b61290bbf5e ++
    beBytes 32 0x3fc1e22de732f5e413f950c98065d26e5a618c61797152af9aacb1b90f490dad ++ [0x00]

def sealed1 : Header := { header1 with extra := replicate extraVanity 0 ++ seal1 }

/-- Block 2, on top of the sealed block 1. -/
def header2 : Header :=
  { header1 with
    parentHash :=
      bigToHash 0x73b89fa404aeec188371d014fb6f1de78fb762961c5cc639ff841545e3abde9d
    root :=
      bigToHash 0x2ab493e5c5c640553fccd8cc97678ca81fe3fa9a70302c04e9af9d9182c417a3
    number := 2
    time := 10 }

def seal2 : Bytes :=
  beBytes 32 0x0fd109be4a9e07d64737926c7e2d8d7afa63ec5991d126b8abe7919d3c62a7be ++
    beBytes 32 0x7c7a1ce7e052d630ab7ef793b06f5f82c2197ddb995f1bafc2110d4e9a6b7e67 ++ [0x01]

def sealed2 : Header := { header2 with extra := replicate extraVanity 0 ++ seal2 }

/-- Keccak-256, and a recovery that knows the seals made with the key. -/
def fieldCrypto : Crypto where
  keccak := Keccak.keccak256
  ecrecover := fun hash sig =>
    if hash = bigToHash 0xbe3e0fd04759024d636c463cd86f418888f63c3f7d257d23bb4cc11702fce6b2 ∧
        sig = seal1 then some keyPubkey
    else if hash = bigToHash 0xd1951df45dafde7e45918f5005bb0b2f2c7743c5f2f8cd5c8b78511dddc8d0e3 ∧
        sig = seal2 then some keyPubkey
    else none

theorem recoverSigner_sealed1 : recoverSigner fieldCrypto sealed1 = .ok (keyAddress, none) := by
  decide +kernel

theorem recoverSigner_sealed2 : recoverSigner fieldCrypto sealed2 = .ok (keyAddress, none) := by
  decide +kernel

/-- A first look at a sealed header recovers its signer and caches it. -/
theorem author_of_empty_cache (hc : c.signatures = []) (hr : recoverSigner cr h = .ok (a, none)) :
    author cr c h = .ok (a, none, { c with signatures := [(h.hash cr, a)] }) := by
  simp [author, ecrecover, hc, hr, SigLRU.get, SigLRU.add, Except.map, inmemorySignatures]

/-- An engine like `New` makes it, except that its reward map is allocated. -/
def allocated : Engine :=
  { new { period := 5, epoch := 30000 } with rewardSnapshots := some fun _ => none }

def emptyState : StateDB where
  emptyRoot := emptyRootHash
  emptyCode := emptyCodeHash
  accounts := fun _ => none
  dirties := fun _ => false

/-- The event that shares the rewards of the key between two receivers. -/
def rewardLog (w₁ w₂ : Nat) : Log where
  topics := [rewardSetUpdatedSig fieldCrypto, bytesToHash keyAddress.1]
  data := [64, 160, 2, 0xa1, 0xa2, 2, w₁, w₂].flatMap (beBytes 32)

def twoReceivers : List Address := [bigToAddress 0xa1, bigToAddress 0xa2]

theorem rewardEvent_rewardLog :
    rewardEvent fieldCrypto (rewardLog 1 3) = some (keyAddress, twoReceivers, [1, 3]) := by
  decide +kernel

/-- One event, then a sealed header of the signer it is for. -/
theorem author_after_event {rw : List Address × List Nat} (hc : c.signatures = [])
    (hm : c.rewardSnapshots = some fun _ => none) (hev : rewardEvent cr log = some (a, rw))
    (hr : recoverSigner cr h = .ok (a, none)) :
    ∃ c₁ c₂, processRewardEvents cr c [⟨[log]⟩] = .ok c₁ ∧ author cr c₁ h = .ok (a, none, c₂) ∧
      rewardSet cr (fun _ => none) ([⟨[log]⟩].flatMap Receipt.logs) a = rw ∧
      rewardCredits c₂ a =
        if rw.1.length = 0 ∨ rw.1.length ≤ rw.2.length then .ok (setCredits a rw.1 rw.2)
        else .error .indexOutOfRange := by
  obtain ⟨c₁, hp⟩ := processRewardEvents_of_event hev hm
  have hc₁ := processLogs_ok hm hp
  have hset : rewardSet cr (fun _ => none) ([⟨[log]⟩].flatMap Receipt.logs) a = rw := by
    simp [rewardSet, announced, hev]
  have ha := author_of_empty_cache (c := c₁) (by rw [hc₁]; exact hc) hr
  have hcredits := rewardCredits_eq a (by rw [author_rewardSnapshots ha, hc₁])
  simp only [hset] at hcredits
  exact ⟨c₁, _, hp, ha, hset, hcredits⟩

/-- Both shares of a small announcement are paid. -/
theorem finalize_mints_iff_sealed1 :
    ∃ c₁ : Engine, allocated.rewardSnapshots = some (fun _ => none) ∧
      processRewardEvents fieldCrypto allocated [⟨[rewardLog 1 3]⟩] = .ok c₁ ∧
      ∃ signer e c₂ credits s', author fieldCrypto c₁ sealed1 = .ok (signer, e, c₂) ∧
        rewardCredits c₂ signer = .ok credits ∧
        finalize fieldCrypto c₁ sealed1 emptyState = .ok (s', c₂) ∧
        MintsAsAnnounced emptyState s' signer twoReceivers [1, 3] credits := by
  obtain ⟨c₁, c₂, hp, ha, hset, -⟩ :=
    author_after_event (c := allocated) rfl rfl rewardEvent_rewardLog recoverSigner_sealed1
  have hsplit : SplitsExactly emptyState keyAddress twoReceivers [1, 3] := by
    refine ⟨by decide, ?_, ?_⟩
    · intro i _
      exact (truncatedShare_of_sum_lt (by decide) i).le
    · intro a
      have hle := creditedTo_le_paid (rewardPayments keyAddress twoReceivers [1, 3]) a
      have hpaid : paid (rewardPayments keyAddress twoReceivers [1, 3]) = 10 ^ 18 := by
        decide +kernel
      have hzero : (emptyState.balance a).toNat = 0 := rfl
      omega
  have hiff := finalize_mints_iff fieldCrypto allocated c₁ (fun _ => none)
    [⟨[rewardLog 1 3]⟩] sealed1 emptyState rfl hp
  obtain ⟨signer, e, c₂', credits, s', ha', hr, hf, hmint⟩ :=
    hiff.mpr ⟨keyAddress, none, c₂, ha, by rw [hset]; exact hsplit⟩
  obtain ⟨rfl, -, rfl⟩ : keyAddress = signer ∧ none = e ∧ c₂ = c₂' := by
    simpa [ha] using ha'
  rw [hset] at hmint
  exact ⟨c₁, rfl, hp, keyAddress, e, c₂, credits, s', ha', hr, hf, hmint⟩

/-- Weights whose sum is `2 ^ 64 + 1`: the engine divides by `1` and pays the
first receiver `2 ^ 63` ether. -/
theorem finalize_overpays : ∃ c₁ : Engine, allocated.rewardSnapshots = some (fun _ => none) ∧
      processRewardEvents fieldCrypto allocated [⟨[rewardLog (2 ^ 63) (2 ^ 63 + 1)]⟩] = .ok c₁ ∧
      ¬ ∃ signer e c₂ credits s', author fieldCrypto c₁ sealed1 = .ok (signer, e, c₂) ∧
        rewardCredits c₂ signer = .ok credits ∧
        finalize fieldCrypto c₁ sealed1 emptyState = .ok (s', c₂) ∧
        MintsAsAnnounced emptyState s' signer twoReceivers [2 ^ 63, 2 ^ 63 + 1]
          credits := by
  have hev : rewardEvent fieldCrypto (rewardLog (2 ^ 63) (2 ^ 63 + 1)) =
      some (keyAddress, twoReceivers, [2 ^ 63, 2 ^ 63 + 1]) := by decide +kernel
  obtain ⟨c₁, c₂, hp, ha, -, hcredits⟩ :=
    author_after_event (c := allocated) rfl rfl hev recoverSigner_sealed1
  refine ⟨c₁, rfl, hp, ?_⟩
  rintro ⟨signer, e, c₂', credits, s', ha', hr, hf, hmint⟩
  obtain ⟨rfl, -, rfl⟩ : keyAddress = signer ∧ none = e ∧ c₂ = c₂' := by
    simpa [ha] using ha'
  rw [hcredits, if_pos (by decide), Except.ok.injEq] at hr
  subst hr
  have hshare := hmint.parts_eq.1 0 (by decide)
  revert hshare
  decide

end GoEthereum.Clique

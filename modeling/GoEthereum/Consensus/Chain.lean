import GoEthereum.Consensus.Rules

/-!
# The chain as an engine sees it, and ethash

`consensus.ChainHeaderReader`, with what holds of every chain: a header is found under its own
hash and number, the canonical headers have no gap, and there is one genesis block. A chain
with more headers has them besides its own; which of them are canonical is left open.
-/

namespace GoEthereum.Consensus

open List

variable {h parent x : Header} {earlier rest : List Header}

/-! ## Chains -/

/-- `ChainHeaderReader`. -/
structure Chain (cr : Crypto) where
  config : ChainConfig
  getHeader : Hash → UInt64 → Option Header
  getHeaderByNumber : UInt64 → Option Header
  header_key : ∀ {hash number h}, getHeader hash number = some h →
    h.hash cr = hash ∧ UInt64.ofNat h.number = number
  no_gap : ∀ number, number ≠ 0 → getHeaderByNumber (number - 1) = none →
    getHeaderByNumber number = none
  one_genesis : ∀ {hash h}, getHeader hash 0 = some h → getHeaderByNumber 0 = some h

variable {cr : Crypto}

/-- A chain that has more headers than another one. -/
structure Chain.Extends (chain : Chain cr) (more : List Header) (chain' : Chain cr) : Prop where
  config_eq : chain'.config = chain.config
  getHeader_eq : ∀ hash number, chain'.getHeader hash number =
    ((more.find? fun h => decide (h.hash cr = hash ∧ UInt64.ofNat h.number = number)) <|>
      chain.getHeader hash number)
  nil_eq : more = [] → chain' = chain

/-- Headers that follow a parent one by one. Their numbers have 64 bits (`SanityCheck`). -/
def Contiguous (cr : Crypto) : Header → List Header → Prop
  | _, [] => True
  | parent, h :: headers =>
    h.parentHash = parent.hash cr ∧ h.number = parent.number + 1 ∧ h.number < 2 ^ 64 ∧
      Contiguous cr h headers

/-- A batch on top of a header that the chain has. -/
structure Chain.Batch (chain : Chain cr) (parent : Header) (headers : List Header) : Prop where
  known : chain.getHeader (parent.hash cr) (UInt64.ofNat parent.number) = some parent
  contiguous : Contiguous cr parent headers

/-- The header behind which the next one stands. -/
def lastOf (parent : Header) (earlier : List Header) : Header := earlier.getLastD parent

theorem lastOf_append (parent : Header) (earlier : List Header) (h : Header) :
    lastOf parent (earlier ++ [h]) = h := by
  rw [lastOf, getLastD_concat]

theorem contiguous_append :
    Contiguous cr parent (earlier ++ rest) ↔
      Contiguous cr parent earlier ∧ Contiguous cr (lastOf parent earlier) rest := by
  induction earlier generalizing parent with
  | nil => exact (and_iff_right trivial).symm
  | cons h earlier ih =>
    have hlast : lastOf parent (h :: earlier) = lastOf h earlier := by
      cases earlier with
      | nil => rfl
      | cons h' earlier => rfl
    rw [hlast, cons_append, Contiguous, Contiguous, ih, and_assoc, and_assoc, and_assoc]

theorem Contiguous.number_lt {headers : List Header} (h : Contiguous cr parent headers)
    (hx : x ∈ headers) : parent.number < x.number := by
  induction headers generalizing parent with
  | nil => cases hx
  | cons y headers ih =>
    obtain ⟨-, hnumber, -, hrest⟩ := h
    obtain rfl | hx := mem_cons.mp hx
    · omega
    · have hlt := ih hrest hx
      omega

/-- A header behind others has a greater number. -/
theorem Contiguous.number_lt_of_mem (hcont : Contiguous cr parent (earlier ++ h :: rest))
    (hx : x ∈ earlier) : x.number < h.number := by
  obtain ⟨front, back, rfl⟩ := append_of_mem hx
  rw [append_assoc, contiguous_append] at hcont
  exact hcont.2.2.2.2.number_lt (mem_append_right _ mem_cons_self)

theorem Contiguous.find_last (hcont : Contiguous cr parent (earlier ++ [h])) :
    (earlier ++ [h]).find? (fun x => decide (x.hash cr = h.hash cr ∧
      UInt64.ofNat x.number = UInt64.ofNat h.number)) = some h := by
  have hlt : h.number < 2 ^ 64 := (contiguous_append.mp hcont).2.2.2.1
  have hnone : earlier.find? (fun x => decide (x.hash cr = h.hash cr ∧
      UInt64.ofNat x.number = UInt64.ofNat h.number)) = none := by
    rw [find?_eq_none]
    intro x hx hkey
    have hnumber := hcont.number_lt_of_mem hx
    have hsame := congrArg UInt64.toNat (of_decide_eq_true hkey).2
    rw [UInt64.toNat_ofNat', UInt64.toNat_ofNat', Nat.mod_eq_of_lt hlt,
      Nat.mod_eq_of_lt (hnumber.trans hlt)] at hsame
    omega
  rw [find?_append, hnone, Option.none_or]
  refine find?_cons_of_pos ?_
  rw [decide_eq_true_eq]
  exact ⟨rfl, rfl⟩

/-- The chain with the earlier headers of a batch has the last of them. -/
theorem Chain.Batch.getHeader_last {chain chain' : Chain cr} (h : chain.Batch parent earlier)
    (hext : chain.Extends earlier chain') :
    chain'.getHeader ((lastOf parent earlier).hash cr)
      (UInt64.ofNat (lastOf parent earlier).number) = some (lastOf parent earlier) := by
  cases earlier using reverseRecOn with
  | nil =>
    rw [hext.nil_eq rfl]
    exact h.known
  | append_singleton earlier last =>
    rw [hext.getHeader_eq, lastOf_append, h.contiguous.find_last]
    rfl

theorem uint64_pred {n m : Nat} (h : n = m + 1) : UInt64.ofNat n - 1 = UInt64.ofNat m := by
  rw [h, UInt64.ofNat_add]
  exact add_sub_cancel_right _ _

theorem Chain.Batch.getHeader_parent {chain chain' : Chain cr}
    (hbatch : chain.Batch parent (earlier ++ h :: headers))
    (hext : chain.Extends earlier chain') : chain'.getHeader h.parentHash
      (UInt64.ofNat h.number - 1) = some (lastOf parent earlier) := by
  obtain ⟨hcont, hlink, hnumber, -⟩ := contiguous_append.mp hbatch.contiguous
  rw [hlink, uint64_pred hnumber]
  exact Chain.Batch.getHeader_last ⟨hbatch.known, hcont⟩ hext

/-! ## Ethash -/

/-- `Ethash`; the delay of a fake engine is left out. -/
structure Ethash where
  fakeFail : Option UInt64
  fakeFull : Bool

def allowedFutureBlockTimeSeconds : Int := 15

namespace Ethash

def verifyHeader (ethash : Ethash) (config : ChainConfig) (header parent : Header) (uncle : Bool)
    (unixNow : Int) : Except Err Unit :=
  if header.extra.length > maximumExtraDataSize then .error (.extraTooLong header.extra.length)
  else if !uncle ∧ (header.time : Int) > (unixNow + allowedFutureBlockTimeSeconds) % 2 ^ 64 then
    .error .ErrFutureBlock
  else if header.time ≤ parent.time then .error .errOlderBlockTime
  else
    let expected := calcDifficulty config header.time parent
    if expected ≠ header.difficulty then .error (.invalidDifficulty header.difficulty expected)
    else if header.gasLimit > maxGasLimit then .error (.invalidGasLimit header.gasLimit)
    else if header.gasUsed > header.gasLimit then
      .error (.invalidGasUsed header.gasUsed header.gasLimit)
    else
      match verifyGas config parent header with
      | .error err => .error err
      | .ok () =>
        if (header.number : Int) - parent.number ≠ 1 then .error .ErrInvalidNumber
        else if config.isShanghai header.number header.time then
          .error (.forkNotSupported "shanghai")
        else if header.withdrawalsHash.isSome then .error .invalidWithdrawalsHash
        else if config.isCancun header.number header.time then
          .error (.forkNotSupported "cancun")
        else
          match verifyNoCancunFields header with
          | .error err => .error err
          | .ok () =>
            if ethash.fakeFail = some (UInt64.ofNat header.number) then
              .error .invalidTesterPow
            else verifyDAOHeaderExtraData config header

def VerifyHeader (ethash : Ethash) (chain : Chain cr) (unixNow : Int) (header : Header) :
    Except Err Unit :=
  let number := UInt64.ofNat header.number
  if (chain.getHeader (header.hash cr) number).isSome then .ok ()
  else
    match chain.getHeader header.parentHash (number - 1) with
    | none => .error .ErrUnknownAncestor
    | some parent => ethash.verifyHeader chain.config header parent false unixNow

/-- The loop of `VerifyHeaders` after a header: the next one is looked up behind it. -/
def verifyRest (ethash : Ethash) (cr : Crypto) (config : ChainConfig) (unixNow : Int) :
    Header → List Header → List (Except Err Unit)
  | _, [] => []
  | prev, header :: headers =>
    (if prev.hash cr = header.parentHash then
      ethash.verifyHeader config header prev false unixNow
    else .error .ErrUnknownAncestor) :: verifyRest ethash cr config unixNow header headers

def VerifyHeaders (ethash : Ethash) (chain : Chain cr) (unixNow : Int) (headers : List Header) :
    List (Except Err Unit) :=
  if ethash.fakeFull then headers.map fun _ => .ok ()
  else
    match headers with
    | [] => []
    | header :: headers =>
      (match chain.getHeader header.parentHash (UInt64.ofNat header.number - 1) with
      | none => .error .ErrUnknownAncestor
      | some parent => ethash.verifyHeader chain.config header parent false unixNow) ::
        verifyRest ethash cr chain.config unixNow header headers

end Ethash

end GoEthereum.Consensus

import GoEthereum.Lib.Keccak
import GoEthereum.Types.Signing

/-!
# Signatures bind the sender and the chain

A signer reads the sender off the transaction or refuses it: what it answers is `origin`, in
which the signer does not occur. A replay-protected transaction names its chain, and only the
signers of that chain accept it.
-/

namespace GoEthereum.Types

open List

variable {Key : Type} {ec : Crypto Key}

variable {a : Address} {homestead : Bool} {V r s : Int} {tx : TxData} {v : UInt8}

variable {hash sighash : Hash} {R S chainID : Int} {prv : Key} {signer : ModernSigner}

/-! ## Signers as they are made -/

/-- The signers the package makes: two without a chain, that of EIP-155, and the four for
typed transactions. -/
inductive Signer.Made : Signer → Prop where
  | frontier : Made (.legacy .FrontierSigner)
  | homestead : Made (.legacy .HomesteadSigner)
  | eip155 (chainId : Int) : Made (.legacy (.EIP155Signer chainId))
  | modern {chainID : Int} {fork : Fork} {s : ModernSigner}
      (hfork : fork ∈ [Fork.Berlin, .London, .Cancun, .Prague])
      (h : newModernSigner chainID fork = some s) : Made (.modern s)

theorem Signer.Made.modern_legacy {s : ModernSigner} (h : Made (.modern s)) :
    0 < s.chainID ∧ s.legacy = .EIP155Signer s.chainID := by
  cases h with
  | @modern chainID fork s hfork h =>
    rw [newModernSigner] at h
    split at h
    · cases h
    next hpos =>
    have hlegacy : fork.ctorIdx ≥ Fork.SpuriousDragon.ctorIdx := by
      revert hfork
      cases fork <;> decide
    rw [if_pos hlegacy] at h
    cases h
    exact ⟨not_le.mp hpos, rfl⟩

/-! ## Recovery -/

theorem eq_true_of_not_not {b : Bool} (h : ¬ (!b) = true) : b = true := by
  cases b with
  | true => rfl
  | false => exact absurd rfl h

theorem validate_weaken (h : validateSignatureValues v r s true = true) (homestead : Bool) :
    validateSignatureValues v r s homestead = true := by
  cases homestead with
  | true => exact h
  | false =>
    rw [validateSignatureValues] at h ⊢
    split at h
    · cases h
    next hpos =>
      rw [if_neg hpos, if_neg (fun hlow => by cases hlow.1)]
      split at h
      · cases h
      · exact h

theorem validate_bounds (h : validateSignatureValues v r s homestead = true) :
    (0 ≤ r ∧ r < 2 ^ 256) ∧ 0 ≤ s ∧ s < 2 ^ 256 := by
  have horder : secp256k1N < 2 ^ 256 := by decide
  rw [validateSignatureValues] at h
  split at h
  · cases h
  · split at h
    · cases h
    · simp only [Bool.and_eq_true, decide_eq_true_eq] at h
      omega

theorem validate_byte (h : validateSignatureValues v r s homestead = true) : v = 0 ∨ v = 1 := by
  rw [validateSignatureValues] at h
  split at h
  · cases h
  · split at h
    · cases h
    · simp only [Bool.and_eq_true, Bool.or_eq_true, decide_eq_true_eq] at h
      exact h.2

/-- What the homestead rules accept so do those of the frontier. -/
theorem recoverPlain_weaken (h : recoverPlain ec sighash R S V true = .ok a) (homestead : Bool) :
    recoverPlain ec sighash R S V homestead = .ok a := by
  rw [recoverPlain] at h ⊢
  split at h
  · cases h
  next hlen =>
    rw [if_neg hlen]
    dsimp only at h ⊢
    split at h
    · cases h
    · next hvalid =>
        rw [validate_weaken (eq_true_of_not_not hvalid) homestead]
        exact h

theorem recoverPlain_byte (h : recoverPlain ec sighash R S V homestead = .ok a) :
    V.natAbs = 27 ∨ V.natAbs = 28 := by
  rw [recoverPlain] at h
  split at h
  · cases h
  next hlen =>
    have hsmall : V.natAbs < 2 ^ 8 := bitLen_le_iff.mp (not_lt.mp hlen)
    have hword : (uint64 V).toNat = V.natAbs := uint64_toNat (by omega)
    dsimp only at h
    split at h
    · cases h
    next hvalid =>
      have hbyte := validate_byte (eq_true_of_not_not hvalid)
      have hnat : ((uint64 V - 27).toUInt8).toNat =
          (2 ^ 64 - 27 + V.natAbs) % 2 ^ 64 % 2 ^ 8 := by
        rw [UInt64.toNat_toUInt8, UInt64.toNat_sub, hword]
        rfl
      obtain hzero | hone := hbyte
      · rw [hzero, show (0 : UInt8).toNat = 0 from rfl] at hnat
        omega
      · rw [hone, show (1 : UInt8).toNat = 1 from rfl] at hnat
        omega

theorem isProtectedV_eq_false (h : V.natAbs = 27 ∨ V.natAbs = 28) : isProtectedV V = false := by
  have hsmall : bitLen V ≤ 8 := bitLen_le_iff.mpr (by omega)
  have hword : uint64 V = 27 ∨ uint64 V = 28 := by
    rw [uint64]
    obtain h | h := h
    · exact .inl (by rw [h]; rfl)
    · exact .inr (by rw [h]; rfl)
  rw [isProtectedV, if_pos hsmall]
  obtain h | h := hword
  · simp [h]
  · simp [h]

/-! ## The sender of a transaction -/

/-- Who sent a transaction, whichever signer is asked. -/
def origin (ec : Crypto Key) (tx : TxData) : Except Err Address :=
  let (V, R, S) := tx.rawSignatureValues
  if tx.txType ≠ .LegacyTxType then
    recoverPlain ec (tx.sigHash ec.keccak tx.chainID) R S (V + 27) true
  else if tx.isProtected then
    recoverPlain ec (tx.sigHash ec.keccak tx.chainID) R S (V - tx.chainID * 2 - 8) true
  else recoverPlain ec (rlpHash ec.keccak tx.plainFields) R S V false

theorem origin_typed (h : tx.txType ≠ .LegacyTxType) :
    origin ec tx = recoverPlain ec (tx.sigHash ec.keccak tx.chainID) tx.rawSignatureValues.2.1
      tx.rawSignatureValues.2.2 (tx.rawSignatureValues.1 + 27) true := by
  rw [origin]
  exact if_pos h

theorem origin_protected (h : tx.txType = .LegacyTxType) (hp : tx.isProtected = true) :
    origin ec tx = recoverPlain ec (tx.sigHash ec.keccak tx.chainID) tx.rawSignatureValues.2.1
      tx.rawSignatureValues.2.2 (tx.rawSignatureValues.1 - tx.chainID * 2 - 8) true := by
  rw [origin]
  exact (if_neg (not_not.mpr h)).trans (if_pos hp)

theorem origin_plain (h : tx.txType = .LegacyTxType) (hp : tx.isProtected = false) :
    origin ec tx = recoverPlain ec (rlpHash ec.keccak tx.plainFields) tx.rawSignatureValues.2.1
      tx.rawSignatureValues.2.2 tx.rawSignatureValues.1 false := by
  rw [origin]
  exact (if_neg (not_not.mpr h)).trans (if_neg (by rw [hp]; exact Bool.false_ne_true))

/-- What the signers have in common: an accepted transaction is its origin's, and if it is
replay-protected the signer is one of its chain. -/
structure Accepts (ec : Crypto Key) (chainID : Option Int) (tx : TxData) (a : Address) : Prop where
  origin_eq : origin ec tx = .ok a
  chain : tx.isProtected = true → chainID = some tx.chainID

theorem isProtected_legacy (h : tx.txType = .LegacyTxType) :
    tx.isProtected = isProtectedV tx.rawSignatureValues.1 := by
  cases tx with
  | legacy tx => rfl
  | accessList tx => cases h
  | dynamicFee tx => cases h
  | blob tx => cases h
  | setCode tx => cases h

theorem plainSender_accepts (h : LegacySigner.plainSender ec homestead tx = .ok a)
    (chainID : Option Int) : Accepts ec chainID tx a := by
  rw [LegacySigner.plainSender] at h
  split at h
  · cases h
  next htype =>
    have htype := not_not.mp htype
    have hfree : tx.isProtected = false := by
      rw [isProtected_legacy htype]
      exact isProtectedV_eq_false (recoverPlain_byte h)
    have hplain : recoverPlain ec (rlpHash ec.keccak tx.plainFields) tx.rawSignatureValues.2.1
        tx.rawSignatureValues.2.2 tx.rawSignatureValues.1 false = .ok a := by
      cases homestead with
      | true => exact recoverPlain_weaken h false
      | false => exact h
    constructor
    · rw [origin_plain htype hfree]
      exact hplain
    · intro hp
      rw [hfree] at hp
      cases hp

theorem LegacySigner.sender_accepts {s : LegacySigner} (h : s.sender ec tx = .ok a) :
    Accepts ec s.chainID tx a := by
  cases s with
  | FrontierSigner => exact plainSender_accepts h _
  | HomesteadSigner => exact plainSender_accepts h _
  | EIP155Signer chainId =>
    rw [LegacySigner.sender] at h
    split at h
    · cases h
    next htype =>
      split at h
      · exact plainSender_accepts h _
      next hprot =>
        split at h
        · cases h
        next hchain =>
          have hchain := not_not.mp hchain
          have hprot := eq_true_of_not_not hprot
          constructor
          · rw [origin_protected (not_not.mp htype) hprot, hchain]
            exact h
          · intro _
            rw [hchain]
            rfl

theorem Signer.sender_accepts {s : Signer} (hmade : s.Made) (h : s.sender ec tx = .ok a) :
    Accepts ec s.chainID tx a := by
  cases s with
  | legacy s => exact LegacySigner.sender_accepts h
  | modern s =>
    rw [Signer.sender] at h
    split at h
    · cases h
    split at h
    · have haccepts := LegacySigner.sender_accepts h
      rw [hmade.modern_legacy.2] at haccepts
      exact haccepts
    · next htype =>
        split at h
        · cases h
        next hchain =>
          have hchain := not_not.mp hchain
          constructor
          · rw [origin_typed htype, hchain]
            exact h
          · intro _
            rw [hchain]
            rfl

/-! ## The cache -/

theorem LegacySigner.equal_eq {s s' : LegacySigner} (h : s.equal s' = true) : s = s' := by
  cases s with
  | FrontierSigner =>
    cases s' with
    | FrontierSigner => rfl
    | HomesteadSigner => cases h
    | EIP155Signer c => cases h
  | HomesteadSigner =>
    cases s' with
    | FrontierSigner => cases h
    | HomesteadSigner => rfl
    | EIP155Signer c => cases h
  | EIP155Signer c =>
    cases s' with
    | FrontierSigner => cases h
    | HomesteadSigner => cases h
    | EIP155Signer c' => rw [of_decide_eq_true h]

theorem Signer.equal_eq {s s' : Signer} (h : s.equal s' = true) : s = s' := by
  cases s with
  | legacy s =>
    cases s' with
    | legacy s' => rw [LegacySigner.equal_eq h]
    | modern s' => cases h
  | modern s =>
    cases s' with
    | legacy s' => cases h
    | modern s' =>
      simp only [Signer.equal, Bool.and_eq_true, decide_eq_true_eq] at h
      obtain ⟨⟨hchain, htypes⟩, hlegacy⟩ := h
      have hlegacy := LegacySigner.equal_eq hlegacy
      cases s
      cases s'
      cases hchain
      cases htypes
      cases hlegacy
      rfl

/-- What is cached is what its signer answers. -/
def Cached (ec : Crypto Key) (tx : Transaction) : Prop :=
  ∀ signer addr, tx.sigCache = some (signer, addr) → signer.sender ec tx.inner = .ok addr

/-- A call of `Sender` answers as the signer does, and keeps the cache right. -/
theorem cached_fresh {tx : Transaction} (h : Cached ec tx) (signer : Signer)
    {r : Except Err Address × Transaction} (hr : r = match signer.sender ec tx.inner with
      | .error err => (.error err, tx)
      | .ok addr => (.ok addr, { tx with sigCache := some (signer, addr) })) :
    r.1 = signer.sender ec tx.inner ∧ r.2.inner = tx.inner ∧ Cached ec r.2 := by
  subst hr
  cases hsender : signer.sender ec tx.inner with
  | error err => exact ⟨rfl, rfl, h⟩
  | ok addr =>
    refine ⟨rfl, rfl, ?_⟩
    intro signer' addr' hcache
    cases hcache
    exact hsender

theorem sender_cached {tx : Transaction} (h : Cached ec tx) (signer : Signer) :
    (sender ec signer tx).1 = signer.sender ec tx.inner ∧
      (sender ec signer tx).2.inner = tx.inner ∧ Cached ec (sender ec signer tx).2 := by
  rw [sender]
  cases hcache : tx.sigCache with
  | none => exact cached_fresh h signer rfl
  | some c =>
    obtain ⟨cached, addr⟩ := c
    dsimp only
    by_cases hequal : cached.equal signer = true
    · rw [if_pos hequal]
      refine ⟨?_, rfl, h⟩
      rw [← Signer.equal_eq hequal, h cached addr hcache]
    · rw [if_neg hequal]
      exact cached_fresh h signer rfl

theorem senders_cached {tx : Transaction} (h : Cached ec tx) (signers : List Signer) :
    senders ec signers tx = signers.map fun s => s.sender ec tx.inner := by
  induction signers generalizing tx with
  | nil => rfl
  | cons signer signers ih =>
    obtain ⟨hanswer, hinner, hcached⟩ := sender_cached h signer
    rw [senders, ih hcached, hanswer, hinner]
    rfl

/-! ## Signing -/

/-- Signing and recovery fit: a signature is 65 bytes, valid with a low `s`, and the key that
made it is recovered. -/
structure Crypto.Signs (ec : Crypto Key) : Prop where
  sign_ok : ∀ hash prv, ∃ (r s : Bytes) (v : UInt8), ec.sign hash prv = some (r ++ s ++ [v]) ∧
    r.length = 32 ∧ s.length = 32 ∧ validateSignatureValues v (beNat r) (beNat s) true = true ∧
    ec.ecrecover hash (r ++ s ++ [v]) = some (ec.publicKey prv)
  publicKey_head : ∀ prv, (ec.publicKey prv).head? = some 4

/-- The address of a key. -/
def Crypto.address (ec : Crypto Key) (prv : Key) : Address :=
  pubkeyToAddress ec.keccak (ec.publicKey prv)

/-- A signature of a hash, in its parts. -/
structure Signed (ec : Crypto Key) (prv : Key) (hash : Hash) (r s : Bytes) (v : UInt8) : Prop where
  r_length : r.length = 32
  s_length : s.length = 32
  valid : validateSignatureValues v (beNat r) (beNat s) true = true
  recovers : ec.ecrecover hash (r ++ s ++ [v]) = some (ec.publicKey prv)
  head : (ec.publicKey prv).head? = some 4

theorem Signed.recoverPlain {r s : Bytes} (h : Signed ec prv hash r s v) (hV : V = v.toNat + 27)
    (homestead : Bool) :
    recoverPlain ec hash (beNat r) (beNat s) V homestead = .ok (ec.address prv) := by
  have hr : beBytes 32 (beNat r) = r := by
    rw [← h.r_length]
    exact beBytes_beNat r
  have hs : beBytes 32 (beNat s) = s := by
    rw [← h.s_length]
    exact beBytes_beNat s
  have hbyte : (uint64 V - 27).toUInt8 = v ∧ bitLen V ≤ 8 := by
    obtain rfl | rfl := validate_byte h.valid
    · subst hV
      decide
    · subst hV
      decide
  rw [Types.recoverPlain, if_neg (not_lt.mpr hbyte.2), hbyte.1]
  dsimp only
  rw [validate_weaken h.valid homestead, Int.natAbs_natCast, Int.natAbs_natCast, hr, hs, h.recovers]
  exact if_neg (not_not.mpr h.head)

theorem Signed.decode {r s : Bytes} (h : Signed ec prv hash r s v) :
    decodeSignature (r ++ s ++ [v]) = .ok ((beNat r : Int), (beNat s : Int), v.toNat + 27) ∧
      (r ++ s ++ [v]).getD 64 0 = v := by
  have hlen : (r ++ s).length = 64 := by
    rw [length_append, h.r_length, h.s_length]
  have hget : (r ++ s ++ [v]).getD 64 0 = v := by
    rw [getD_eq_getElem?_getD, getElem?_append_right (by omega), hlen]
    rfl
  refine ⟨?_, hget⟩
  have htake : (r ++ s ++ [v]).take 32 = r := by
    rw [append_assoc]
    exact take_left' h.r_length
  have hdrop : ((r ++ s ++ [v]).drop 32).take 32 = s := by
    rw [append_assoc, drop_left' h.r_length]
    exact take_left' h.s_length
  have hbyte : ((v + 27).toNat : Int) = v.toNat + 27 := by
    obtain rfl | rfl := validate_byte h.valid
    · rfl
    · rfl
  rw [decodeSignature, if_neg (by rw [length_append, hlen]; exact not_not.mpr rfl), htake,
    hdrop, hget, hbyte]

theorem setFromBig_toNat {x : Int} (h : 0 ≤ x) (hlt : x < 2 ^ 256) :
    ((TxData.setFromBig x).toNat : Int) = x := by
  rw [TxData.setFromBig, BitVec.toNat_ofInt, Int.toNat_of_nonneg (Int.emod_nonneg x (by decide))]
  exact Int.emod_eq_of_lt h hlt

/-- The types whose chain ID has 256 bits. -/
def TxType.hasUint256 : TxType → Prop
  | .BlobTxType => True
  | .SetCodeTxType => True
  | _ => False

/-- Setting the signature of a typed transaction sets its chain, and leaves what is signed. -/
theorem setSignatureValues_typed (htype : tx.txType ≠ .LegacyTxType) {v : Int} (hpos : 0 ≤ chainID)
    (hfits : tx.txType.hasUint256 → chainID < 2 ^ 256) (hv : 0 ≤ v ∧ v < 2 ^ 256)
    (hr : 0 ≤ r ∧ r < 2 ^ 256) (hs : 0 ≤ s ∧ s < 2 ^ 256) :
    ∃ tx', tx.setSignatureValues (some chainID) v r s = some tx' ∧ tx'.txType = tx.txType ∧
      tx'.chainID = chainID ∧ tx'.rawSignatureValues = (v, r, s) ∧
      ∀ keccak chain, tx'.sigHash keccak chain = tx.sigHash keccak chain := by
  have hvals : (((TxData.setFromBig v).toNat : Int), ((TxData.setFromBig r).toNat : Int),
      ((TxData.setFromBig s).toNat : Int)) = (v, r, s) := by
    rw [setFromBig_toNat hv.1 hv.2, setFromBig_toNat hr.1 hr.2, setFromBig_toNat hs.1 hs.2]
  cases tx with
  | legacy tx => exact absurd rfl htype
  | accessList tx => exact ⟨_, rfl, rfl, rfl, rfl, fun _ _ => rfl⟩
  | dynamicFee tx => exact ⟨_, rfl, rfl, rfl, rfl, fun _ _ => rfl⟩
  | blob tx =>
    exact ⟨_, rfl, rfl, setFromBig_toNat hpos (hfits trivial), hvals, fun _ _ => rfl⟩
  | setCode tx =>
    have hlt := hfits trivial
    have hlen : ¬ bitLen chainID > 256 := not_lt.mpr (bitLen_le_iff.mpr (by omega))
    exact ⟨_, if_neg hlen, rfl, setFromBig_toNat hpos hlt, hvals, fun _ _ => rfl⟩

/-- The V of a protected signature names its chain. -/
theorem protected_of_chain {chainId : Int} (hpos : 0 < chainId) (hv : v = 0 ∨ v = 1)
    (hV : V = v.toNat + 35 + chainId * 2) : isProtectedV V = true ∧ deriveChainId V = chainId := by
  have hbyte : v.toNat ≤ 1 := by
    obtain rfl | rfl := hv
    · decide
    · decide
  have habs : V.natAbs = v.toNat + 35 + chainId.toNat * 2 := by omega
  have hword : bitLen V ≤ 64 → (uint64 V).toNat = V.natAbs := by
    intro hlen
    have hsmall := bitLen_le_iff.mp hlen
    exact uint64_toNat (by omega)
  have hne : bitLen V ≤ 64 → ∀ k : UInt64, k.toNat < 37 → uint64 V ≠ k := by
    intro hlen k hk heq
    have := hword hlen
    rw [heq] at this
    omega
  constructor
  · rw [isProtectedV]
    split
    · next hlen =>
        have hne := hne (hlen.trans (by decide))
        simp [hne 27 (by decide), hne 28 (by decide), hne 1 (by decide), hne 0 (by decide)]
    · rfl
  · rw [deriveChainId]
    split
    · next hlen =>
        have hword := hword hlen
        have hne := hne hlen
        have hsub : (uint64 V - 35).toNat = (uint64 V).toNat - 35 :=
          UInt64.toNat_sub_of_le _ _ (UInt64.le_iff_toNat_le.mpr (by
            rw [hword, show (35 : UInt64).toNat = 35 from rfl]
            omega))
        dsimp only
        rw [if_neg (by
          rintro (h | h)
          · exact hne 27 (by decide) h
          · exact hne 28 (by decide) h), UInt64.toNat_div, hsub, hword,
          show (2 : UInt64).toNat = 2 from rfl]
        omega
    · rw [Int.shiftRight_eq_div_pow]
      omega

/-- A legacy signer accepts what it signed. -/
theorem LegacySigner.signed_sender {signer : LegacySigner}
    (hpos : ∀ c, signer.chainID = some c → 0 < c) {tx : LegacyTx} {prv : Key} {r s : Bytes}
    {v : UInt8} (h : Signed ec prv (signer.hash ec (.legacy tx)) r s v) :
    ∃ V : Int, signer.signatureValues (.legacy tx) (r ++ s ++ [v]) = .ok (beNat r, beNat s, V) ∧
      signer.sender ec (.legacy { tx with v := V, r := beNat r, s := beNat s }) =
        .ok (ec.address prv) := by
  cases signer with
  | FrontierSigner => exact ⟨v.toNat + 27, h.decode.1, h.recoverPlain rfl false⟩
  | HomesteadSigner => exact ⟨v.toNat + 27, h.decode.1, h.recoverPlain rfl true⟩
  | EIP155Signer chainId =>
    have hchain : 0 < chainId := hpos chainId rfl
    have hbyte : ((v + 35).toNat : Int) = v.toNat + 35 := by
      obtain rfl | rfl := validate_byte h.valid
      · rfl
      · rfl
    obtain ⟨hprot, hderive⟩ := protected_of_chain hchain (validate_byte h.valid) rfl
    refine ⟨v.toNat + 35 + chainId * 2, ?_, ?_⟩
    · rw [signatureValues, if_neg (fun hne => hne rfl), h.decode.1]
      dsimp only
      rw [if_pos hchain.ne', h.decode.2, hbyte]
    · rw [LegacySigner.sender, if_neg (fun hne => hne rfl), if_neg ?_, if_neg ?_]
      · exact h.recoverPlain (by ring) true
      · exact not_not.mpr hderive
      · show ¬ (!isProtectedV _) = true
        rw [hprot]
        exact Bool.false_ne_true

theorem ModernSigner.legacy_signatureValues (h : TxType.LegacyTxType ∈ signer.txtypes)
    (tx : LegacyTx) (sig : Bytes) :
    Signer.signatureValues (.modern signer) (.legacy tx) sig =
      signer.legacy.signatureValues (.legacy tx) sig :=
  (if_neg (not_not.mpr h)).trans (if_pos rfl)

theorem ModernSigner.legacy_sender (h : TxType.LegacyTxType ∈ signer.txtypes) (tx : LegacyTx) :
    Signer.sender ec (.modern signer) (.legacy tx) = signer.legacy.sender ec (.legacy tx) :=
  (if_neg (not_not.mpr h)).trans (if_pos rfl)

/-- So does a signer for typed transactions, if the chain ID fits the transaction. -/
theorem ModernSigner.signed_sender {signer : ModernSigner} (hpos : 0 < signer.chainID)
    {tx : TxData} (htype : tx.txType ≠ .LegacyTxType) (hsupports : tx.txType ∈ signer.txtypes)
    (hchain : tx.chainID = 0 ∨ signer.chainID = tx.chainID)
    (hfits : tx.txType.hasUint256 → signer.chainID < 2 ^ 256) {prv : Key} {r s : Bytes}
    {v : UInt8} (h : Signed ec prv (tx.sigHash ec.keccak signer.chainID) r s v) :
    Signer.signatureValues (.modern signer) tx (r ++ s ++ [v]) = .ok (beNat r, beNat s, v.toNat) ∧
      ∃ tx', tx.setSignatureValues (some signer.chainID) v.toNat (beNat r) (beNat s) = some tx' ∧
        Signer.sender ec (.modern signer) tx' = .ok (ec.address prv) := by
  constructor
  · rw [Signer.signatureValues, if_neg (not_not.mpr hsupports), if_neg htype, if_neg ?_, h.decode.1]
    · dsimp only
      rw [h.decode.2]
    · rintro ⟨hzero, hother⟩
      obtain hchain | hchain := hchain
      · exact hzero hchain
      · exact hother hchain.symm
  · have hv : (0 : Int) ≤ v.toNat ∧ (v.toNat : Int) < 2 ^ 256 := by
      have hlt := v.toNat_lt
      omega
    obtain ⟨hr, hs⟩ := validate_bounds h.valid
    obtain ⟨tx', hset, htype', hchain', hraw, hhash⟩ :=
      setSignatureValues_typed htype hpos.le hfits hv hr hs
    refine ⟨tx', hset, ?_⟩
    rw [Signer.sender, htype', if_neg (not_not.mpr hsupports), if_neg htype,
      if_neg (not_not.mpr hchain'), hraw, hhash]
    exact h.recoverPlain rfl true

theorem cached_none (inner : TxData) : Cached ec ⟨inner, none⟩ := by
  intro signer addr h
  cases h

/-- `Sender` finds who called `SignTx`. -/
theorem sender_signTx (hec : ec.Signs) {tx : Transaction} {signer : Signer}
    (hmade : signer.Made) (hpos : ∀ c, signer.chainID = some c → 0 < c)
    (hsupports : signer.supportsType tx.inner.txType)
    (hchain : tx.inner.txType ≠ .LegacyTxType →
      tx.inner.chainID = 0 ∨ signer.chainID = some tx.inner.chainID)
    (hfits : tx.inner.txType.hasUint256 → ∀ c, signer.chainID = some c → c < 2 ^ 256)
    (prv : Key) :
    ∃ tx', signTx ec tx signer prv = .ok tx' ∧ (sender ec signer tx').1 = .ok (ec.address prv) := by
  obtain ⟨r, s, v, hsign, hr, hs, hvalid, hrecover⟩ :=
    hec.sign_ok (signer.hash ec tx.inner) prv
  have hsigned : Signed ec prv (signer.hash ec tx.inner) r s v :=
    ⟨hr, hs, hvalid, hrecover, hec.publicKey_head prv⟩
  -- it is enough to say which values are set and that the signer accepts them
  have henough : ∀ V inner, signer.signatureValues tx.inner (r ++ s ++ [v]) =
      .ok (beNat r, beNat s, V) →
      tx.inner.setSignatureValues signer.chainID V (beNat r) (beNat s) = some inner →
      signer.sender ec inner = .ok (ec.address prv) →
      ∃ tx', signTx ec tx signer prv = .ok tx' ∧
        (sender ec signer tx').1 = .ok (ec.address prv) := by
    intro V inner hvalues hset hsender
    refine ⟨⟨inner, none⟩, ?_, ?_⟩
    · rw [signTx, hsign]
      dsimp only
      rw [withSignature, hvalues]
      dsimp only
      rw [hset]
    · rw [(sender_cached (cached_none inner) signer).1]
      exact hsender
  obtain ⟨inner, cache⟩ := tx
  cases signer with
  | legacy signer =>
    cases inner with
    | legacy tx =>
      obtain ⟨V, hvalues, hsender⟩ := LegacySigner.signed_sender hpos hsigned
      exact henough V _ hvalues rfl hsender
    | accessList tx => cases hsupports
    | dynamicFee tx => cases hsupports
    | blob tx => cases hsupports
    | setCode tx => cases hsupports
  | modern signer =>
    obtain ⟨hchainID, hlegacy⟩ := hmade.modern_legacy
    by_cases htype : inner.txType = .LegacyTxType
    · cases inner with
      | legacy tx =>
        obtain ⟨V, hvalues, hsender⟩ := @LegacySigner.signed_sender Key ec
          (.EIP155Signer signer.chainID) (fun c hc => by cases hc; exact hchainID)
          tx prv r s v hsigned
        rw [← hlegacy] at hvalues hsender
        refine henough V _ ?_ rfl ?_
        · exact (ModernSigner.legacy_signatureValues hsupports tx _).trans hvalues
        · exact (ModernSigner.legacy_sender hsupports _).trans hsender
      | accessList tx => cases htype
      | dynamicFee tx => cases htype
      | blob tx => cases htype
      | setCode tx => cases htype
    · obtain ⟨hvalues, inner', hset, hsender⟩ := ModernSigner.signed_sender hchainID htype
        hsupports ((hchain htype).imp_right Option.some.inj)
        (fun hwide => hfits hwide _ rfl) hsigned
      exact henough _ inner' hvalues hset hsender

/-- A signature says who sent the transaction and for which chain. -/
theorem signatures_bind (ec : Crypto Key) (hec : ec.Signs) :
    (∀ (tx : Transaction) (s : Signer) (prv : Key), s.Made →
      (∀ c, s.chainID = some c → 0 < c) → s.supportsType tx.inner.txType →
      (tx.inner.txType ≠ .LegacyTxType → tx.inner.chainID = 0 ∨ s.chainID = some tx.inner.chainID) →
      (tx.inner.txType.hasUint256 → ∀ c, s.chainID = some c → c < 2 ^ 256) →
      ∃ tx', signTx ec tx s prv = .ok tx' ∧ (sender ec s tx').1 = .ok (ec.address prv)) ∧
    (∀ (s : Signer) (tx : TxData), s.Made → tx.isProtected = true →
      s.chainID ≠ some tx.chainID → ∃ err, s.sender ec tx = .error err) ∧
    (∀ (s s' : Signer) (tx : TxData) (a a' : Address), s.Made → s'.Made →
      s.sender ec tx = .ok a → s'.sender ec tx = .ok a' → a = a') ∧
    ∀ (tx : TxData) (signers : List Signer),
      senders ec signers ⟨tx, none⟩ = signers.map fun s => s.sender ec tx := by
  refine ⟨?_, ?_, ?_, ?_⟩
  · intro tx s prv hmade hpos hsupports hchain hfits
    exact sender_signTx hec hmade hpos hsupports hchain hfits prv
  · intro s tx hmade hprot hchain
    cases hsender : s.sender ec tx with
    | error err => exact ⟨err, rfl⟩
    | ok a => exact absurd ((Signer.sender_accepts hmade hsender).chain hprot) hchain
  · intro s s' tx a a' hmade hmade' ha ha'
    have horigin := (Signer.sender_accepts hmade ha).origin_eq
    rw [(Signer.sender_accepts hmade' ha').origin_eq] at horigin
    exact (Except.ok.inj horigin).symm
  · intro tx signers
    exact senders_cached (cached_none tx) signers

/-! ## Chain IDs of more than 256 bits -/

/-- A scheme of two keys: the last byte of a signature says which. -/
def twoKeys : Crypto Bool where
  keccak := Keccak.keccak256
  sign := fun _ prv => some (beBytes 32 1 ++ beBytes 32 1 ++ [if prv then 1 else 0])
  ecrecover := fun _ sig => some (4 :: replicate 64 (sig.getD 64 0))
  publicKey := fun prv => 4 :: replicate 64 (if prv then 1 else 0)

theorem twoKeys_signs : twoKeys.Signs := by
  constructor
  · intro hash prv
    refine ⟨beBytes 32 1, beBytes 32 1, if prv then 1 else 0, rfl, rfl, rfl, ?_, ?_⟩
    · cases prv with
      | true => decide +kernel
      | false => decide +kernel
    · cases prv with
      | true => rfl
      | false => rfl
  · intro prv
    rfl

def blobTx : BlobTx where
  chainID := 0
  nonce := 0
  gasTipCap := 0
  gasFeeCap := 0
  gas := 21000
  toAddr := zeroAddress
  value := 0
  data := []
  accessList := []
  blobFeeCap := 0
  blobHashes := []
  v := 0
  r := 0
  s := 0

def setCodeTx : SetCodeTx where
  chainID := 0
  nonce := 0
  gasTipCap := 0
  gasFeeCap := 0
  gas := 21000
  toAddr := zeroAddress
  value := 0
  data := []
  accessList := []
  authList := []
  v := 0
  r := 0
  s := 0

/-- `NewPragueSigner`. -/
def newPragueSigner (chainID : Int) : Option ModernSigner := newModernSigner chainID .Prague

def pragueTypes : Finset TxType :=
  {.SetCodeTxType, .BlobTxType, .DynamicFeeTxType, .AccessListTxType, .LegacyTxType}

theorem newPragueSigner_eq (h : 0 < chainID) :
    newPragueSigner chainID = some ⟨pragueTypes, chainID, .EIP155Signer chainID⟩ := by
  rw [newPragueSigner, newModernSigner, if_neg (not_le.mpr h)]
  rfl

theorem signatures_bind_blob : ∃ tx', signTx twoKeys ⟨.blob blobTx, none⟩
        (.modern ⟨pragueTypes, 5, .EIP155Signer 5⟩) true = .ok tx' ∧
      (sender twoKeys (.modern ⟨pragueTypes, 5, .EIP155Signer 5⟩) tx').1 =
        .ok (twoKeys.address true) :=
  (signatures_bind twoKeys twoKeys_signs).1 ⟨.blob blobTx, none⟩
    (.modern ⟨pragueTypes, 5, .EIP155Signer 5⟩) true
    (.modern (by decide) (newPragueSigner_eq (by decide)))
    (fun c hc => by cases hc; decide) (show TxType.BlobTxType ∈ pragueTypes by decide)
    (fun _ => Or.inl rfl)
    (fun _ c hc => by cases hc; decide)

theorem withSignature_panic {tx : Transaction} {signer : Signer} {sig : Bytes} {r s v : Int}
    (hvalues : signer.signatureValues tx.inner sig = .ok (r, s, v))
    (hnone : tx.inner.setSignatureValues signer.chainID v r s = none) :
    withSignature tx signer sig = .error .panic := by
  rw [withSignature, hvalues]
  simp only [hnone]

/-- The signer of a chain whose ID is longer than 256 bits. -/
theorem signTx_wide {c : Int} (hc : 2 ^ 256 < c) :
    (∃ tx', signTx twoKeys ⟨.blob blobTx, none⟩ (.modern ⟨pragueTypes, c, .EIP155Signer c⟩) true =
        .ok tx' ∧
      (sender twoKeys (.modern ⟨pragueTypes, c, .EIP155Signer c⟩) tx').1 =
        .error (.ErrInvalidChainId (TxData.setFromBig c).toNat c)) ∧
    signTx twoKeys ⟨.setCode setCodeTx, none⟩ (.modern ⟨pragueTypes, c, .EIP155Signer c⟩) true =
      .error .panic := by
  constructor
  · refine ⟨⟨.blob { blobTx with
      chainID := TxData.setFromBig c
      v := TxData.setFromBig 1
      r := TxData.setFromBig (beNat (beBytes 32 1))
      s := TxData.setFromBig (beNat (beBytes 32 1)) }, none⟩, rfl, ?_⟩
    have hne : ((TxData.setFromBig c).toNat : Int) ≠ c := by
      have hlt := (TxData.setFromBig c).isLt
      omega
    rw [(sender_cached (cached_none _) _).1]
    exact if_pos hne
  · have hpanic : (TxData.setCode setCodeTx).setSignatureValues (some c) 1 (beNat (beBytes 32 1))
        (beNat (beBytes 32 1)) = none := by
      refine if_pos (not_le.mp fun hlen => ?_)
      have hlt := bitLen_le_iff.mp hlen
      omega
    show withSignature ⟨.setCode setCodeTx, none⟩ (.modern ⟨pragueTypes, c, .EIP155Signer c⟩)
      (beBytes 32 1 ++ beBytes 32 1 ++ [1]) = _
    exact withSignature_panic (by rfl) hpanic

/-- A blob transaction keeps 256 bits of a longer chain ID, so that its own signer refuses it;
a set-code transaction panics. -/
theorem signTx_wide_chain : ∃ s, newPragueSigner (2 ^ 256 + 5) = some s ∧
      (∃ tx', signTx twoKeys ⟨.blob blobTx, none⟩ (.modern s) true = .ok tx' ∧
        (sender twoKeys (.modern s) tx').1 = .error (.ErrInvalidChainId 5 (2 ^ 256 + 5))) ∧
      signTx twoKeys ⟨.setCode setCodeTx, none⟩ (.modern s) true = .error .panic := by
  have hchain : ((TxData.setFromBig (2 ^ 256 + 5)).toNat : Int) = 5 := by
    rw [TxData.setFromBig, BitVec.toNat_ofInt]
    norm_num
  obtain ⟨⟨tx', hsign, hsender⟩, hpanic⟩ := @signTx_wide (2 ^ 256 + 5) (by decide)
  rw [hchain] at hsender
  exact ⟨_, newPragueSigner_eq (by decide), ⟨tx', hsign, hsender⟩, hpanic⟩

end GoEthereum.Types

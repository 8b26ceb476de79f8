import GoEthereum.Clique.Chain

/-!
# Building a block and verifying it

`Prepare`, `FinalizeAndAssemble` and the seal on one side, `Process` on the other.
When the block is assembled its seal is 65 zero bytes. No signer can be recovered
from those, `Finalize` drops the error and credits the zero address; `Process`
credits the signer of the finished block. The two state roots are the same only
for a node that signs as the zero address.
-/

namespace GoEthereum.Clique

open List

variable {front : Bytes} {cr : Crypto} {c : Engine} {h : Header} {H : Set Header} {s : StateDB}

/-! ## Prepare -/

/-- The fields of `Snapshot` that `Prepare` reads; the signers in ascending order,
as `signers()` returns them. -/
structure Snapshot where
  number : Nat
  signers : List Address

/-- A panic or a returned error. -/
inductive Failure where
  | panic (p : Panic)
  | err (e : Err)
deriving DecidableEq, Repr

def Snapshot.validVote (snap : Snapshot) (address : Address) (authorize : Bool) : Bool :=
  (decide (address ∈ snap.signers) && !authorize) || (!decide (address ∈ snap.signers) && authorize)

/-- `inturn`: the remainder by an empty list of signers panics. -/
def Snapshot.inturn (snap : Snapshot) (number : Nat) (signer : Address) : Except Panic Bool :=
  if snap.signers.length = 0 then .error .divideByZero
  else .ok (decide (number % snap.signers.length = snap.signers.idxOf signer))

def diffInTurn : Nat := 2

def diffNoTurn : Nat := 1

def calcDifficulty (snap : Snapshot) (signer : Address) : Except Panic Nat :=
  (snap.inturn ((snap.number + 1) % 2 ^ 64) signer).map fun inturn =>
    if inturn then diffInTurn else diffNoTurn

def nonceAuthVote : Bytes := replicate 8 0xff

def nonceDropVote : Bytes := replicate 8 0

/-- The vote `Prepare` casts: a proposal that makes sense, at random. -/
def castVote (c : Engine) (snap : Snapshot) (pick : Nat) : Option Address :=
  let addresses := (c.proposals.filter fun p => snap.validVote p.1 p.2).map Prod.fst
  addresses[pick % addresses.length]?

/-- `header.Extra` after `Prepare`: vanity, the signers on a checkpoint block, and
room for the seal. -/
def preparedExtra (extra : Bytes) (checkpoint : Bool) (signers : List Address) : Bytes :=
  (extra ++ replicate (extraVanity - extra.length) 0).take extraVanity ++
    (if checkpoint then signers.flatMap Subtype.val else []) ++
    replicate extraSeal 0

/-- `(*Clique).Prepare`. What it asks the chain and the machine for are arguments:
the snapshot at the parent, the parent, a random number and the time. -/
def prepare (c : Engine) (snapshot : Except Err Snapshot) (parent : Option Header)
    (pick now : Nat) (h : Header) : Except Failure Header :=
  match snapshot with
  | .error e => .error (.err e)
  | .ok snap =>
    let number := h.number % 2 ^ 64
    if c.config.epoch = 0 then .error (.panic .divideByZero)
    else
      let checkpoint := decide (number % c.config.epoch = 0)
      let vote := if checkpoint then none else castVote c snap pick
      match calcDifficulty snap c.signer with
      | .error p => .error (.panic p)
      | .ok difficulty =>
        match parent with
        | none => .error (.err .unknownAncestor)
        | some parent =>
          let time := (parent.time + c.config.period) % 2 ^ 64
          .ok { h with
            coinbase := vote.getD zeroAddress
            nonce :=
              match vote with
              | none => replicate 8 0
              | some address =>
                if c.proposals.lookup address = some true then nonceAuthVote
                else nonceDropVote
            difficulty := difficulty
            extra := preparedExtra h.extra checkpoint snap.signers
            mixDigest := zeroHash
            time := if time < now then now else time }

/-! ## FinalizeAndAssemble -/

/-- `types.Withdrawal`. -/
structure Withdrawal where
  index : Nat
  validator : Nat
  address : Address
  amount : Nat

/-- `types.Body`, without the uncles Clique never has. -/
structure Body (Tx : Type) where
  transactions : List Tx
  withdrawals : List Withdrawal

/-- The tries over states, transactions and receipts, the receipts' bloom and the
fork schedule. -/
structure Roots (Tx : Type) where
  stateRoot : (Address → Option Account) → Hash
  deriveTransactions : List Tx → Hash
  deriveReceipts : List Receipt → Hash
  mergeBloom : List Receipt → Bytes
  isEIP158 : Nat → Bool

variable {Tx ε : Type}

/-- `(*StateDB).IntermediateRoot` for a block of the given number. -/
def Roots.intermediateRoot (r : Roots Tx) (number : Nat) (s : StateDB) : Hash :=
  r.stateRoot (s.finalise (r.isEIP158 number)).accounts

/-- `types.NewBlock` for a body without uncles and withdrawals. -/
def newBlock (r : Roots Tx) (h : Header) (txs : List Tx) (receipts : List Receipt) : Block Tx where
  header :=
    { h with
      txHash := if txs.isEmpty then emptyRootHash else r.deriveTransactions txs
      receiptHash :=
        if receipts.isEmpty then emptyRootHash else r.deriveReceipts receipts
      bloom := if receipts.isEmpty then h.bloom else r.mergeBloom receipts
      uncleHash := emptyUncleHash
      withdrawalsHash := none }
  transactions := txs

/-- `(*Clique).FinalizeAndAssemble`. -/
def finalizeAndAssemble (cr : Crypto) (r : Roots Tx) (c : Engine) (h : Header)
    (s : StateDB) (body : Body Tx) (receipts : List Receipt) :
    Except Failure (Block Tx × Engine) :=
  if 0 < body.withdrawals.length then .error (.err .withdrawals)
  else
    match finalize cr c h s with
    | .error p => .error (.panic p)
    | .ok (s, c) =>
      .ok (newBlock r { h with root := r.intermediateRoot h.number s }
        body.transactions receipts, c)

/-- The header with the last 65 bytes of its extra data replaced. -/
def Header.withSeal (h : Header) (sig : Bytes) : Header :=
  { h with extra := h.extra.take (h.extra.length - extraSeal) ++ sig }

/-- `WithSeal`. -/
def Block.withSeal (b : Block Tx) (sig : Bytes) : Block Tx :=
  { b with header := b.header.withSeal sig }

/-! ## The two signers -/

theorem prepare_extra {snapshot : Except Err Snapshot} {parent : Option Header} {pick now : Nat}
    {h₀ : Header} (hp : prepare c snapshot parent pick now h₀ = .ok h) :
    ∃ front : Bytes, h.extra = front ++ replicate extraSeal 0 := by
  unfold prepare at hp
  cases snapshot with
  | error e => cases hp
  | ok snap =>
    simp only at hp
    split at hp
    · cases hp
    split at hp
    · cases hp
    split at hp
    · cases hp
    cases hp
    exact ⟨_, rfl⟩

/-- From 65 zero bytes nothing is recovered: the signer is the zero address, with
an error `Finalize` drops. -/
theorem recoverSigner_zero_seal
    (hzero : ∀ hash, cr.ecrecover hash (replicate extraSeal 0) = none)
    (hextra : h.extra = front ++ replicate extraSeal 0) {r : Address × Option Err}
    (hr : recoverSigner cr h = .ok r) : r = (zeroAddress, some .recoverFailed) := by
  have hlen : ¬ h.extra.length < extraSeal := by
    rw [hextra, length_append, length_replicate]
    omega
  have hsig : h.signature = replicate extraSeal 0 := by
    rw [Header.signature, hextra, length_append, length_replicate,
      Nat.add_sub_cancel, drop_left]
  unfold recoverSigner at hr
  rw [if_neg hlen, hsig] at hr
  split at hr
  · cases hr
  simp only [hzero, Except.ok.injEq] at hr
  exact hr.symm

/-- The block made from a prepared header: its root has the ether at the zero
address. -/
theorem finalizeAndAssemble_ok {r : Roots Tx} {c₁ : Engine} {body : Body Tx}
    {receipts : List Receipt} {b : Block Tx} (hc : Fresh cr H c)
    (hinj : Set.InjOn (Header.hash cr) H) (hh : h ∈ H)
    (hzero : ∀ hash, cr.ecrecover hash (replicate extraSeal 0) = none)
    (hextra : h.extra = front ++ replicate extraSeal 0)
    (ha : finalizeAndAssemble cr r c h s body receipts = .ok (b, c₁)) :
    b = newBlock r { h with root := r.intermediateRoot h.number (s.addBalance zeroAddress total) }
      body.transactions receipts := by
  unfold finalizeAndAssemble at ha
  split at ha
  · cases ha
  next hw =>
  have hspec := hc.finalize hinj hh s
  cases hr : recoverSigner cr h with
  | error p =>
    simp only [hr] at hspec
    rw [hspec] at ha
    cases ha
  | ok res =>
    simp only [hr] at hspec
    obtain ⟨c', -, hf⟩ := hspec
    rw [recoverSigner_zero_seal hzero hextra hr] at hf
    rw [hf] at ha
    cases ha
    rfl

theorem finalizeAndAssemble_exists (r : Roots Tx) (s : StateDB) (txs : List Tx)
    (receipts : List Receipt) (hc : Fresh cr H c) (hinj : Set.InjOn (Header.hash cr) H) (hh : h ∈ H)
    (hfork : NoLaterFork h) :
    ∃ b c₁, finalizeAndAssemble cr r c h s { transactions := txs, withdrawals := [] }
      receipts = .ok (b, c₁) := by
  obtain ⟨res, hr⟩ := (recoverSigner_ok_iff cr h).mpr hfork
  have hspec := hc.finalize hinj hh s
  simp only [hr] at hspec
  obtain ⟨c', -, hf⟩ := hspec
  simp [finalizeAndAssemble, hf]

/-! ## The two roots -/

theorem balance_finalise (s : StateDB) (del : Bool) (a : Address) :
    (s.finalise del).balance a = s.balance a := by
  cases ha : s.accounts a with
  | none => simp [StateDB.balance, StateDB.finalise, ha]
  | some acct =>
    by_cases hdel : (s.dirties a && del && s.isEmpty acct) = true
    · -- an account that is dropped has no balance
      simp only [StateDB.balance, StateDB.finalise, ha, hdel, if_true]
      simp only [StateDB.isEmpty, Bool.and_eq_true, decide_eq_true_eq] at hdel
      exact hdel.2.1.2.symm
    · simp only [StateDB.balance, StateDB.finalise, ha, if_neg hdel]

/-- An ether more at one address is another state. -/
theorem accounts_ne_of_ne {a b : Address} (hab : a ≠ b) (del : Bool) :
    ((s.addBalance a total).finalise del).accounts ≠
      ((s.addBalance b total).finalise del).accounts := by
  intro heq
  have hbal : ((s.addBalance a total).finalise del).balance a =
      ((s.addBalance b total).finalise del).balance a := by
    unfold StateDB.balance
    rw [heq]
  rw [balance_finalise, balance_finalise, balance_addBalance, balance_addBalance,
    if_pos rfl, if_neg hab] at hbal
  have hz : total = 0 := by
    have := congrArg (fun x => x - s.balance a) hbal
    simpa [BitVec.add_comm] using this
  revert hz
  decide

/-- A block that a node prepares, fills with executed transactions, assembles and
seals: `Process` on another node computes the root it carries when and only when
the node's signer is the zero address. -/
theorem assembled_root_iff (cr : Crypto) (r : Roots Tx)
    (execute : Context → StateDB → List Tx → Except ε (StateDB × List Receipt))
    (B : Set (Block Tx)) (c c₁ c' : Engine) (hc : Reachable cr execute B c)
    (hc' : Reachable cr execute B c')
    (hzero : ∀ hash, cr.ecrecover hash (replicate extraSeal 0) = none)
    (snapshot : Except Err Snapshot) (parent : Option Header) (pick now : Nat)
    (h₀ h : Header) (hprep : prepare c snapshot parent pick now h₀ = .ok h)
    (s s₁ : StateDB) (body : Body Tx) (receipts : List Receipt) (gasUsed : Nat)
    (hexec : execute (newEVMBlockContext h c.signer) s body.transactions = .ok (s₁, receipts))
    (b : Block Tx)
    (hasm : finalizeAndAssemble cr r c { h with gasUsed := gasUsed } s₁ body receipts = .ok (b, c₁))
    (sig : Bytes) (hsig : recoverSigner cr (b.withSeal sig).header = .ok (c.signer, none))
    (hinj : Set.InjOn (Header.hash cr)
      (insert { h with gasUsed := gasUsed } (Set.image Block.header B)))
    (hinj' : Set.InjOn (Header.hash cr) (Set.image Block.header (insert (b.withSeal sig) B)))
    (hroot : Set.InjOn r.stateRoot
      {((s₁.addBalance zeroAddress total).finalise (r.isEIP158 h.number)).accounts,
        ((s₁.addBalance c.signer total).finalise (r.isEIP158 h.number)).accounts}) :
    (∃ c₂ s₂ rs, process cr execute c' (b.withSeal sig) s = .ok (c₂, .ok (s₂, rs)) ∧
        b.header.root = r.intermediateRoot b.header.number s₂) ↔
      c.signer = zeroAddress := by
  obtain ⟨front, hextra⟩ := prepare_extra hprep
  have hfresh : Fresh cr (insert { h with gasUsed := gasUsed } (Set.image Block.header B)) c :=
    let hf := hc.fresh (hinj.mono (Set.subset_insert _ _))
    ⟨hf.rewardSnapshots, hf.cache.mono (Set.subset_insert _ _)⟩
  have hb := finalizeAndAssemble_ok hfresh hinj (Set.mem_insert _ _) hzero hextra hasm
  have hfresh' : Fresh cr (Set.image Block.header (insert (b.withSeal sig) B)) c' :=
    let hf := hc'.fresh (hinj'.mono (Set.image_mono (Set.subset_insert _ _)))
    ⟨hf.rewardSnapshots, hf.cache.mono (Set.image_mono (Set.subset_insert _ _))⟩
  have hctx : execute (newEVMBlockContext (b.withSeal sig).header c.signer) s
      (b.withSeal sig).transactions = .ok (s₁, receipts) := by
    subst hb
    exact hexec
  have hproc := (hfresh'.process execute hinj' (Set.mem_image_of_mem _ (Set.mem_insert _ _)) s).1
  rw [outcome_ok hsig hctx] at hproc
  obtain ⟨c₂, hproc⟩ := exists_of_map_snd hproc
  have hnum : b.header.number = h.number := by rw [hb]; rfl
  have hbroot : b.header.root =
      r.intermediateRoot h.number (s₁.addBalance zeroAddress total) := by rw [hb]; rfl
  constructor
  · rintro ⟨c₃, s₂, rs, hproc', heq⟩
    rw [hproc] at hproc'
    cases hproc'
    rw [hbroot, hnum] at heq
    by_contra hne
    exact accounts_ne_of_ne (Ne.symm hne) _ (hroot (by simp) (by simp) heq)
  · intro hz
    refine ⟨c₂, _, receipts, hproc, ?_⟩
    rw [hbroot, hnum, hz]

/-! ## A block of a single signer -/

/-- The genesis block, and the header block 1 starts from. -/
def genesis : Header :=
  { header1 with
    parentHash := zeroHash
    root := emptyRootHash
    difficulty := 1
    number := 0
    time := 0
    extra := replicate extraVanity 0 ++ keyAddress.1 ++ replicate extraSeal 0 }

def template1 : Header :=
  { header1 with root := zeroHash, difficulty := 0, time := 0, extra := [] }

def signers0 : Snapshot := { number := 0, signers := [keyAddress] }

/-- The node with its signing address set. -/
def miner : Engine := { node with signer := keyAddress }

/-- The state tries of block 1: one ether at the key's address, or at the zero
address. -/
def fieldRoots : Roots (List Log) where
  stateRoot := fun accounts =>
    if (accounts keyAddress).isSome then header2.root else header1.root
  deriveTransactions := fun _ => emptyRootHash
  deriveReceipts := fun _ => emptyRootHash
  mergeBloom := fun _ => replicate 256 0
  isEIP158 := fun _ => true

theorem prepare_template1 : prepare miner (.ok signers0) (some genesis) 0 0 template1 =
      .ok { header1 with root := zeroHash } := by
  decide +kernel

theorem fieldCrypto_zero_seal (hash : Hash) :
    fieldCrypto.ecrecover hash (replicate extraSeal 0) = none := by
  have h1 : replicate extraSeal 0 ≠ seal1 := by decide +kernel
  have h2 : replicate extraSeal 0 ≠ seal2 := by decide +kernel
  simp [fieldCrypto, h1, h2]

/-- The engine assembles block 1 with the ether at the zero address. -/
theorem assemble_header1 : ∃ c₁, finalizeAndAssemble fieldCrypto fieldRoots miner
      { header1 with root := zeroHash, gasUsed := 0 } emptyState
      { transactions := [], withdrawals := [] } [] =
        .ok ({ header := header1, transactions := [] }, c₁) := by
  have hfresh : Fresh fieldCrypto {{ header1 with root := zeroHash, gasUsed := 0 }} miner :=
    ⟨rfl, cacheOf_nil _ _⟩
  have hinj := Set.injOn_singleton (Header.hash fieldCrypto)
    { header1 with root := zeroHash, gasUsed := 0 }
  obtain ⟨b, c₁, hasm⟩ := finalizeAndAssemble_exists fieldRoots emptyState [] [] hfresh hinj
    rfl (by decide)
  have hextra : header1.extra = replicate extraVanity 0 ++ replicate extraSeal 0 := by
    decide
  have hb := finalizeAndAssemble_ok hfresh hinj rfl fieldCrypto_zero_seal hextra hasm
  have hroot : fieldRoots.intermediateRoot 1 (emptyState.addBalance zeroAddress total) =
      header1.root := by decide +kernel
  refine ⟨c₁, ?_⟩
  rw [hasm, hb]
  show Except.ok (newBlock fieldRoots { header1 with
    root := (fieldRoots.intermediateRoot 1 (emptyState.addBalance zeroAddress total)) }
    [] [], c₁) = _
  rw [hroot]
  rfl

theorem sealed1_eq : header1.withSeal seal1 = sealed1 := by decide +kernel

theorem process_sealed1 :
    ∃ c₂, process fieldCrypto emit node { header := sealed1, transactions := [] }
      emptyState = .ok (c₂, .ok (emptyState.addBalance keyAddress total, [])) :=
  exists_of_map_snd (process_snd_of_reachable (injOn_sealed []) (.start _)
    (Set.mem_insert (block1 []) _) recoverSigner_sealed1 rfl)

/-- The theorem at a block of the key: another node finds another root. -/
theorem assembled_root_iff_sealed1 :
    ¬ ∃ c₂ s₂ rs, process fieldCrypto emit node { header := sealed1, transactions := [] }
        emptyState = .ok (c₂, .ok (s₂, rs)) ∧
      header1.root = fieldRoots.intermediateRoot 1 s₂ := by
  obtain ⟨c₁, hasm⟩ := assemble_header1
  have hiff := assembled_root_iff fieldCrypto fieldRoots emit ∅ miner c₁ node
    (.authorize keyAddress (.start _)) (.start _) fieldCrypto_zero_seal (.ok signers0)
    (some genesis) 0 0 template1 _ prepare_template1 emptyState emptyState
    { transactions := [], withdrawals := [] } [] 0 rfl _ hasm seal1
    (by
      show recoverSigner fieldCrypto (header1.withSeal seal1) = _
      rw [sealed1_eq]
      exact recoverSigner_sealed1)
    (by
      rw [Set.image_empty, insert_empty_eq]
      exact Set.injOn_singleton _ _)
    (by
      rw [insert_empty_eq, Set.image_singleton]
      exact Set.injOn_singleton _ _)
    (by
      have hne : fieldRoots.stateRoot ((emptyState.addBalance zeroAddress total).finalise
          true).accounts ≠ fieldRoots.stateRoot ((emptyState.addBalance keyAddress
          total).finalise true).accounts := by decide +kernel
      rintro x (rfl | rfl) y (rfl | rfl) hxy
      · rfl
      · exact absurd hxy hne
      · exact absurd hxy.symm hne
      · rfl)
  rintro ⟨c₂, s₂, rs, hproc, heq⟩
  have hz := hiff.mp ⟨c₂, s₂, rs, by
    show process fieldCrypto emit node { header := header1.withSeal seal1, transactions := [] }
      emptyState = _
    rw [sealed1_eq]
    exact hproc, heq⟩
  revert hz
  decide +kernel

/-- The root in the assembled block is not the root of the processed block. -/
theorem assembled_root_differs :
    ∃ c₁ c₂ s₂, prepare miner (.ok signers0) (some genesis) 0 0 template1 =
        .ok { header1 with root := zeroHash } ∧
      finalizeAndAssemble fieldCrypto fieldRoots miner
        { header1 with root := zeroHash, gasUsed := 0 } emptyState
        { transactions := [], withdrawals := [] } [] =
          .ok ({ header := header1, transactions := [] }, c₁) ∧
      recoverSigner fieldCrypto (header1.withSeal seal1) = .ok (miner.signer, none) ∧
      process fieldCrypto emit node
        { header := header1.withSeal seal1, transactions := [] } emptyState =
          .ok (c₂, .ok (s₂, [])) ∧
      header1.root ≠ fieldRoots.intermediateRoot 1 s₂ := by
  obtain ⟨c₁, hasm⟩ := assemble_header1
  obtain ⟨c₂, hproc⟩ := process_sealed1
  refine ⟨c₁, c₂, emptyState.addBalance keyAddress total, prepare_template1, hasm, ?_, ?_, ?_⟩
  · rw [sealed1_eq]
    exact recoverSigner_sealed1
  · rw [sealed1_eq]
    exact hproc
  · decide +kernel

end GoEthereum.Clique

import GoEthereum.Clique.Calls

/-!
# Processing a chain

`StateProcessor.Process` on a Clique chain. It asks the engine for the author of
the block, runs the transactions and calls `Finalize`; it never hands the receipts
to `ProcessRewardEvents`. `outcome` is the engine-free meaning of a block, and
every engine that started with `New` computes it (`Fresh.process`): the post-state
is a function of the chain. The reward is the same function of the block alone,
whatever was announced before; `process_follows_chain_iff` says for which
announcements that is the announced split.

The execution of the transactions is a parameter. It gets what the virtual machine
reads of a header, which leaves out the extra data.
-/

namespace GoEthereum.Clique

open List

variable {c : Engine} {rs : List Receipt} {e : Option Err} {H : Set Header} {s : StateDB}

variable {a signer : Address} {c' : Engine} {s' s₁ : StateDB}

/-- What the execution of a block's transactions reads of its header:
`vm.BlockContext` and the fields behind the system calls. -/
structure Context where
  coinbase : Address
  parentHash : Hash
  number : Nat
  time : Nat
  difficulty : Nat
  gasLimit : Nat
  baseFee : Option Nat
  excessBlobGas : Option Nat
  mixDigest : Hash
  parentBeaconRoot : Option Hash

/-- `NewEVMBlockContext`. -/
def newEVMBlockContext (h : Header) (author : Address) : Context where
  coinbase := author
  parentHash := h.parentHash
  number := h.number
  time := h.time
  difficulty := h.difficulty
  gasLimit := h.gasLimit
  baseFee := h.baseFee
  excessBlobGas := h.excessBlobGas
  mixDigest := h.mixDigest
  parentBeaconRoot := h.parentBeaconRoot

structure Block (Tx : Type) where
  header : Header
  transactions : List Tx

section Process

variable {Tx ε : Type} (cr : Crypto)
  (execute : Context → StateDB → List Tx → Except ε (StateDB × List Receipt))

/-- `(*StateProcessor).Process`. A transaction that cannot be applied ends it with
an error; the engine has cached the author by then. -/
def process (c : Engine) (b : Block Tx) (s : StateDB) :
    Except Panic (Engine × Except ε (StateDB × List Receipt)) :=
  match author cr c b.header with
  | .error p => .error p
  | .ok (beneficiary, _, c) =>
    match execute (newEVMBlockContext b.header beneficiary) s b.transactions with
    | .error e => .ok (c, .error e)
    | .ok (s, receipts) =>
      match finalize cr c b.header s with
      | .error p => .error p
      | .ok (s, c) => .ok (c, .ok (s, receipts))

/-- Blocks on top of each other, with all their receipts. -/
def processChain : Engine → StateDB → List (Block Tx) →
    Except Panic (Engine × Except ε (StateDB × List Receipt))
  | c, s, [] => .ok (c, .ok (s, []))
  | c, s, b :: bs =>
    match process cr execute c b s with
    | .error p => .error p
    | .ok (c, .error e) => .ok (c, .error e)
    | .ok (c, .ok (s, receipts)) =>
      match processChain c s bs with
      | .error p => .error p
      | .ok (c, .error e) => .ok (c, .error e)
      | .ok (c, .ok (s, rest)) => .ok (c, .ok (s, receipts ++ rest))

/-- The engines a node can have after any history over the blocks `B`. A restart
is a new start; looking up the author stands for every header check. -/
inductive Reachable (B : Set (Block Tx)) : Engine → Prop where
  | start (config : Config) : Reachable B (new config)
  | process {c c' : Engine} {b : Block Tx} {s : StateDB} {r : Except ε (StateDB × List Receipt)} :
      Reachable B c → b ∈ B → process cr execute c b s = .ok (c', r) → Reachable B c'
  | author {c c' : Engine} {b : Block Tx} {a : Address} {e : Option Err} :
      Reachable B c → b ∈ B → author cr c b.header = .ok (a, e, c') → Reachable B c'
  | authorize {c : Engine} (signer : Address) :
      Reachable B c → Reachable B { c with signer := signer }
  | propose {c : Engine} (proposals : List (Address × Bool)) :
      Reachable B c → Reachable B { c with proposals := proposals }

/-! ## Every engine computes the same outcome -/

/-- The result of a block, without an engine: the signer gets the whole ether. -/
def outcome (b : Block Tx) (s : StateDB) : Except Panic (Except ε (StateDB × List Receipt)) :=
  match recoverSigner cr b.header with
  | .error p => .error p
  | .ok (signer, _) =>
    match execute (newEVMBlockContext b.header signer) s b.transactions with
    | .error e => .ok (.error e)
    | .ok (s, receipts) => .ok (.ok (s.addBalance signer total, receipts))

def outcomeChain : StateDB → List (Block Tx) → Except Panic (Except ε (StateDB × List Receipt))
  | s, [] => .ok (.ok (s, []))
  | s, b :: bs =>
    match outcome cr execute b s with
    | .error p => .error p
    | .ok (.error e) => .ok (.error e)
    | .ok (.ok (s, receipts)) =>
      match outcomeChain s bs with
      | .error p => .error p
      | .ok (.error e) => .ok (.error e)
      | .ok (.ok (s, rest)) => .ok (.ok (s, receipts ++ rest))

end Process

variable {Tx ε : Type} {cr : Crypto}
  {execute : Context → StateDB → List Tx → Except ε (StateDB × List Receipt)}

variable {B : Set (Block Tx)}

variable {b : Block Tx}

theorem exists_of_map_snd {α β δ : Type} {x : Except δ (α × β)} {b : β}
    (h : x.map Prod.snd = .ok b) : ∃ a, x = .ok (a, b) := by
  cases x with
  | error p => cases h
  | ok r =>
    cases h
    exact ⟨r.1, rfl⟩

theorem Fresh.author {h : Header} (hc : Fresh cr H c) (hinj : Set.InjOn (Header.hash cr) H)
    (hh : h ∈ H) (ha : author cr c h = .ok (a, e, c')) :
    recoverSigner cr h = .ok (a, e) ∧ Fresh cr H c' := by
  have hspec := author_spec hinj hh hc.cache
  cases hr : recoverSigner cr h with
  | error p =>
    simp only [hr] at hspec
    rw [hspec] at ha
    cases ha
  | ok r =>
    simp only [hr] at hspec
    obtain ⟨cache, hcache, ha'⟩ := hspec
    rw [ha'] at ha
    cases ha
    exact ⟨rfl, hc.rewardSnapshots, hcache⟩

variable (execute) in
/-- `Process` computes the outcome and leaves the engine fresh. -/
theorem Fresh.process (hc : Fresh cr H c) (hinj : Set.InjOn (Header.hash cr) H) (hb : b.header ∈ H)
    (s : StateDB) :
    (process cr execute c b s).map Prod.snd = outcome cr execute b s ∧
      ∀ c' r, process cr execute c b s = .ok (c', r) → Fresh cr H c' := by
  unfold Clique.process outcome
  cases ha : Clique.author cr c b.header with
  | error p =>
    have hspec := author_spec hinj hb hc.cache
    cases hr : recoverSigner cr b.header with
    | error q =>
      simp only [hr] at hspec
      rw [hspec] at ha
      cases ha
      exact ⟨rfl, fun c' r h => by cases h⟩
    | ok r =>
      simp only [hr] at hspec
      obtain ⟨cache, -, ha'⟩ := hspec
      rw [ha'] at ha
      cases ha
  | ok r =>
    obtain ⟨signer, e, c₁⟩ := r
    obtain ⟨hr, hc₁⟩ := hc.author hinj hb ha
    simp only [hr]
    cases execute (newEVMBlockContext b.header signer) s b.transactions with
    | error e =>
      refine ⟨rfl, ?_⟩
      intro c' r h
      cases h
      exact hc₁
    | ok sr =>
      obtain ⟨s₁, receipts⟩ := sr
      -- `Finalize` asks for the author a second time
      have hf := hc₁.finalize hinj hb s₁
      simp only [hr] at hf
      obtain ⟨c₂, hc₂, hf⟩ := hf
      simp only [hf]
      refine ⟨rfl, ?_⟩
      intro c' r h
      cases h
      exact hc₂

variable (execute) in
theorem Fresh.processChain (hc : Fresh cr H c) (hinj : Set.InjOn (Header.hash cr) H)
    (bs : List (Block Tx)) (hbs : ∀ b ∈ bs, b.header ∈ H) (s : StateDB) :
    (processChain cr execute c s bs).map Prod.snd = outcomeChain cr execute s bs ∧
      ∀ c' r, processChain cr execute c s bs = .ok (c', r) → Fresh cr H c' := by
  induction bs generalizing c s with
  | nil =>
    refine ⟨rfl, ?_⟩
    intro c' r h
    cases h
    exact hc
  | cons b bs ih =>
    rw [forall_mem_cons] at hbs
    obtain ⟨hout, hfresh⟩ := hc.process execute hinj hbs.1 s
    unfold Clique.processChain outcomeChain
    rw [← hout]
    cases hp : Clique.process cr execute c b s with
    | error p => exact ⟨rfl, fun c' r h => by cases h⟩
    | ok r =>
      obtain ⟨c₁, r⟩ := r
      have hc₁ := hfresh c₁ r hp
      cases r with
      | error e =>
        refine ⟨rfl, ?_⟩
        intro c' r h
        cases h
        exact hc₁
      | ok sr =>
        obtain ⟨s₁, receipts⟩ := sr
        obtain ⟨hrest, hfresh'⟩ := ih hc₁ hbs.2 s₁
        simp only [Except.map, ← hrest]
        cases hp' : Clique.processChain cr execute c₁ s₁ bs with
        | error p => exact ⟨rfl, fun c' r h => by cases h⟩
        | ok r =>
          obtain ⟨c₂, r⟩ := r
          have hc₂ := hfresh' c₂ r hp'
          cases r with
          | error | ok =>
            refine ⟨rfl, ?_⟩
            intro c' r h
            cases h
            exact hc₂

/-- Whatever a node did, its engine has no reward map and a truthful cache. -/
theorem Reachable.fresh (hinj : Set.InjOn (Header.hash cr) (Set.image Block.header B))
    (hc : Reachable cr execute B c) : Fresh cr (Set.image Block.header B) c := by
  induction hc with
  | start config => exact fresh_new cr _ config
  | process _ hb hp ih =>
    exact (ih.process execute hinj (Set.mem_image_of_mem _ hb) _).2 _ _ hp
  | author _ hb ha ih => exact (ih.author hinj (Set.mem_image_of_mem _ hb) ha).2
  | authorize signer _ ih => exact ⟨ih.rewardSnapshots, ih.cache⟩
  | propose proposals _ ih => exact ⟨ih.rewardSnapshots, ih.cache⟩

theorem outcome_ok (hsigner : recoverSigner cr b.header = .ok (signer, e))
    (hexec : execute (newEVMBlockContext b.header signer) s b.transactions = .ok (s₁, rs)) :
    outcome cr execute b s = .ok (.ok (s₁.addBalance signer total, rs)) := by
  simp only [outcome, hsigner, hexec]

theorem outcomeChain_concat {s₀ : StateDB} {chain : List (Block Tx)} {receipts : List Receipt}
    (hchain : outcomeChain cr execute s₀ chain = .ok (.ok (s, receipts)))
    (hb : outcome cr execute b s = .ok (.ok (s', rs))) :
    outcomeChain cr execute s₀ (chain ++ [b]) = .ok (.ok (s', receipts ++ rs)) := by
  induction chain generalizing s₀ receipts with
  | nil =>
    cases hchain
    simp [outcomeChain, hb]
  | cons x chain ih =>
    simp only [cons_append, outcomeChain] at hchain ⊢
    split at hchain
    · cases hchain
    · cases hchain
    next s₁ r₁ ho =>
    split at hchain
    · cases hchain
    · cases hchain
    next s₂ r₂ hrest =>
    cases hchain
    simp only [ih hrest, append_assoc]

/-! ## The reward against the announcements of the chain -/

/-- The split an announcement asks for: the receivers' shares, and the rest for
the signer. -/
def announcedPayments (signer : Address) (set : List Address × List Nat) : List (Address × Nat) :=
  let shares := sharesOf (announcedShare set.2) set.1
  shares ++ restPayment signer (ether - paid shares)

/-- The reward set announced last for `signer` in the receipts of the ancestors. -/
def announcedSet (cr : Crypto) (signer : Address) (receipts : List Receipt) :
    List Address × List Nat :=
  (announced cr signer (receipts.flatMap Receipt.logs)).getD ([], [])

theorem creditedTo_eq_zero_iff (ps : List (Address × Nat)) (a : Address) :
    creditedTo ps a = 0 ↔ ∀ p ∈ ps, p.1 = a → p.2 = 0 := by
  unfold creditedTo
  rw [sum_eq_zero_iff]
  constructor
  · intro h p hp hpa
    have := h _ (mem_map_of_mem hp)
    rwa [if_pos hpa.symm] at this
  · intro h x hx
    obtain ⟨p, hp, rfl⟩ := mem_map.mp hx
    by_cases hpa : a = p.1
    · rw [if_pos hpa]
      exact h p hp hpa.symm
    · rw [if_neg hpa]

theorem creditedTo_eq_paid {ps : List (Address × Nat)} (h : ∀ p ∈ ps, p.1 ≠ a → p.2 = 0) :
    creditedTo ps a = paid ps := by
  unfold creditedTo paid
  congr 1
  apply map_congr_left
  intro p hp
  by_cases hpa : a = p.1
  · rw [if_pos hpa]
  · rw [if_neg hpa, h p hp (Ne.symm hpa)]

/-- The credit of the whole ether to the signer is the announced split exactly
when nobody else has a positive share. -/
theorem credit_eq_announced_iff (s : StateDB) (signer : Address) (set : List Address × List Nat) :
    (∀ a, ((s.addBalance signer total).balance a).toNat =
        ((s.balance a).toNat + creditedTo (announcedPayments signer set) a) % 2 ^ 256) ↔
      ∀ p ∈ sharesOf (announcedShare set.2) set.1, p.1 ≠ signer → p.2 = 0 := by
  have hpaid : paid (sharesOf (announcedShare set.2) set.1) ≤ ether := by
    rw [paid, map_snd_sharesOf]
    exact sum_announcedShare_le set.2 set.1.length
  have hether : ether < 2 ^ 256 := by norm_num [ether]
  have hcredit : ∀ a, ((s.addBalance signer total).balance a).toNat =
      ((s.balance a).toNat + if a = signer then ether else 0) % 2 ^ 256 := by
    intro a
    have h := balance_addBalances s [(signer, total)] a
    simp only [StateDB.addBalances, foldl_cons, foldl_nil, inWei, map_cons,
      map_nil, creditedTo, sum_cons, sum_nil, Nat.add_zero,
      total_toNat] at h
    exact h
  simp only [hcredit, announcedPayments, creditedTo_append, creditedTo_restPayment]
  constructor
  · intro h p hp hne
    have ha := h p.1
    rw [if_neg hne, if_neg hne] at ha
    have hle := creditedTo_le_paid (sharesOf (announcedShare set.2) set.1) p.1
    have hlt := (s.balance p.1).isLt
    have hzero : creditedTo (sharesOf (announcedShare set.2) set.1) p.1 = 0 := by
      omega
    exact (creditedTo_eq_zero_iff _ _).mp hzero p hp rfl
  · intro h a
    by_cases ha : a = signer
    · subst ha
      rw [if_pos rfl, if_pos rfl, creditedTo_eq_paid h, Nat.add_sub_cancel' hpaid]
    · rw [if_neg ha, if_neg ha]
      have hzero := (creditedTo_eq_zero_iff (sharesOf (announcedShare set.2) set.1) a).mpr
        (fun p hp hpa => h p hp (by rw [hpa]; exact ha))
      rw [hzero]

/-- The block's result is a function of its chain: both engines reach one
post-state, on top of the parent's state and by replaying the chain, and in it the
reward over the state `s₁` left by the transactions is split by the announcement
in force. -/
def FollowsChain (cr : Crypto)
    (execute : Context → StateDB → List Tx → Except ε (StateDB × List Receipt))
    (c₁ c₂ : Engine) (s₀ : StateDB) (chain : List (Block Tx)) (b : Block Tx)
    (s s₁ : StateDB) (signer : Address) (receipts rs : List Receipt) : Prop :=
  ∃ s' : StateDB, (∀ c ∈ [c₁, c₂], (process cr execute c b s).map Prod.snd = .ok (.ok (s', rs)) ∧
      (processChain cr execute c s₀ (chain ++ [b])).map Prod.snd = .ok (.ok (s', receipts ++ rs))) ∧
    ∀ a, (s'.balance a).toNat = ((s₁.balance a).toNat +
      creditedTo (announcedPayments signer (announcedSet cr signer receipts)) a) % 2 ^ 256

theorem process_snd_of_reachable (hinj : Set.InjOn (Header.hash cr) (Set.image Block.header B))
    (hc : Reachable cr execute B c) (hb : b ∈ B)
    (hsigner : recoverSigner cr b.header = .ok (signer, e))
    (hexec : execute (newEVMBlockContext b.header signer) s b.transactions = .ok (s₁, rs)) :
    (process cr execute c b s).map Prod.snd = .ok (.ok (s₁.addBalance signer total, rs)) := by
  rw [((hc.fresh hinj).process execute hinj (Set.mem_image_of_mem _ hb) s).1]
  exact outcome_ok hsigner hexec

/-- On every tree of blocks without two headers of one hash, for any two engines
with a history over the tree: the result of a block follows its chain when and
only when the announcement in force gives nobody but the signer a positive
share. -/
theorem process_follows_chain_iff (cr : Crypto)
    (execute : Context → StateDB → List Tx → Except ε (StateDB × List Receipt))
    (B : Set (Block Tx)) (hinj : Set.InjOn (Header.hash cr) (Set.image Block.header B))
    (c₀ c₀' c₁ c₂ : Engine) (h₀ : Reachable cr execute B c₀)
    (h₁ : Reachable cr execute B c₁) (h₂ : Reachable cr execute B c₂)
    (s₀ s s₁ : StateDB) (chain : List (Block Tx)) (hchain : ∀ x ∈ chain, x ∈ B)
    (b : Block Tx) (hb : b ∈ B) (receipts rs : List Receipt)
    (hrun : processChain cr execute c₀ s₀ chain = .ok (c₀', .ok (s, receipts)))
    (signer : Address) (e : Option Err)
    (hsigner : recoverSigner cr b.header = .ok (signer, e))
    (hexec : execute (newEVMBlockContext b.header signer) s b.transactions = .ok (s₁, rs)) :
    FollowsChain cr execute c₁ c₂ s₀ chain b s s₁ signer receipts rs ↔
      ∀ p ∈ sharesOf (announcedShare (announcedSet cr signer receipts).2)
          (announcedSet cr signer receipts).1, p.1 ≠ signer → p.2 = 0 := by
  have hheaders : ∀ x ∈ chain, x.header ∈ Set.image Block.header B :=
    fun x hx => Set.mem_image_of_mem _ (hchain x hx)
  have hblock := fun c (hc : Reachable cr execute B c) =>
    process_snd_of_reachable hinj hc hb hsigner hexec
  have hout : outcomeChain cr execute s₀ (chain ++ [b]) =
      .ok (.ok (s₁.addBalance signer total, receipts ++ rs)) := by
    have hanc := ((h₀.fresh hinj).processChain execute hinj chain hheaders s₀).1
    rw [hrun] at hanc
    exact outcomeChain_concat hanc.symm (outcome_ok hsigner hexec)
  have hreplay : ∀ c, Reachable cr execute B c →
      (processChain cr execute c s₀ (chain ++ [b])).map Prod.snd =
        .ok (.ok (s₁.addBalance signer total, receipts ++ rs)) := by
    intro c hc
    rw [((hc.fresh hinj).processChain execute hinj (chain ++ [b]) ?_ s₀).1, hout]
    intro x hx
    rcases mem_append.mp hx with hx | hx
    · exact hheaders x hx
    · rw [mem_singleton.mp hx]
      exact Set.mem_image_of_mem _ hb
  rw [← credit_eq_announced_iff s₁]
  constructor
  · rintro ⟨s', hagree, hsplit⟩
    have heq := (hagree c₁ (by simp)).1
    rw [hblock c₁ h₁] at heq
    cases heq
    exact hsplit
  · intro hsplit
    refine ⟨s₁.addBalance signer total, ?_, hsplit⟩
    intro c hc
    have hr : Reachable cr execute B c := by
      rcases mem_cons.mp hc with rfl | hc
      · exact h₁
      · rw [mem_singleton.mp hc]
        exact h₂
    exact ⟨hblock c hr, hreplay c hr⟩

/-! ## A chain of two blocks -/

/-- Transactions that only emit logs. -/
def emit : Context → StateDB → List (List Log) → Except Empty (StateDB × List Receipt) :=
  fun _ s txs => .ok (s, txs.map fun logs => { logs := logs })

def block1 (txs : List (List Log)) : Block (List Log) :=
  { header := sealed1, transactions := txs }

def block2 : Block (List Log) := { header := sealed2, transactions := [] }

def node : Engine := new { period := 5, epoch := 30000 }

theorem hash_sealed1 : header2.parentHash = sealed1.hash fieldCrypto := by decide +kernel

theorem injOn_sealed (txs : List (List Log)) :
    Set.InjOn (Header.hash fieldCrypto) (Set.image Block.header {block1 txs, block2}) := by
  have hne : sealed1.hash fieldCrypto ≠ sealed2.hash fieldCrypto := by decide +kernel
  rintro _ ⟨x, hx, rfl⟩ _ ⟨y, hy, rfl⟩ hxy
  rcases hx with rfl | rfl <;> rcases hy with rfl | rfl
  · rfl
  · exact absurd hxy hne
  · exact absurd hxy.symm hne
  · rfl

theorem processChain_singleton (h : process cr execute c b s = .ok (c', .ok (s', rs))) :
    processChain cr execute c s [b] = .ok (c', .ok (s', rs)) := by
  simp only [processChain, h, append_nil]

theorem processChain_block1 (txs : List (List Log)) :
    ∃ c, Reachable fieldCrypto emit {block1 txs, block2} c ∧
      processChain fieldCrypto emit node emptyState [block1 txs] =
        .ok (c, .ok (emptyState.addBalance keyAddress total, txs.map fun logs => ⟨logs⟩)) := by
  have hstart : Reachable fieldCrypto emit {block1 txs, block2} node := .start _
  have hmem : block1 txs ∈ ({block1 txs, block2} : Set _) := Set.mem_insert _ _
  obtain ⟨c, hp⟩ := exists_of_map_snd (process_snd_of_reachable (s := emptyState)
    (injOn_sealed txs) hstart hmem recoverSigner_sealed1 rfl)
  exact ⟨c, hstart.process hmem hp, processChain_singleton hp⟩

/-- Without an announcement two nodes agree on the second block, and its signer
has the whole ether. -/
theorem process_follows_chain_iff_block2 :
    ∃ c s, processChain fieldCrypto emit node emptyState [block1 []] = .ok (c, .ok (s, [])) ∧
      FollowsChain fieldCrypto emit c node emptyState [block1 []] block2 s s keyAddress
        [] [] := by
  obtain ⟨c, hc, hrun⟩ := processChain_block1 []
  refine ⟨c, _, hrun, ?_⟩
  refine (process_follows_chain_iff fieldCrypto emit {block1 [], block2}
    (injOn_sealed []) node c c node (.start _) hc (.start _) emptyState _ _ [block1 []] ?_
    block2 (by simp) [] [] hrun keyAddress none recoverSigner_sealed2 rfl).mpr ?_
  · intro x hx
    rw [mem_singleton.mp hx]
    exact Set.mem_insert _ _
  · intro p hp
    cases hp

/-- The event of block 1 shares the signer's rewards; block 2 pays the signer
alone. -/
theorem announced_split_is_not_paid :
    ∃ c s, processChain fieldCrypto emit node emptyState [block1 [[rewardLog 1 3]]] =
        .ok (c, .ok (s, [⟨[rewardLog 1 3]⟩])) ∧
      header2.parentHash = sealed1.hash fieldCrypto ∧
      ¬ FollowsChain fieldCrypto emit c c emptyState [block1 [[rewardLog 1 3]]] block2 s s
        keyAddress [⟨[rewardLog 1 3]⟩] [] := by
  obtain ⟨c, hc, hrun⟩ := processChain_block1 [[rewardLog 1 3]]
  refine ⟨c, _, hrun, hash_sealed1, ?_⟩
  rintro ⟨s', hagree, hsplit⟩
  have hproc := (hagree c (by simp)).1
  rw [process_snd_of_reachable (injOn_sealed _) hc (Set.mem_insert_of_mem _ rfl)
    recoverSigner_sealed2 rfl] at hproc
  cases hproc
  have hset : announcedSet fieldCrypto keyAddress [⟨[rewardLog 1 3]⟩] = (twoReceivers, [1, 3]) := by
    simp [announcedSet, announced, rewardEvent_rewardLog]
  rw [hset] at hsplit
  have hzero := (credit_eq_announced_iff _ _ _).mp hsplit
    (bigToAddress 0xa1, announcedShare [1, 3] 0) (by decide +kernel) (by decide +kernel)
  revert hzero
  decide

end GoEthereum.Clique

import GoEthereum.Core.Reorg

/-!
# The canonical index over whole runs

A chain is sound if its blocks are in the tree, its index is that of its head, and all markers
name the head. Every call that returns without an error keeps a chain sound, whatever the
environment answers and whatever else it does between the calls.
-/

namespace GoEthereum.Core

open List

variable {W : Type} {env : Env W} {T : Tree}

variable {block : Block} {hash : Hash} {items : List Item} {fuel : Nat} {previous : Option Block}
  {err : Option Err}

variable {current : Block} {interruptible : Bool} {rest : List Item} {previous' : Option Block}

structure BlockChain.Sound (T : Tree) (s : BlockChain W) : Prop extends s.Consistent T where
  indexes : s.index.Indexes T s.index.currentBlock
  headHeader : s.index.headHeader = s.index.currentBlock.hash
  headFast : s.index.headFast = s.index.currentBlock.hash
  headBlock : s.index.headBlock = s.index.currentBlock.hash
  currentHeader : s.index.currentHeader = s.index.currentBlock
  currentSnapBlock : s.index.currentSnapBlock = s.index.currentBlock

namespace BlockChain

variable {s s' : BlockChain W} {chain : List Block}

/-- The chain is sound if the call returns without an error. -/
def Keeps (T : Tree) (r : BlockChain W × Option Err) : Prop := r.2 = none → r.1.Sound T

theorem Keeps.of_error {err : Err} : Keeps T (s, some err) := by
  rintro ⟨⟩

/-! ## Steps -/

theorem Sound.of_eq (h : s.Sound T) (hblocks : s'.blocks = s.blocks)
    (hindex : s'.index = s.index) : s'.Sound T := by
  constructor
  · constructor
    · rw [hblocks]
      exact h.stored
    · rw [hindex]
      exact h.head_mem
    · rw [hindex]
      exact h.lists
  all_goals rw [hindex]
  · exact h.indexes
  · exact h.headHeader
  · exact h.headFast
  · exact h.headBlock
  · exact h.currentHeader
  · exact h.currentSnapBlock

theorem Sound.writeBlock {s : BlockChain W} (h : s.Sound T) (hblock : block ∈ T.blocks) :
    (s.writeBlock block).Sound T :=
  { h with stored := forall_mem_cons.mpr ⟨hblock, h.stored⟩ }

theorem Sound.setHead (hT : T.Valid) (h : s.Sound T) (hblock : block ∈ T.blocks)
    (hok : (s.setHead block).2 = none) :
    (s.setHead block).1.Sound T ∧ (s.setHead block).1.index.currentBlock = block := by
  obtain ⟨hcons, hindexes, x, hx⟩ := (setHead_spec s block).2 T h.toConsistent hblock hok
  have hindexes := hindexes hT h.indexes
  have hcur : (s.setHead block).1.index.currentBlock = block := by
    rw [hx]
    rfl
  refine ⟨⟨hcons, ?_, ?_, ?_, ?_, ?_, ?_⟩, hcur⟩
  · rw [hcur]
    exact hindexes
  all_goals
    rw [hx]
    rfl

variable {setHead : Bool}

theorem Sound.insertStopped (h : s.Sound T) : Sound T { s with checks := s.checks + 1 } :=
  h.of_eq rfl rfl

variable (env)

theorem Sound.writeBlockWithState (h : s.Sound T) (hblock : block ∈ T.blocks) :
    (s.writeBlockWithState env block).1.Sound T := by
  rw [BlockChain.writeBlockWithState]
  split
  · exact h
  · exact (h.writeBlock hblock).of_eq rfl rfl

theorem Sound.processBlock (hT : T.Valid) (h : s.Sound T) (hblock : block ∈ T.blocks)
    (root : Hash) (setHead : Bool) : Keeps T (s.processBlock env root block setHead) := by
  rw [BlockChain.processBlock]
  rcases env.execute s.world root block with ⟨_ | msg, world⟩
  · have hworld : Sound T { s with world := world } := h.of_eq rfl rfl
    have hs₁ := hworld.writeBlockWithState env hblock
    cases setHead with
    | false => exact fun _ => hs₁
    | true =>
      dsimp only
      rw [if_pos rfl, writeBlockAndSetHead]
      generalize BlockChain.writeBlockWithState env { s with world := world } block = r at hs₁ ⊢
      obtain ⟨s₁, _ | err⟩ := r
      · exact fun hok => (hs₁.setHead hT hblock hok).1
      · exact .of_error
  · exact .of_error

/-! ## Loops -/

theorem skipKnown_mem {s : BlockChain W} :
    ∀ item ∈ (s.skipKnown env previous items).2, item ∈ items := by
  induction items generalizing previous with
  | nil => exact fun _ hitem => hitem
  | cons item items ih =>
    rw [skipKnown]
    split
    · exact fun x hx => mem_cons_of_mem item (ih x hx)
    · exact fun _ hitem => hitem

theorem Sound.writeKnown (hT : T.Valid) (h : s.Sound T)
    (hitems : ∀ item ∈ items, item.1 ∈ T.blocks) (previous : Option Block) :
    Leads (s.writeKnown env previous items) fun s' r => r.1 = none →
      s'.Sound T ∧ ∀ item ∈ r.2.2, item.1 ∈ T.blocks := by
  induction items generalizing s previous with
  | nil => exact fun _ => ⟨h, hitems⟩
  | cons item items ih =>
    rw [BlockChain.writeKnown, writeKnownBlock]
    split
    · have hset := h.setHead hT (hitems item mem_cons_self)
      generalize s.setHead item.1 = r at hset ⊢
      obtain ⟨s₁, _ | err⟩ := r
      · exact ih (hset rfl).1 (fun x hx => hitems x (mem_cons_of_mem item hx)) (some item.1)
      · rintro ⟨⟩
    · exact fun _ => ⟨h, hitems⟩

theorem Sound.importBlock (hT : T.Valid) (h : s.Sound T) (hblock : block ∈ T.blocks)
    (setHead : Bool) (previous : Option Block) (err : Option Err) :
    Leads (s.importBlock env setHead previous block err) fun s' loop =>
      (∀ err, loop ≠ .done (some err)) → s'.Sound T := by
  rw [BlockChain.importBlock, BlockChain.insertStopped]
  have hs₁ := h.insertStopped
  generalize { s with checks := s.checks + 1 } = s₁ at hs₁ ⊢
  cases env.insertStopped s.checks with
  | true => exact fun _ => hs₁
  | false =>
    dsimp only
    rw [writeKnownBlock]
    split
    · have hset := hs₁.setHead hT hblock
      generalize s₁.setHead block = r at hset ⊢
      obtain ⟨s₂, _ | err⟩ := r
      · exact fun _ => (hset rfl).1
      · exact fun hloop => absurd rfl (hloop err)
    · split
      · exact fun hloop => absurd rfl (hloop .panic)
      · next parent _ =>
          have hprocess := hs₁.processBlock env hT hblock parent.root setHead
          generalize s₁.processBlock env parent.root block setHead = r at hprocess ⊢
          obtain ⟨s₂, _ | err⟩ := r
          · exact fun _ => hprocess rfl
          · exact fun hloop => absurd rfl (hloop err)

/-- The main loop goes on with a block that is valid or known, and refuses any other. -/
theorem importBlocks_cons (s : BlockChain W) (previous : Option Block) (item : Item)
    (items : List Item) : s.importBlocks env setHead previous (item :: items) =
      if s.nextErr env item = none ∨ s.nextErr env item = some .ErrKnownBlock then
        match s.importBlock env setHead previous item.1 (s.nextErr env item) with
        | (s, .done err) => (s, err)
        | (s, .next) => s.importBlocks env setHead (some item.1) items
      else (s, s.nextErr env item) := by
  rw [importBlocks]
  split
  · next hnone =>
      rw [hnone]
      exact (if_pos (.inl rfl)).symm
  · next hknown =>
      rw [hknown]
      exact (if_pos (.inr rfl)).symm
  · next err hne hother =>
      rw [hother, if_neg]
      rintro (hnone | hknown)
      · cases hnone
      · exact hne (Option.some.inj hknown)

theorem Sound.importBlocks (hT : T.Valid) (h : s.Sound T)
    (hitems : ∀ item ∈ items, item.1 ∈ T.blocks) :
    Keeps T (s.importBlocks env setHead previous items) := by
  induction items generalizing s previous with
  | nil => exact fun _ => h
  | cons item items ih =>
    rw [importBlocks_cons]
    split
    · have hone := h.importBlock env hT (hitems item mem_cons_self) setHead previous
        (s.nextErr env item)
      generalize s.importBlock env setHead previous item.1 (s.nextErr env item) = r at hone ⊢
      obtain ⟨s₁, _ | err⟩ := r
      · exact ih (hone fun err => Loop.noConfusion) fun x hx => hitems x (mem_cons_of_mem item hx)
      · rintro ⟨⟩
        exact hone fun err hdone => by cases hdone
    · next hne => exact fun hnone => absurd (.inl hnone) hne

/-! ## Pruned ancestors -/

theorem Sound.writeSideBlock (h : s.Sound T) (hblock : block ∈ T.blocks) (current : Block) :
    (s.writeSideBlock env current block).1.Sound T := by
  rw [BlockChain.writeSideBlock]
  generalize (if current.number ≥ block.number then s.getBlockByNumber block.number else none) =
    canonical
  split_ifs
  · exact h
  · exact h
  · exact h
  · rw [writeBlockWithoutState, BlockChain.insertStopped]
    cases env.insertStopped s.checks with
    | true => exact h.insertStopped
    | false => exact h.insertStopped.writeBlock hblock

theorem Sound.writeSideBlocks (h : s.Sound T) (hblock : block ∈ T.blocks)
    (hitems : ∀ item ∈ items, item.1 ∈ T.blocks) (current : Block) :
    Leads (s.writeSideBlocks env current block items) fun s' r => ∀ last, r = .ok last →
      s'.Sound T := by
  induction items generalizing s block with
  | nil =>
    rw [BlockChain.writeSideBlocks]
    have hs₁ := h.writeSideBlock env hblock current
    generalize s.writeSideBlock env current block = r at hs₁ ⊢
    obtain ⟨s₁, _ | err⟩ := r
    · exact fun _ _ => hs₁
    · rintro last ⟨⟩
  | cons item items ih =>
    rw [BlockChain.writeSideBlocks]
    have hs₁ := h.writeSideBlock env hblock current
    generalize s.writeSideBlock env current block = r at hs₁ ⊢
    obtain ⟨s₁, _ | err⟩ := r
    · dsimp only
      split
      · exact ih hs₁ (hitems item mem_cons_self) fun x hx => hitems x (mem_cons_of_mem item hx)
      · exact fun _ _ => hs₁
    · rintro last ⟨⟩

theorem searchState_eq (s : BlockChain W) (interruptible : Bool) (block : Block) :
    Leads (s.searchState env interruptible block) fun s' search =>
    s'.blocks = s.blocks ∧ s'.index = s.index ∧
      ∀ parent, search = .parent parent → s.parentOf block = some parent := by
  rw [searchState]
  split
  · exact ⟨rfl, rfl, by rintro _ ⟨⟩⟩
  split
  · rcases env.recover s.world block.root with ⟨_ | msg, world⟩
    · exact ⟨rfl, rfl, by rintro _ ⟨⟩⟩
    · exact ⟨rfl, rfl, by rintro _ ⟨⟩⟩
  have hstop : ∃ stopped s₁, (if interruptible then s.insertStopped env else (false, s)) =
      (stopped, s₁) ∧ s₁.blocks = s.blocks ∧ s₁.index = s.index := by
    cases interruptible with
    | false => exact ⟨_, _, rfl, rfl, rfl⟩
    | true => exact ⟨_, _, rfl, rfl, rfl⟩
  obtain ⟨stopped, s₁, hcheck, hblocks, hindex⟩ := hstop
  rw [hcheck]
  cases stopped with
  | true => exact ⟨hblocks, hindex, by rintro _ ⟨⟩⟩
  | false =>
    have hsame : s₁.parentOf block = s.parentOf block := by
      rw [parentOf, getBlock, hblocks]
      rfl
    dsimp only
    rw [hsame]
    cases s.parentOf block with
    | none => exact ⟨hblocks, hindex, by rintro _ ⟨⟩⟩
    | some parent => exact ⟨hblocks, hindex, fun p hp => by rw [Search.parent.inj hp]⟩

/-- The walk to a block with state changes the environment only, and what it passes are
ancestors of a block if it starts at one. -/
theorem pruned_spec (T : Tree) (s : BlockChain W) (interruptible : Bool) (n : Nat)
    (block top : Block) (chain : List Block) :
    Leads (s.pruned env interruptible n block chain) fun s' r =>
      s'.blocks = s.blocks ∧ s'.index = s.index ∧ ∀ passed, r = .ok passed →
        (∀ b ∈ s.blocks, b ∈ T.blocks) → block ∈ T.blocks → T.Ancestor block top →
        (∀ x ∈ chain, x ∈ T.blocks ∧ T.Ancestor x top) →
        ∀ x ∈ passed, x ∈ T.blocks ∧ T.Ancestor x top := by
  induction n using Nat.strong_induction_on generalizing s block chain with
  | h n ih =>
    rw [pruned]
    obtain ⟨hblocks, hindex, hparent⟩ := searchState_eq env s interruptible block
    generalize s.searchState env interruptible block = r at hblocks hindex hparent ⊢
    obtain ⟨s₁, _ | err | p⟩ := r
    · refine ⟨hblocks, hindex, ?_⟩
      rintro _ ⟨⟩ - - - hchain
      exact hchain
    · exact ⟨hblocks, hindex, by rintro _ ⟨⟩⟩
    · cases n with
      | zero => exact ⟨hblocks, hindex, by rintro _ ⟨⟩⟩
      | succ n =>
        obtain ⟨hblocks', hindex', hpassed⟩ := ih n (Nat.lt_succ_self n) s₁ p (block :: chain)
        refine ⟨hblocks'.trans hblocks, hindex'.trans hindex, ?_⟩
        intro passed hok hstored hb hanc hchain
        have hp := parentOf_parent hstored hb (hparent p rfl)
        refine hpassed passed hok ?_ hp.1 (hanc.head hp) (forall_mem_cons.mpr ⟨⟨hb, hanc⟩, hchain⟩)
        intro x hx
        exact hstored x (hblocks ▸ hx)

section Insert

variable {insert : BlockChain W → List Block → BlockChain W × Option Err}
  (hinsert : ∀ {s : BlockChain W} {chain : List Block}, s.Sound T → (∀ b ∈ chain, b ∈ T.blocks) →
    Keeps T (insert s chain))

include hinsert

theorem Sound.importSegments (h : s.Sound T) {blocks chain : List Block}
    (hblocks : ∀ b ∈ blocks, b ∈ T.blocks) {memory : Nat} :
    Keeps T (s.importSegments env insert blocks memory chain) := by
  induction chain generalizing s blocks memory with
  | nil =>
    rw [BlockChain.importSegments]
    split
    · exact fun _ => h
    · exact hinsert h hblocks
  | cons header chain ih =>
    rw [BlockChain.importSegments]
    cases hget : s.getBlock header.hash header.number with
    | none => exact .of_error
    | some block =>
      have hmore : ∀ b ∈ blocks ++ [block], b ∈ T.blocks := by
        intro b hb
        obtain hb | hb := mem_append.mp hb
        · exact hblocks b hb
        · rw [mem_singleton.mp hb]
          exact h.stored block (getBlock_some hget).1
      dsimp only
      split
      · have hins := hinsert h hmore
        generalize insert s (blocks ++ [block]) = r at hins ⊢
        obtain ⟨s₁, _ | err⟩ := r
        · have hs₂ := (hins rfl).insertStopped
          dsimp only
          rw [BlockChain.insertStopped]
          cases env.insertStopped s₁.checks with
          | true => exact fun _ => hs₂
          | false => exact ih hs₂ fun b hb => absurd hb not_mem_nil
        · exact .of_error
      · exact ih h hmore

theorem Sound.insertSideChain (h : s.Sound T) (hblock : block ∈ T.blocks)
    (hitems : ∀ item ∈ items, item.1 ∈ T.blocks) :
    Keeps T (s.insertSideChain env insert block items) := by
  rw [BlockChain.insertSideChain]
  have hside := h.writeSideBlocks env hblock hitems s.index.currentBlock
  generalize s.writeSideBlocks env s.index.currentBlock block items = r at hside ⊢
  obtain ⟨s₁, err | last⟩ := r
  · exact .of_error
  · dsimp only
    obtain ⟨hblocks, hindex, -⟩ := pruned_spec env T s₁ false last.number last last []
    generalize s₁.pruned env false last.number last [] = r at hblocks hindex ⊢
    obtain ⟨s₂, err | chain⟩ := r
    · exact .of_error
    · exact ((hside last rfl).of_eq hblocks hindex).importSegments env hinsert
        fun b hb => absurd hb not_mem_nil

theorem Sound.reinsert (h : s.Sound T) (hblock : block ∈ T.blocks) :
    Leads (s.reinsert env insert block chain) fun s' r => r.2 = none → s'.Sound T := by
  induction chain generalizing s with
  | nil => exact fun _ => h
  | cons header chain ih =>
    rw [BlockChain.reinsert, BlockChain.insertStopped]
    have hs₁ := h.insertStopped
    generalize { s with checks := s.checks + 1 } = s₁ at hs₁ ⊢
    cases env.insertStopped s.checks with
    | true => rintro ⟨⟩
    | false =>
      dsimp only
      cases hget : (if chain.isEmpty then some block
          else s₁.getBlock header.hash header.number) with
      | none => rintro ⟨⟩
      | some b =>
        have hb : b ∈ T.blocks := by
          split at hget
          · rw [← Option.some.inj hget]
            exact hblock
          · exact hs₁.stored b (getBlock_some hget).1
        have hins := hinsert hs₁ (forall_mem_singleton.mpr hb)
        dsimp only
        generalize insert s₁ [b] = r at hins ⊢
        obtain ⟨s₂, _ | err⟩ := r
        · exact ih (hins rfl)
        · rintro ⟨⟩

theorem Sound.recoverAncestors (h : s.Sound T) (hblock : block ∈ T.blocks) :
    Leads (s.recoverAncestors env insert block) fun s' r => r.2 = none → s'.Sound T := by
  rw [BlockChain.recoverAncestors]
  obtain ⟨hblocks, hindex, -⟩ := pruned_spec env T s true block.number block block []
  generalize s.pruned env true block.number block [] = r at hblocks hindex ⊢
  obtain ⟨s₁, err | chain⟩ := r
  · rintro ⟨⟩
  · exact (h.of_eq hblocks hindex).reinsert env hinsert hblock

end Insert

/-! ## The calls -/

theorem Sound.insertBatch (hT : T.Valid)
    {insert : BlockChain W → List Block → Bool → BlockChain W × Option Err}
    (hinsert : ∀ {s : BlockChain W} {chain : List Block} {setHead : Bool}, s.Sound T →
      (∀ b ∈ chain, b ∈ T.blocks) → Keeps T (insert s chain setHead))
    (h : s.Sound T) (hchain : ∀ b ∈ chain, b ∈ T.blocks) :
    Keeps T (s.insertBatch env insert chain setHead) := by
  rw [BlockChain.insertBatch]
  split
  · exact .of_error
  generalize hitems : (chain.map fun block =>
    (block, env.verifyHeaders s.world s.blocks chain block)) = items
  have hrest : ∀ item ∈ (s.skipKnown env none items).2, item.1 ∈ T.blocks := by
    have hmem : ∀ item ∈ items, item.1 ∈ T.blocks := by
      rw [← hitems]
      exact forall_mem_map.mpr hchain
    exact fun item hitem => hmem item (skipKnown_mem env item hitem)
  dsimp only
  generalize s.skipKnown env none items = r at hrest ⊢
  obtain ⟨previous, rest⟩ := r
  have hknown := h.writeKnown env hT hrest previous
  dsimp only
  generalize s.writeKnown env previous rest = r at hknown ⊢
  obtain ⟨s₁, _ | err, previous', _ | ⟨item, items⟩⟩ := r
  · exact fun _ => (hknown rfl).1
  · obtain ⟨hs₁, hrest'⟩ := hknown rfl
    have hblock := hrest' item mem_cons_self
    dsimp only
    split
    · cases setHead with
      | true =>
        exact hs₁.insertSideChain env (fun hs hb => hinsert hs hb) hblock
          fun x hx => hrest' x (mem_cons_of_mem item hx)
      | false => exact hs₁.recoverAncestors env (fun hs hb => hinsert hs hb) hblock
    · exact hs₁.importBlocks env hT hrest'
  · exact .of_error
  · exact .of_error

section

variable (hT : T.Valid) (h : s.Sound T)
include hT h

theorem Sound.insertChain (hchain : ∀ b ∈ chain, b ∈ T.blocks) :
    Keeps T (s.insertChain env fuel chain setHead) := by
  induction fuel generalizing s chain setHead with
  | zero => exact .of_error
  | succ fuel ih =>
    rw [BlockChain.insertChain, BlockChain.insertStopped]
    cases env.insertStopped s.checks with
    | true => exact fun _ => h.insertStopped
    | false => exact h.insertStopped.insertBatch env hT (fun hs hb => ih hs hb) hchain

theorem Sound.InsertChain
    (hchain : ∀ b ∈ chain, b ∈ T.blocks) : Keeps T (s.InsertChain env fuel chain) := by
  rw [BlockChain.InsertChain]
  split
  · exact fun _ => h
  split
  · exact .of_error
  split
  · exact .of_error
  · exact h.insertChain env hT hchain

theorem Sound.InsertBlockWithoutSetHead
    (hblock : block ∈ T.blocks) : Keeps T (s.InsertBlockWithoutSetHead env fuel block) := by
  rw [BlockChain.InsertBlockWithoutSetHead]
  split
  · exact .of_error
  · exact h.insertChain env hT (forall_mem_singleton.mpr hblock)

theorem Sound.SetCanonical {head : Block} (hhead : head ∈ T.blocks) :
    Leads (s.SetCanonical env fuel head) fun s' r => r.2 = none →
      s'.Sound T ∧ s'.index.currentBlock = head := by
  rw [BlockChain.SetCanonical]
  split
  · rintro ⟨⟩
  have hrecover : Leads (if env.hasState s.world head.root then (s, zeroHash, none)
      else s.recoverAncestors env (BlockChain.insertChain env fuel · · false) head)
      fun s' r => r.2 = none → s'.Sound T := by
    split
    · exact fun _ => h
    · exact h.recoverAncestors env (fun hs hb => hs.insertChain env hT hb) hhead
  generalize (if env.hasState s.world head.root then (s, zeroHash, none)
    else s.recoverAncestors env (BlockChain.insertChain env fuel · · false) head) = r at hrecover ⊢
  obtain ⟨s₁, latest, _ | err⟩ := r
  · have hset := (hrecover rfl).setHead hT hhead
    dsimp only
    generalize s₁.setHead head = r at hset ⊢
    obtain ⟨s₂, _ | err⟩ := r
    · exact fun _ => hset rfl
    · rintro ⟨⟩
  · rintro ⟨⟩

end

/-! ## Runs -/

/-- A chain with its genesis block only. -/
def start (genesis : Block) (world : W) : BlockChain W where
  world := world
  blocks := [genesis]
  index :=
    { canonical := Finmap.singleton 0 genesis.hash
      txLookup := ∅
      headHeader := genesis.hash
      headFast := genesis.hash
      headBlock := genesis.hash
      currentHeader := genesis
      currentSnapBlock := genesis
      currentBlock := genesis }
  txLookupLock := false
  checks := 0

end BlockChain

/-- The calls, and what else happens: the environment may change at any time. -/
inductive Event (W : Type) where
  | insertChain (chain : List Block)
  | insertBlockWithoutSetHead (block : Block)
  | setCanonical (head : Block)
  | change (world : W)

/-- The blocks of a call. -/
def Event.blocks : Event W → List Block
  | .insertChain chain => chain
  | .insertBlockWithoutSetHead block => [block]
  | .setCanonical head => [head]
  | .change _ => []

def Event.run (env : Env W) (fuel : Nat) (s : BlockChain W) : Event W → BlockChain W × Option Err
  | .insertChain chain => s.InsertChain env fuel chain
  | .insertBlockWithoutSetHead block => s.InsertBlockWithoutSetHead env fuel block
  | .setCanonical head =>
    let (s, _, err) := s.SetCanonical env fuel head
    (s, err)
  | .change world => ({ s with world := world }, none)

/-- The chain after some events, if all calls return without an error. -/
def runEvents (env : Env W) (fuel : Nat) : BlockChain W → List (Event W) → Option (BlockChain W)
  | s, [] => some s
  | s, event :: events =>
    match event.run env fuel s with
    | (s, none) => runEvents env fuel s events
    | (_, some _) => none

theorem BlockChain.start_sound (hT : T.Valid) (world : W) : (start T.genesis world).Sound T := by
  have hgenesis : ∀ {a}, T.Ancestor a T.genesis → a = T.genesis := fun ha =>
    T.levelled.eq_of_level ha (by rw [T.genesis_number]; exact Nat.zero_le _)
  refine ⟨⟨forall_mem_singleton.mpr T.genesis_mem, T.genesis_mem, ?_⟩, ?_, rfl, rfl, rfl,
    rfl, rfl⟩
  · intro n hash
    show (Finmap.singleton 0 T.genesis.hash : Map Nat Hash).lookup n = some hash ↔ _
    constructor
    · intro hlookup
      by_cases hn : n = 0
      · subst hn
        rw [Finmap.lookup_singleton_eq] at hlookup
        exact ⟨T.genesis, .refl, T.genesis_number, Option.some.inj hlookup⟩
      · have hnot : n ∉ (Finmap.singleton 0 T.genesis.hash : Map Nat Hash) := fun h =>
          hn ((Finmap.mem_singleton ..).mp h)
        rw [Finmap.lookup_eq_none.mpr hnot] at hlookup
        cases hlookup
    · rintro ⟨a, ha, rfl, rfl⟩
      rw [hgenesis ha, T.genesis_number]
      exact Finmap.lookup_singleton_eq
  · intro tx n
    show (∅ : Map Hash Nat).lookup tx = some n ↔ _
    rw [Finmap.lookup_empty]
    refine ⟨(by rintro ⟨⟩), ?_⟩
    rintro ⟨a, ha, -, htx⟩
    rw [hgenesis ha, hT.genesis_txs] at htx
    exact absurd htx not_mem_nil

theorem BlockChain.Sound.run (env : Env W) (fuel : Nat) (hT : T.Valid) {s : BlockChain W}
    (h : s.Sound T) {event : Event W} (hblocks : ∀ b ∈ event.blocks, b ∈ T.blocks) : Keeps T (event.run env fuel s) := by
  cases event with
  | insertChain chain => exact h.InsertChain env hT hblocks
  | insertBlockWithoutSetHead block =>
    exact h.InsertBlockWithoutSetHead env hT (hblocks block mem_cons_self)
  | setCanonical head =>
    exact fun hok => (h.SetCanonical env hT (hblocks head mem_cons_self) hok).1
  | change world => exact fun _ => h.of_eq rfl rfl

theorem BlockChain.Sound.runEvents (hT : T.Valid) {s s' : BlockChain W} (h : s.Sound T)
    {events : List (Event W)} (hblocks : ∀ event ∈ events, ∀ b ∈ event.blocks, b ∈ T.blocks)
    (hrun : Core.runEvents env fuel s events = some s') : s'.Sound T := by
  induction events generalizing s with
  | nil =>
    cases hrun
    exact h
  | cons event events ih =>
    rw [Core.runEvents] at hrun
    have hevent := h.run env fuel hT (hblocks event mem_cons_self)
    generalize event.run env fuel s = r at hevent hrun
    obtain ⟨s₁, _ | err⟩ := r
    · exact ih (hevent rfl) (fun x hx => hblocks x (mem_cons_of_mem event hx)) hrun
    · cases hrun

/-- After any calls that return without an error the canonical index is that of the head. -/
theorem runEvents_index_of_head (hT : T.Valid) {fuel : Nat} {world : W} {events : List (Event W)}
    (hblocks : ∀ event ∈ events, ∀ b ∈ event.blocks, b ∈ T.blocks) {s : BlockChain W}
    (hrun : runEvents env fuel (.start T.genesis world) events = some s) :
    let x := s.index
    let head := x.currentBlock
    (∀ n ≤ head.number, ∃ a, T.Ancestor a head ∧ a.number = n ∧ x.canonicalHash n = a.hash) ∧
      (∀ n > head.number, x.canonicalHash n = zeroHash) ∧
      (x.headHeader = head.hash ∧ x.headBlock = head.hash ∧ x.headFast = head.hash) ∧
      (x.currentHeader = head ∧ x.currentSnapBlock = head) ∧
      ∀ tx n, x.txLookup.lookup tx = some n ↔
        ∃ a, T.Ancestor a head ∧ a.number = n ∧ tx ∈ a.txs := by
  have hs := (BlockChain.start_sound hT world).runEvents hT hblocks hrun
  refine ⟨fun n hn => ?_, fun n hn => ?_, ⟨hs.headHeader, hs.headBlock, hs.headFast⟩,
    ⟨hs.currentHeader, hs.currentSnapBlock⟩, hs.indexes⟩
  · obtain ⟨a, ha, hnumber⟩ := T.exists_ancestor hs.head_mem hn
    refine ⟨a, ha, hnumber, ?_⟩
    rw [Index.canonicalHash, (hs.lists n a.hash).mpr ⟨a, ha, hnumber, rfl⟩]
    rfl
  · rw [Index.canonicalHash, hs.lists.canonical_none hn]
    rfl

/-! ## A tree with a fork -/

/-- A block with a hash of one byte, and a root of the same byte. -/
def smallBlock (hash parent : UInt8) (number : Nat) (txs : List Hash)
    (h : number < 2 ^ 64 - 1) : Block where
  hash := bytesToHash [hash]
  parentHash := bytesToHash [parent]
  number := number
  root := bytesToHash [hash]
  txs := txs
  size := 500
  number_lt := h

def forkGenesis : Block := smallBlock 1 0 0 [] (by decide)

/-- Two blocks on one branch, and one on another, with a transaction each. -/
def forkA1 : Block := smallBlock 2 1 1 [bytesToHash [17]] (by decide)

def forkA2 : Block := smallBlock 3 2 2 [bytesToHash [18]] (by decide)

def forkB1 : Block := smallBlock 4 1 1 [bytesToHash [19]] (by decide)

def forkBlocks : List Block := [forkGenesis, forkA1, forkA2, forkB1]

theorem forkBlocks_parent : ∀ b ∈ forkBlocks, b = forkGenesis ∨
    ∃ p ∈ forkBlocks, b.parentHash = p.hash ∧ b.number = p.number + 1 := by
  decide +kernel

theorem forkBlocks_inj : ∀ a ∈ forkBlocks, ∀ b ∈ forkBlocks, a.hash = b.hash → a = b := by
  decide +kernel

theorem forkBlocks_tx : ∀ a ∈ forkBlocks, ∀ b ∈ forkBlocks, a.hash = b.hash ∨
    (a.txs.all fun tx => decide (tx ∉ b.txs)) = true := by
  decide +kernel

def forkTree : Tree where
  blocks := { b | b ∈ forkBlocks }
  genesis := forkGenesis
  genesis_mem := mem_cons_self
  genesis_number := rfl
  genesis_parent := by decide +kernel
  hash_inj := fun a ha b hb hhash => forkBlocks_inj a ha b hb hhash
  hash_ne := show ∀ b ∈ forkBlocks, b.hash ≠ zeroHash by decide +kernel
  parent := by
    intro b hb hne
    obtain ⟨p, hp, hhash, hnumber⟩ := (forkBlocks_parent b hb).resolve_left hne
    exact ⟨p, hp, hhash, hnumber⟩

theorem forkTree_valid : forkTree.Valid where
  genesis_txs := rfl
  tx_once := by
    intro a b c tx ha hb hatx hbtx
    by_cases hc : c ∈ forkBlocks
    · have ha : a ∈ forkBlocks := forkTree.ancestor_mem ha hc
      have hb : b ∈ forkBlocks := forkTree.ancestor_mem hb hc
      refine forkBlocks_inj a ha b hb ((forkBlocks_tx a ha b hb).resolve_right fun hall => ?_)
      exact of_decide_eq_true (all_eq_true.mp hall tx hatx) hbtx
    have hself : ∀ {x}, forkTree.Ancestor x c → x = c := by
      intro x hx
      cases hx with
      | refl => rfl
      | tail _ hstep => exact absurd hstep.2.1 hc
    rw [hself ha, hself hb]

/-- An environment that keeps every state, with no snapshots. -/
def keepingEnv : Env (List Hash) where
  chainStopped _ := false
  insertStopped _ := false
  hasState roots root := decide (root ∈ roots)
  stateRecoverable _ _ := false
  recover roots _ := (none, roots)
  snaps _ := none
  verifyHeaders _ _ _ _ := none
  validateContents _ _ _ := none
  execute roots _ _ := (none, roots)
  commit roots _ block := (none, block.root :: roots)

/-- The longer branch is imported, the other block is inserted and made the head, and then the
first block of the longer branch. -/
def forkEvents : List (Event (List Hash)) :=
  [.insertChain [forkA1, forkA2], .insertBlockWithoutSetHead forkB1, .setCanonical forkB1,
    .setCanonical forkA1]

theorem forkEvents_mem : ∀ event ∈ forkEvents, ∀ b ∈ event.blocks, b ∈ forkTree.blocks := by
  show ∀ event ∈ forkEvents, ∀ b ∈ event.blocks, b ∈ forkBlocks
  decide +kernel

theorem forkEvents_run :
    (runEvents keepingEnv 1 (.start forkGenesis [forkGenesis.root]) forkEvents).map
      (fun s => s.index.currentBlock) = some forkA1 := by
  decide +kernel

theorem runEvents_index_of_head_fork : ∃ s,
    runEvents keepingEnv 1 (.start forkTree.genesis [forkGenesis.root]) forkEvents = some s ∧
      s.index.currentBlock = forkA1 ∧ s.index.headBlock = forkA1.hash ∧
      s.index.canonicalHash 2 = zeroHash := by
  obtain ⟨s, hrun, hhead⟩ := Option.map_eq_some_iff.mp forkEvents_run
  obtain ⟨-, habove, ⟨-, hblock, -⟩, -⟩ := runEvents_index_of_head forkTree_valid forkEvents_mem hrun
  rw [hhead] at habove hblock
  exact ⟨s, hrun, hhead, hblock, habove 2 (by decide)⟩

end GoEthereum.Core

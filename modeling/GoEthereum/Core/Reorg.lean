import GoEthereum.Core.BlockChain
import GoEthereum.Lib.Ancestry

/-!
# What a reorganisation leaves

The blocks form a tree. The canonical hashes list a block if they are those of its ancestors,
and the transaction lookups index it if they are those of their transactions. `reorg` takes
hashes and lookups of the old head to those of the new head but for the new head itself, which
`writeHeadBlock` then adds.
-/

namespace GoEthereum.Core

open Ancestry List

variable {b low p : Block} {chain : List Block} {n : Nat}

/-! ## Trees of blocks -/

/-- `p` is the parent of `b`. -/
structure Block.Follows (p b : Block) : Prop where
  parentHash : b.parentHash = p.hash
  number : b.number = p.number + 1

/-- A tree of blocks, whose hashes do not collide. -/
structure Tree where
  blocks : Set Block
  genesis : Block
  genesis_mem : genesis ∈ blocks
  genesis_number : genesis.number = 0
  genesis_parent : genesis.parentHash = zeroHash
  hash_inj : Set.InjOn Block.hash blocks
  hash_ne : ∀ b ∈ blocks, b.hash ≠ zeroHash
  parent : ∀ b ∈ blocks, b ≠ genesis → ∃ p ∈ blocks, p.Follows b

namespace Tree

variable (T : Tree)

def Parent (p b : Block) : Prop := p ∈ T.blocks ∧ b ∈ T.blocks ∧ p.Follows b

theorem levelled : Levelled T.Parent Block.number where
  unique := by
    rintro p q b ⟨hp, -, hpb⟩ ⟨hq, -, hqb⟩
    exact T.hash_inj hp hq (hpb.parentHash.symm.trans hqb.parentHash)
  level_eq h := h.2.2.number

abbrev Ancestor (a b : Block) : Prop := Ancestry.Ancestor T.Parent a b

/-- Valid blocks have no transaction on a branch twice, since it uses up a nonce of its
sender. -/
structure Valid : Prop where
  genesis_txs : T.genesis.txs = []
  tx_once : ∀ {a b c tx}, T.Ancestor a c → T.Ancestor b c → tx ∈ a.txs → tx ∈ b.txs → a = b

variable {T}

theorem ancestor_mem {a : Block} (h : T.Ancestor a b) (hb : b ∈ T.blocks) : a ∈ T.blocks := by
  induction h with
  | refl => exact hb
  | tail _ hstep ih => exact ih hstep.1

/-- A block has an ancestor of each number up to its own. -/
theorem exists_ancestor (hb : b ∈ T.blocks) (hn : n ≤ b.number) :
    ∃ a, T.Ancestor a b ∧ a.number = n := by
  obtain ⟨k, hk⟩ := Nat.exists_eq_add_of_le hn
  induction k generalizing b with
  | zero => exact ⟨b, .refl, hk⟩
  | succ k ih =>
    have hne : b ≠ T.genesis := by
      rintro rfl
      rw [T.genesis_number] at hk
      omega
    obtain ⟨p, hp, hfollows⟩ := T.parent b hb hne
    have hnumber := hfollows.number
    obtain ⟨a, ha, han⟩ := ih hp (by omega) (by omega)
    exact ⟨a, ha.tail ⟨hp, hb, hfollows⟩, han⟩

/-- The parent hash of a block names its parent. -/
theorem parent_of_hash (hp : p ∈ T.blocks) (hb : b ∈ T.blocks) (hhash : b.parentHash = p.hash) :
    T.Parent p b := by
  have hne : b ≠ T.genesis := by
    rintro rfl
    exact T.hash_ne p hp (hhash.symm.trans T.genesis_parent)
  obtain ⟨q, hq, hfollows⟩ := T.parent b hb hne
  have hsame : q = p := T.hash_inj hq hp (hfollows.parentHash.symm.trans hhash)
  rw [← hsame]
  exact ⟨hq, hb, hfollows⟩

end Tree

/-! ## Indexes -/

/-- The canonical hashes are those of a block and its ancestors. -/
def Index.Lists (T : Tree) (x : Index) (head : Block) : Prop :=
  ∀ n hash, x.canonical.lookup n = some hash ↔ ∃ a, T.Ancestor a head ∧ a.number = n ∧ a.hash = hash

/-- The same, but for the block itself. -/
def Index.ListsBelow (T : Tree) (x : Index) (head : Block) : Prop :=
  ∀ n hash, n ≠ head.number → (x.canonical.lookup n = some hash ↔
    ∃ a, T.Ancestor a head ∧ a.number = n ∧ a.hash = hash)

/-- The transaction lookups are those of a block and its ancestors. -/
def Index.Indexes (T : Tree) (x : Index) (head : Block) : Prop :=
  ∀ tx n, x.txLookup.lookup tx = some n ↔ ∃ a, T.Ancestor a head ∧ a.number = n ∧ tx ∈ a.txs

/-- The same, but for the block itself. -/
def Index.IndexesBelow (T : Tree) (x : Index) (head : Block) : Prop :=
  ∀ tx n, tx ∉ head.txs → (x.txLookup.lookup tx = some n ↔
    ∃ a, T.Ancestor a head ∧ a.number = n ∧ tx ∈ a.txs)

/-- Updates of some keys with one value. -/
theorem lookup_foldl {g : Map Hash Nat → Hash → Map Hash Nat} {v : Option Nat}
    (hg : ∀ m t tx, (g m t).lookup tx = if tx = t then v else m.lookup tx) (m : Map Hash Nat)
    (txs : List Hash) (tx : Hash) :
    (txs.foldl g m).lookup tx = if tx ∈ txs then v else m.lookup tx := by
  induction txs generalizing m with
  | nil => rw [foldl_nil, if_neg not_mem_nil]
  | cons t txs ih =>
    rw [foldl_cons, ih, hg]
    by_cases htail : tx ∈ txs
    · rw [if_pos htail, if_pos (mem_cons_of_mem t htail)]
    by_cases hhead : tx = t
    · rw [if_neg htail, if_pos hhead, if_pos (hhead ▸ mem_cons_self)]
    · rw [if_neg htail, if_neg hhead, if_neg (by
        rw [mem_cons]
        exact not_or.mpr ⟨hhead, htail⟩)]

theorem lookup_writeTxLookupEntries (lookup : Map Hash Nat) (block : Block) (tx : Hash) :
    (writeTxLookupEntries lookup block).lookup tx =
      if tx ∈ block.txs then some block.number else lookup.lookup tx :=
  lookup_foldl (fun m t tx => Map.lookup_insert_ite m t tx block.number) lookup block.txs tx

/-- The caller of `reorg` writes what is missing. -/
theorem Index.ListsBelow.writeHeadBlock {T : Tree} {x : Index} {head : Block}
    (h : x.ListsBelow T head) : (x.writeHeadBlock head).Lists T head := by
  intro n hash
  show (x.canonical.insert head.number head.hash).lookup n = _ ↔ _
  rw [Map.lookup_insert_ite]
  by_cases hn : n = head.number
  · subst hn
    rw [if_pos rfl, Option.some_inj]
    constructor
    · exact fun hhash => ⟨head, .refl, rfl, hhash⟩
    · rintro ⟨a, ha, hnumber, rfl⟩
      rw [T.levelled.eq_of_level ha hnumber.ge]
  · rw [if_neg hn, h n hash hn]

theorem Index.IndexesBelow.writeHeadBlock {T : Tree} (hT : T.Valid) {x : Index} {head : Block}
    (h : x.IndexesBelow T head) : (x.writeHeadBlock head).Indexes T head := by
  intro tx n
  show (writeTxLookupEntries x.txLookup head).lookup tx = _ ↔ _
  rw [lookup_writeTxLookupEntries]
  by_cases htx : tx ∈ head.txs
  · rw [if_pos htx, Option.some_inj]
    constructor
    · exact fun hn => ⟨head, .refl, hn, htx⟩
    · rintro ⟨a, ha, rfl, hatx⟩
      rw [hT.tx_once ha .refl hatx htx]
  · rw [if_neg htx, h tx n htx]

theorem Tree.exists_ancestor_child {T : Tree} {P : Block → Prop} (hp : T.Parent p b)
    (hb : ¬ P b) : (∃ a, T.Ancestor a p ∧ P a) ↔ ∃ a, T.Ancestor a b ∧ P a := by
  constructor
  · rintro ⟨a, ha, hP⟩
    exact ⟨a, ha.tail hp, hP⟩
  · rintro ⟨a, ha, hP⟩
    obtain rfl | ha := T.levelled.ancestor_of_parent hp ha
    · exact absurd hP hb
    · exact ⟨a, ha, hP⟩

theorem Index.Lists.child {T : Tree} {x : Index} (h : x.Lists T p) (hp : T.Parent p b) :
    x.ListsBelow T b := by
  intro n hash hn
  rw [h]
  exact Tree.exists_ancestor_child hp fun hb => hn hb.1.symm

theorem Index.Indexes.child {T : Tree} {x : Index} (h : x.Indexes T p) (hp : T.Parent p b) :
    x.IndexesBelow T b := by
  intro tx n htx
  rw [h]
  exact Tree.exists_ancestor_child hp fun hb => htx hb.2

/-! ## The walks -/

section Walks

variable {W : Type} {T : Tree} {s : BlockChain W}

theorem BlockChain.getBlock_some {hash : Hash} {number : Nat} (h : s.getBlock hash number = some b) :
    b ∈ s.blocks ∧ b.hash = hash ∧ b.number = number := by
  have hkey := find?_some h
  exact ⟨mem_of_find?_eq_some h, of_decide_eq_true hkey⟩

theorem BlockChain.parentOf_some (h : s.parentOf b = some p) : p ∈ s.blocks ∧ p.Follows b := by
  rw [parentOf] at h
  split at h
  · cases h
  next hpos =>
    obtain ⟨hp, hhash, hnumber⟩ := getBlock_some h
    exact ⟨hp, hhash.symm, by omega⟩

/-- A walk through the database. -/
abbrev BlockChain.Walk (s : BlockChain W) : Block → List Block → Block → Prop :=
  Down fun p b => s.parentOf b = some p

theorem BlockChain.descend_walk (h : s.descend n b = some (chain, low)) : s.Walk b chain low := by
  induction n generalizing b chain with
  | zero =>
    cases h
    exact .nil _
  | succ n ih =>
    rw [descend] at h
    split at h
    · cases h
    next p hparent =>
    obtain ⟨⟨rest, low'⟩, hrest, heq⟩ := Option.map_eq_some_iff.mp h
    cases heq
    exact .cons hparent (ih hrest)

theorem map_eq_ok {α β : Type} {x : Except Err α} {g : α → β} {b : β} (h : x.map g = .ok b) :
    ∃ a, x = .ok a ∧ g a = b := by
  cases x with
  | error err => cases h
  | ok a => exact ⟨a, rfl, Except.ok.inj h⟩

theorem BlockChain.stepBack_walk {old new common : Block} {oldChain newChain : List Block}
    (h : s.stepBack n old new = .ok (oldChain, newChain, common)) :
    s.Walk old oldChain common ∧ ∃ low, low.hash = common.hash ∧ s.Walk new newChain low := by
  induction n using Nat.strong_induction_on generalizing old new oldChain newChain with
  | h n ih =>
    rw [stepBack] at h
    split at h
    · next hhash =>
        obtain ⟨rfl, rfl, rfl⟩ := Except.ok.inj h
        exact ⟨.nil _, new, hhash.symm, .nil _⟩
    split at h
    · cases h
    next oldParent holdParent =>
    split at h
    · cases h
    next newParent hnewParent =>
    cases n with
    | zero => cases h
    | succ n =>
      obtain ⟨⟨oldRest, newRest, common'⟩, hrest, heq⟩ := map_eq_ok h
      obtain ⟨rfl, rfl, rfl⟩ := heq
      obtain ⟨hwalk, low, hlow, hwalk'⟩ := ih n (Nat.lt_succ_self n) hrest
      exact ⟨.cons holdParent hwalk, low, hlow, .cons hnewParent hwalk'⟩

/-- The two chains lead down to blocks of one hash. -/
theorem BlockChain.split_walk {old new common : Block} {oldChain newChain : List Block}
    (h : s.split old new = .ok (oldChain, newChain, common)) :
    s.Walk old oldChain common ∧ ∃ low, low.hash = common.hash ∧ s.Walk new newChain low := by
  rw [split] at h
  split at h
  · split at h
    · cases h
    next longer oldLow hdescend =>
    obtain ⟨⟨oldRest, newRest, common'⟩, hback, heq⟩ := map_eq_ok h
    obtain ⟨rfl, rfl, rfl⟩ := heq
    obtain ⟨hwalk, low, hlow, hwalk'⟩ := stepBack_walk hback
    exact ⟨(descend_walk hdescend).append hwalk, low, hlow, hwalk'⟩
  · split at h
    · cases h
    next longer newLow hdescend =>
    obtain ⟨⟨oldRest, newRest, common'⟩, hback, heq⟩ := map_eq_ok h
    obtain ⟨rfl, rfl, rfl⟩ := heq
    obtain ⟨hwalk, low, hlow, hwalk'⟩ := stepBack_walk hback
    exact ⟨hwalk, low, hlow, (descend_walk hdescend).append hwalk'⟩

/-- All blocks of a walk but the first are in the database. -/
theorem BlockChain.Walk.tail_mem (h : s.Walk b chain low) : ∀ x ∈ chain.tail, x ∈ s.blocks := by
  have hall : ∀ {b low chain}, s.Walk b chain low → b ∈ s.blocks → ∀ x ∈ chain, x ∈ s.blocks := by
    intro b low chain h hb
    induction h with
    | nil => exact fun x hx => absurd hx not_mem_nil
    | cons hp _ ih => exact forall_mem_cons.mpr ⟨hb, ih (parentOf_some hp).1⟩
  cases h with
  | nil => exact fun x hx => absurd hx not_mem_nil
  | cons hp hwalk => exact hall hwalk (parentOf_some hp).1

variable (hstored : ∀ b ∈ s.blocks, b ∈ T.blocks)

include hstored

theorem BlockChain.parentOf_parent (hb : b ∈ T.blocks) (h : s.parentOf b = some p) :
    T.Parent p b := by
  obtain ⟨hp, hfollows⟩ := parentOf_some h
  exact ⟨hstored p hp, hb, hfollows⟩

theorem BlockChain.getBlock_self {b' : Block} (hb : b ∈ T.blocks)
    (h : s.getBlock b.hash b.number = some b') : b' = b := by
  obtain ⟨hmem, hhash, -⟩ := getBlock_some h
  exact T.hash_inj (hstored b' hmem) hb hhash

theorem BlockChain.Walk.down (h : s.Walk b chain low) (hb : b ∈ T.blocks) :
    Down T.Parent b chain low := by
  induction h with
  | nil => exact .nil _
  | cons hp _ ih =>
    have hp := parentOf_parent hstored hb hp
    exact .cons hp (ih hp.1)

/-- The two chains lead down to a common block. -/
theorem BlockChain.split_down {old new common : Block} {oldChain newChain : List Block}
    (hold : old ∈ T.blocks) (hnew : new ∈ T.blocks)
    (h : s.split old new = .ok (oldChain, newChain, common)) :
    Down T.Parent old oldChain common ∧ Down T.Parent new newChain common := by
  obtain ⟨hwalk, low, hlow, hwalk'⟩ := split_walk h
  have hdown := hwalk.down hstored hold
  have hdown' := hwalk'.down hstored hnew
  have hsame : low = common := T.hash_inj (T.ancestor_mem hdown'.ancestor hnew)
    (T.ancestor_mem hdown.ancestor hold) hlow
  rw [hsame] at hdown'
  exact ⟨hdown, hdown'⟩

theorem BlockChain.deletedTxs_eq {chain : List Block} (hchain : ∀ b ∈ chain, b ∈ T.blocks)
    {txs : List Hash} (h : s.deletedTxs chain = some txs) : txs = chain.flatMap Block.txs := by
  induction chain generalizing txs with
  | nil => exact (Option.some.inj h).symm
  | cons b chain ih =>
    rw [deletedTxs] at h
    split at h
    · cases h
    next b' hget =>
    obtain ⟨rest, hrest, rfl⟩ := Option.map_eq_some_iff.mp h
    rw [getBlock_self hstored (hchain b mem_cons_self) hget, flatMap_cons,
      ih (fun x hx => hchain x (mem_cons_of_mem b hx)) hrest]

theorem BlockChain.applyNew_eq {chain : List Block} (hchain : ∀ b ∈ chain, b ∈ T.blocks)
    {s' : BlockChain W} {txs : List Hash} (h : s.applyNew chain = (s', .ok txs)) :
    s' = { s with index := chain.foldl Index.writeHeadBlock s.index } ∧
      txs = chain.flatMap Block.txs := by
  induction chain generalizing s txs with
  | nil =>
    obtain ⟨rfl, htxs⟩ := Prod.mk.inj h
    exact ⟨rfl, (Except.ok.inj htxs).symm⟩
  | cons b chain ih =>
    rw [applyNew] at h
    cases hget : s.getBlock b.hash b.number with
    | none =>
      rw [hget] at h
      cases (Prod.mk.inj h).2
    | some b' =>
      rw [hget] at h
      obtain rfl := getBlock_self hstored (hchain b mem_cons_self) hget
      dsimp only at h
      rcases hrest : applyNew { s with index := s.index.writeHeadBlock b' } chain with ⟨s₁, rebirth⟩
      rw [hrest] at h
      obtain ⟨rfl, hmap⟩ := Prod.mk.inj h
      cases rebirth with
      | error err => cases hmap
      | ok rest =>
        obtain ⟨hs, hrest⟩ := @ih { s with index := s.index.writeHeadBlock b' } hstored
          (fun x hx => hchain x (mem_cons_of_mem b' hx)) _ hrest
        cases hmap
        rw [flatMap_cons, hrest]
        exact ⟨hs, rfl⟩

end Walks

/-! ## Deleting and writing canonical hashes -/

theorem lookup_deleteCanonical {canonical : Map Nat Hash} {fuel i top : Nat}
    (hfull : ∀ n, i ≤ n → n < top → ∃ hash, hash ≠ zeroHash ∧ canonical.lookup n = some hash)
    (hnone : ∀ n, i ≤ n → top ≤ n → canonical.lookup n = none) (hfuel : top ≤ i + fuel) (n : Nat) :
    (deleteCanonical fuel i canonical).lookup n = if n < i then canonical.lookup n else none := by
  induction fuel generalizing i canonical with
  | zero =>
    rw [deleteCanonical]
    split
    · rfl
    · exact hnone n (by omega) (by omega)
  | succ fuel ih =>
    rw [deleteCanonical]
    by_cases htop : i < top
    · obtain ⟨hash, hne, hlookup⟩ := hfull i le_rfl htop
      rw [hlookup]
      dsimp only
      rw [if_neg hne, ih ?_ ?_ (by omega), Map.lookup_erase_ite]
      · by_cases hn : n = i
        · rw [if_pos (by omega), if_pos hn, if_neg (by omega)]
        · rw [if_neg hn]
          by_cases hlt : n < i
          · rw [if_pos (by omega), if_pos hlt]
          · rw [if_neg (by omega), if_neg hlt]
      · intro m hm hmtop
        rw [Map.lookup_erase_ite, if_neg (by omega)]
        exact hfull m (by omega) hmtop
      · intro m hm hmtop
        rw [Map.lookup_erase_ite, if_neg (by omega)]
        exact hnone m (by omega) hmtop
    · rw [hnone i le_rfl (by omega)]
      dsimp only
      split
      · rfl
      · exact hnone n (by omega) (by omega)

/-- The loop has fuel for all hashes there are. -/
theorem le_card_keys {canonical : Map Nat Hash} {top : Nat}
    (hfull : ∀ n < top, ∃ hash, canonical.lookup n = some hash) :
    top ≤ canonical.keys.card := by
  have hsub : Finset.range top ⊆ canonical.keys := by
    intro n hn
    obtain ⟨hash, hlookup⟩ := hfull n (Finset.mem_range.mp hn)
    rw [Finmap.mem_keys, ← Finmap.lookup_isSome, hlookup]
    rfl
  calc top = (Finset.range top).card := (Finset.card_range top).symm
    _ ≤ canonical.keys.card := Finset.card_le_card hsub

/-- Of some blocks that are written one by one, each with keys of its own, a key has the value of
its block. -/
theorem lookup_foldl_writeHeadBlock {K V : Type} (get : Index → K → Option V)
    {sets : Block → K → Prop} [∀ b k, Decidable (sets b k)] {val : Block → V}
    (hget : ∀ x b k, get (x.writeHeadBlock b) k = if sets b k then some (val b) else get x k)
    (honce : ∀ a ∈ chain, ∀ b ∈ chain, ∀ k, sets a k → sets b k → a = b) (x : Index) (k : K)
    (v : V) : get (chain.foldl Index.writeHeadBlock x) k = some v ↔
      (∃ b ∈ chain, sets b k ∧ val b = v) ∨
        ((∀ b ∈ chain, ¬ sets b k) ∧ get x k = some v) := by
  induction chain generalizing x with
  | nil =>
    constructor
    · exact fun h => Or.inr ⟨fun b hb => absurd hb not_mem_nil, h⟩
    · rintro (⟨b, hb, -⟩ | ⟨-, h⟩)
      · exact absurd hb not_mem_nil
      · exact h
  | cons c chain ih =>
    rw [foldl_cons, ih (fun a ha b hb => honce a (mem_cons_of_mem c ha) b
      (mem_cons_of_mem c hb)), hget, exists_mem_cons_iff, forall_mem_cons]
    constructor
    · rintro (h | ⟨hnone, h⟩)
      · exact .inl (.inr h)
      · by_cases hk : sets c k
        · rw [if_pos hk] at h
          exact .inl (.inl ⟨hk, Option.some.inj h⟩)
        · rw [if_neg hk] at h
          exact .inr ⟨⟨hk, hnone⟩, h⟩
    · rintro ((⟨hk, rfl⟩ | h) | ⟨⟨hk, hnone⟩, h⟩)
      · by_cases hlater : ∃ b ∈ chain, sets b k
        · obtain ⟨b, hb, hbk⟩ := hlater
          have hsame := honce b (mem_cons_of_mem c hb) c mem_cons_self k hbk hk
          exact .inl ⟨b, hb, hbk, congrArg val hsame⟩
        · exact .inr ⟨fun b hb hbk => hlater ⟨b, hb, hbk⟩, if_pos hk⟩
      · exact .inl h
      · exact .inr ⟨hnone, by rw [if_neg hk, h]⟩

theorem canonical_foldl (honce : ∀ a ∈ chain, ∀ b ∈ chain, a.number = b.number → a = b) (x : Index)
    (n : Nat) (hash : Hash) :
    (chain.foldl Index.writeHeadBlock x).canonical.lookup n = some hash ↔
      (∃ b ∈ chain, b.number = n ∧ b.hash = hash) ∨
        ((∀ b ∈ chain, b.number ≠ n) ∧ x.canonical.lookup n = some hash) := by
  refine lookup_foldl_writeHeadBlock (fun x n => x.canonical.lookup n) (fun x b n => ?_)
    (fun a ha b hb n hn hn' => honce a ha b hb (hn.trans hn'.symm)) x n hash
  simp only [eq_comm (a := b.number)]
  exact Map.lookup_insert_ite _ _ _ _

theorem txLookup_foldl (honce : ∀ a ∈ chain, ∀ b ∈ chain, ∀ tx, tx ∈ a.txs → tx ∈ b.txs → a = b)
    (x : Index) (tx : Hash) (n : Nat) :
    (chain.foldl Index.writeHeadBlock x).txLookup.lookup tx = some n ↔
      (∃ b ∈ chain, tx ∈ b.txs ∧ b.number = n) ∨
        ((∀ b ∈ chain, tx ∉ b.txs) ∧ x.txLookup.lookup tx = some n) :=
  lookup_foldl_writeHeadBlock (fun x tx => x.txLookup.lookup tx)
    (fun _ _ _ => lookup_writeTxLookupEntries _ _ _) honce x tx n

/-! ## The reorganisation -/

/-- The blocks that `reorg` makes the head one by one: the new chain without the new head. -/
theorem mem_tail_reverse {T : Tree} {new common : Block} {newChain : List Block}
    (hnew : Down T.Parent new newChain common) :
    b ∈ newChain.tail.reverse ↔
      T.Ancestor b new ∧ common.number < b.number ∧ b.number < new.number := by
  rw [mem_reverse]
  cases hnew with
  | nil =>
    refine ⟨fun h => absurd h not_mem_nil, fun ⟨_, h, h'⟩ => ?_⟩
    omega
  | @cons p _ _ walk hp hdown =>
    rw [tail_cons, hdown.mem_iff T.levelled]
    have hnumber := hp.2.2.number
    constructor
    · rintro ⟨hb, hlt⟩
      have hle := T.levelled.level_le hb
      exact ⟨hb.tail hp, hlt, by omega⟩
    · rintro ⟨hb, hlt, hlt'⟩
      obtain rfl | hb := T.levelled.ancestor_of_parent hp hb
      · omega
      · exact ⟨hb, hlt⟩

theorem lastKept_eq {T : Tree} {new common : Block} {newChain : List Block}
    (hnew : Down T.Parent new newChain common) :
    lastKept common newChain + 1 = if newChain = [] then new.number + 1 else new.number := by
  cases hnew with
  | nil =>
    rw [if_pos rfl]
    rfl
  | cons hp hdown =>
    rw [if_neg (cons_ne_nil _ _), hp.2.2.number]
    cases hdown with
    | nil => rfl
    | cons hp' hdown' => rfl

section Fork

variable {T : Tree} {x : Index} {old new common : Block} {oldChain newChain : List Block}

theorem Index.Lists.canonical_full (hx : x.Lists T old) (hold : old ∈ T.blocks) {n : Nat}
    (hn : n ≤ old.number) : ∃ hash, hash ≠ zeroHash ∧ x.canonical.lookup n = some hash := by
  obtain ⟨a, ha, hnumber⟩ := T.exists_ancestor hold hn
  exact ⟨a.hash, T.hash_ne a (T.ancestor_mem ha hold), (hx n a.hash).mpr ⟨a, ha, hnumber, rfl⟩⟩

theorem Index.Lists.canonical_none (hx : x.Lists T old) (hn : old.number < n) :
    x.canonical.lookup n = none := by
  rw [Option.eq_none_iff_forall_ne_some]
  intro hash hlookup
  obtain ⟨a, ha, rfl, -⟩ := (hx n hash).mp hlookup
  have hle := T.levelled.level_le ha
  omega

/-- The canonical hashes when the new chain is written but for its head. -/
theorem canonical_written (hx : x.Lists T old) (hold : Down T.Parent old oldChain common)
    (hnew : Down T.Parent new newChain common) (hmem : new ∈ T.blocks) (hash : Hash) :
    (newChain.tail.reverse.foldl Index.writeHeadBlock x).canonical.lookup n = some hash ↔
      if n < new.number then ∃ a, T.Ancestor a new ∧ a.number = n ∧ a.hash = hash
      else x.canonical.lookup n = some hash := by
  have honce : ∀ a ∈ newChain.tail.reverse, ∀ b ∈ newChain.tail.reverse,
      a.number = b.number → a = b := by
    intro a ha b hb hnumber
    exact T.levelled.eq_of_ancestors ((mem_tail_reverse hnew).mp ha).1
      ((mem_tail_reverse hnew).mp hb).1 hnumber
  rw [canonical_foldl honce]
  split
  · next hlt =>
    constructor
    · rintro (⟨b, hb, hnumber⟩ | ⟨hnone, hlookup⟩)
      · exact ⟨b, ((mem_tail_reverse hnew).mp hb).1, hnumber⟩
      · obtain ⟨a, ha, rfl, hhash⟩ := (hx _ _).mp hlookup
        obtain ⟨b, hb, hnumber⟩ := T.exists_ancestor hmem hlt.le
        -- the new chain has no block of this number, so it is one below the common block
        have hlow : b.number ≤ common.number := by
          by_contra hhigh
          exact hnone b ((mem_tail_reverse hnew).mpr ⟨hb, by omega, by omega⟩) hnumber
        have hcommon := T.levelled.comparable ha hold.ancestor (by omega)
        exact ⟨a, hcommon.trans hnew.ancestor, rfl, hhash⟩
    · rintro ⟨a, ha, rfl, hhash⟩
      by_cases hhigh : common.number < a.number
      · exact .inl ⟨a, (mem_tail_reverse hnew).mpr ⟨ha, hhigh, hlt⟩, rfl, hhash⟩
      · refine .inr ⟨fun b hb hnumber => ?_, (hx _ _).mpr ⟨a, ?_, rfl, hhash⟩⟩
        · have hb := ((mem_tail_reverse hnew).mp hb).2.1
          omega
        · exact (T.levelled.comparable ha hnew.ancestor (by omega)).trans hold.ancestor
  · next hge =>
    constructor
    · rintro (⟨b, hb, hnumber, -⟩ | ⟨-, hlookup⟩)
      · have hb := ((mem_tail_reverse hnew).mp hb).2.2
        omega
      · exact hlookup
    · refine fun hlookup => Or.inr ⟨fun b hb hnumber => ?_, hlookup⟩
      have hb := ((mem_tail_reverse hnew).mp hb).2.2
      omega

theorem canonical_reorganised (hx : x.Lists T old) (hold : Down T.Parent old oldChain common)
    (hnew : Down T.Parent new newChain common) (hmemOld : old ∈ T.blocks) (hmem : new ∈ T.blocks)
    {k : Nat} (hk : k = if newChain = [] then new.number + 1 else new.number) (hn : n ≠ new.number)
    (hash : Hash) :
    let canonical := (newChain.tail.reverse.foldl Index.writeHeadBlock x).canonical
    (deleteCanonical canonical.keys.card k canonical).lookup n = some hash ↔
      ∃ a, T.Ancestor a new ∧ a.number = n ∧ a.hash = hash := by
  intro canonical
  have hlookup : ∀ {n} hash, canonical.lookup n = some hash ↔
      if n < new.number then ∃ a, T.Ancestor a new ∧ a.number = n ∧ a.hash = hash
      else x.canonical.lookup n = some hash := fun hash => canonical_written hx hold hnew hmem hash
  have hge : new.number ≤ k := by
    rw [hk]
    split <;> omega
  have hle : k ≤ new.number ∨ (k = new.number + 1 ∧ new.number ≤ old.number) := by
    rw [hk]
    split
    · next hnil =>
      subst hnil
      cases hnew
      exact .inr ⟨rfl, T.levelled.level_le hold.ancestor⟩
    · exact .inl le_rfl
  have hfull : ∀ m, m < max (old.number + 1) k →
      ∃ hash, hash ≠ zeroHash ∧ canonical.lookup m = some hash := by
    intro m hm
    by_cases hlt : m < new.number
    · obtain ⟨a, ha, hnumber⟩ := T.exists_ancestor hmem hlt.le
      refine ⟨a.hash, T.hash_ne a (T.ancestor_mem ha hmem), ?_⟩
      rw [hlookup, if_pos hlt]
      exact ⟨a, ha, hnumber, rfl⟩
    · obtain ⟨hash, hne, hold⟩ := @Index.Lists.canonical_full T x old hx hmemOld m (by omega)
      refine ⟨hash, hne, ?_⟩
      rw [hlookup, if_neg hlt, hold]
  have hnone : ∀ m, k ≤ m → max (old.number + 1) k ≤ m → canonical.lookup m = none := by
    intro m hkm hm
    rw [Option.eq_none_iff_forall_ne_some]
    intro hash hsome
    rw [hlookup, if_neg (by omega), hx.canonical_none (by omega)] at hsome
    cases hsome
  have hfuel := le_card_keys fun m hm => (hfull m hm).imp fun _ h => h.2
  rw [lookup_deleteCanonical (fun m _ hm => hfull m hm) hnone (by omega)]
  by_cases hnk : n < k
  · rw [if_pos hnk, hlookup, if_pos]
    rw [hk] at hnk
    split at hnk <;> omega
  rw [if_neg hnk]
  refine ⟨(by rintro ⟨⟩), ?_⟩
  rintro ⟨a, ha, rfl, -⟩
  have hle := T.levelled.level_le ha
  omega

theorem txLookup_reorganised (hT : T.Valid) (hx : x.Indexes T old)
    (hold : Down T.Parent old oldChain common)
    (hnew : Down T.Parent new newChain common) {tx : Hash} (htx : tx ∉ new.txs) (n : Nat) :
    ((hashDifference (oldChain.flatMap Block.txs)
        (newChain.tail.reverse.flatMap Block.txs)).foldl (fun m tx => m.erase tx)
      (newChain.tail.reverse.foldl Index.writeHeadBlock x).txLookup).lookup tx = some n ↔
      ∃ a, T.Ancestor a new ∧ a.number = n ∧ tx ∈ a.txs := by
  have honce : ∀ a ∈ newChain.tail.reverse, ∀ b ∈ newChain.tail.reverse,
      ∀ tx, tx ∈ a.txs → tx ∈ b.txs → a = b := by
    intro a ha b hb tx hatx hbtx
    exact hT.tx_once ((mem_tail_reverse hnew).mp ha).1 ((mem_tail_reverse hnew).mp hb).1 hatx hbtx
  have hdiff : tx ∈ hashDifference (oldChain.flatMap Block.txs)
      (newChain.tail.reverse.flatMap Block.txs) ↔
      (∃ b ∈ oldChain, tx ∈ b.txs) ∧ ∀ b ∈ newChain.tail.reverse, tx ∉ b.txs := by
    rw [hashDifference, mem_filter, decide_eq_true_eq, mem_flatMap, mem_flatMap]
    push Not
    rfl
  rw [lookup_foldl fun m t tx => Map.lookup_erase_ite m t tx]
  constructor
  · intro h
    rw [Option.ite_none_left_eq_some, hdiff, txLookup_foldl honce] at h
    obtain ⟨hkept, ⟨b, hb, hnumber⟩ | ⟨hnone, hlookup⟩⟩ := h
    · exact ⟨b, ((mem_tail_reverse hnew).mp hb).1, hnumber.symm⟩
    · obtain ⟨a, ha, rfl, hatx⟩ := (hx _ _).mp hlookup
      obtain ha | ha := (hold.ancestor_iff T.levelled).mp ha
      · exact absurd ⟨⟨a, ha, hatx⟩, hnone⟩ hkept
      · exact ⟨a, ha.trans hnew.ancestor, rfl, hatx⟩
  · rintro ⟨a, ha, rfl, hatx⟩
    rw [Option.ite_none_left_eq_some, hdiff, txLookup_foldl honce]
    have hlt : a.number < new.number := by
      refine lt_of_le_of_ne (T.levelled.level_le ha) fun hnumber => htx ?_
      rwa [T.levelled.eq_of_level ha hnumber.ge] at hatx
    by_cases hhigh : common.number < a.number
    · have hmem := (mem_tail_reverse hnew).mpr ⟨ha, hhigh, hlt⟩
      exact ⟨fun h => h.2 a hmem hatx, .inl ⟨a, hmem, hatx, rfl⟩⟩
    -- a common block, and no other block of either chain has the transaction
    have hcommon := T.levelled.comparable ha hnew.ancestor (by omega)
    constructor
    · rintro ⟨⟨b, hb, hbtx⟩, -⟩
      obtain ⟨hbold, hbhigh⟩ := (hold.mem_iff T.levelled).mp hb
      have hsame := hT.tx_once (hcommon.trans hold.ancestor) hbold hatx hbtx
      rw [hsame] at hhigh
      exact hhigh hbhigh
    · refine .inr ⟨fun b hb hbtx => ?_, (hx _ _).mpr ⟨a, hcommon.trans hold.ancestor,
        rfl, hatx⟩⟩
      obtain ⟨hbnew, hbhigh, -⟩ := (mem_tail_reverse hnew).mp hb
      rw [hT.tx_once ha hbnew hatx hbtx] at hhigh
      exact hhigh hbhigh

end Fork

namespace BlockChain

variable {W : Type}

/-- What a call leaves and returns. -/
def Leads {α : Type} (r : BlockChain W × α) (post : BlockChain W → α → Prop) : Prop := post r.1 r.2

theorem getBlock_of_mem {s : BlockChain W} (hb : b ∈ s.blocks) :
    ∃ b', s.getBlock b.hash b.number = some b' := by
  rw [← Option.isSome_iff_exists, getBlock, find?_isSome]
  exact ⟨b, hb, decide_eq_true ⟨rfl, rfl⟩⟩

theorem applyNew_ok {s : BlockChain W} (h : ∀ b ∈ chain, b ∈ s.blocks) :
    ∃ s' txs, s.applyNew chain = (s', .ok txs) := by
  induction chain generalizing s with
  | nil => exact ⟨s, [], rfl⟩
  | cons b chain ih =>
    obtain ⟨b', hget⟩ := getBlock_of_mem (h b mem_cons_self)
    obtain ⟨s', txs, hrest⟩ := @ih { s with index := s.index.writeHeadBlock b' }
      (fun x hx => h x (mem_cons_of_mem b hx))
    refine ⟨s', b'.txs ++ txs, ?_⟩
    rw [applyNew, hget]
    dsimp only
    rw [hrest]
    rfl

/-- A reorganisation that fails leaves the index, and one that succeeds all of the new chain but
its head. -/
theorem reorg_spec (s : BlockChain W) (old new : Block) : Leads (s.reorg old new) fun s' err =>
    (err ≠ none → s'.index = s.index ∧ s'.blocks = s.blocks) ∧
      ∀ T : Tree, (∀ b ∈ s.blocks, b ∈ T.blocks) → old ∈ T.blocks → new ∈ T.blocks →
        s.index.Lists T old → err = none → s'.index.ListsBelow T new ∧
          (T.Valid → s.index.Indexes T old → s'.index.IndexesBelow T new) ∧
          s'.blocks = s.blocks := by
  rw [reorg]
  cases hsplit : s.split old new with
  | error err => exact ⟨fun _ => ⟨rfl, rfl⟩, by rintro _ - - - - ⟨⟩⟩
  | ok parts =>
    obtain ⟨oldChain, newChain, common⟩ := parts
    dsimp only
    split
    · exact ⟨fun _ => ⟨rfl, rfl⟩, by rintro _ - - - - ⟨⟩⟩
    cases hdeleted : deletedTxs { s with txLookupLock := true } oldChain with
    | none => exact ⟨fun _ => ⟨rfl, rfl⟩, by rintro _ - - - - ⟨⟩⟩
    | some deleted =>
      -- the new blocks were found on the way down, so they are found again
      obtain ⟨-, low, -, hwalk⟩ := split_walk hsplit
      obtain ⟨s₁, rebirth, happly⟩ := @applyNew_ok newChain.tail.reverse W
        { s with txLookupLock := true } (fun b hb => hwalk.tail_mem b (mem_reverse.mp hb))
      dsimp only
      rw [happly]
      refine ⟨fun herr => absurd rfl herr, fun T hstored hold hnew hx _ => ?_⟩
      obtain ⟨hdownOld, hdownNew⟩ := split_down hstored hold hnew hsplit
      obtain ⟨rfl, rfl⟩ := @applyNew_eq W T { s with txLookupLock := true } hstored _
        (fun b hb => T.ancestor_mem ((mem_tail_reverse hdownNew).mp hb).1 hnew) _ _ happly
      obtain rfl := @deletedTxs_eq W T { s with txLookupLock := true } hstored _
        (fun b hb => T.ancestor_mem ((hdownOld.mem_iff T.levelled).mp hb).1 hold) _ hdeleted
      refine ⟨fun n hash hn => ?_, fun hT hx tx n htx => ?_, rfl⟩
      · exact canonical_reorganised hx hdownOld hdownNew hold hnew (lastKept_eq hdownNew) hn hash
      · exact txLookup_reorganised hT hx hdownOld hdownNew htx n

end BlockChain

/-! ## Setting a head -/

/-- The blocks of a chain are in a tree, and its canonical hashes are those of its head. -/
structure BlockChain.Consistent {W : Type} (T : Tree) (s : BlockChain W) : Prop where
  stored : ∀ b ∈ s.blocks, b ∈ T.blocks
  head_mem : s.index.currentBlock ∈ T.blocks
  lists : s.index.Lists T s.index.currentBlock

/-- What a new head leaves, with or without a reorganisation before it. -/
theorem BlockChain.setHead_spec {W : Type} (s : BlockChain W) (block : Block) :
    Leads (s.setHead block) fun s' err =>
      (err ≠ none → s'.index = s.index ∧ s'.blocks = s.blocks) ∧
        ∀ T : Tree, s.Consistent T → block ∈ T.blocks → err = none → s'.Consistent T ∧
          (T.Valid → s.index.Indexes T s.index.currentBlock → s'.index.Indexes T block) ∧
          ∃ x : Index, s'.index = x.writeHeadBlock block := by
  rw [setHead]
  split
  · have hreorg := reorg_spec s s.index.currentBlock block
    generalize s.reorg s.index.currentBlock block = r at hreorg ⊢
    obtain ⟨s₁, _ | err⟩ := r
    · refine ⟨fun herr => absurd rfl herr, fun T h hblock _ => ?_⟩
      obtain ⟨hlists, hindexes, hblocks⟩ := hreorg.2 T h.stored h.head_mem hblock h.lists rfl
      refine ⟨⟨?_, hblock, hlists.writeHeadBlock⟩,
        fun hT hx => (hindexes hT hx).writeHeadBlock hT, _, rfl⟩
      rw [hblocks]
      exact h.stored
    · exact ⟨hreorg.1, by rintro _ - - ⟨⟩⟩
  · next hparent =>
      refine ⟨fun herr => absurd rfl herr, fun T h hblock _ => ?_⟩
      have hp := Tree.parent_of_hash h.head_mem hblock (not_not.mp hparent)
      exact ⟨⟨h.stored, hblock, (h.lists.child hp).writeHeadBlock⟩,
        fun hT hx => (hx.child hp).writeHeadBlock hT, _, rfl⟩

end GoEthereum.Core

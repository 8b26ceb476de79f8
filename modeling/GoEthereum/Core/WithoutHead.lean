import GoEthereum.Core.Canonical

/-!
# Inserting a block without setting the head

`InsertBlockWithoutSetHead` should leave the canonical chain alone. It does unless, in the call,
a block that is known with its state is met off the canonical chain or above the head: the known
block is then made the head, although none was to be set. That is the block itself, or an
ancestor whose state is there again once a block before it has been executed.
-/

namespace GoEthereum.Core

open List

variable {W : Type} {env : Env W} {T : Tree}

variable {b block : Block} {s s' : BlockChain W} {fuel : Nat} {err : Option Err}

namespace BlockChain

/-! ## One block -/

/-- At most the block is written. -/
structure Adds (s s' : BlockChain W) (block : Block) : Prop where
  index : s'.index = s.index
  blocks : s'.blocks = s.blocks ∨ s'.blocks = block :: s.blocks

theorem processBlock_adds (s : BlockChain W) (root : Hash) (block : Block) :
    Adds s (s.processBlock env root block false).1 block := by
  rw [processBlock]
  rcases env.execute s.world root block with ⟨_ | msg, world⟩
  · dsimp only
    rw [if_neg Bool.false_ne_true, writeBlockWithState]
    split
    · exact ⟨rfl, .inl rfl⟩
    · exact ⟨rfl, .inr rfl⟩
  · exact ⟨rfl, .inl rfl⟩

/-- The error with which a block comes that is inserted alone. -/
def verdict (env : Env W) (s : BlockChain W) (block : Block) : Option Err :=
  s.nextErr env (block, env.verifyHeaders s.world s.blocks [block] block)

theorem importBlock_adds {err : Option Err} (hskip : s.skipBlock env err none block = false) :
    Leads (s.importBlock env false none block err) fun s' loop =>
      loop ≠ .next ∧ Adds s s' block := by
  rw [importBlock, insertStopped]
  cases env.insertStopped s.checks with
  | true => exact ⟨Loop.noConfusion, rfl, .inl rfl⟩
  | false =>
    dsimp only
    rw [if_neg (by
      rw [Bool.not_eq_true]
      exact hskip)]
    split
    · exact ⟨Loop.noConfusion, rfl, .inl rfl⟩
    next parent _ =>
      have hadds := @processBlock_adds W env { s with checks := s.checks + 1 } parent.root block
      generalize processBlock env { s with checks := s.checks + 1 } parent.root block false = r
        at hadds ⊢
      obtain ⟨s₂, _ | err⟩ := r
      · exact ⟨Loop.noConfusion, hadds.index, hadds.blocks⟩
      · exact ⟨Loop.noConfusion, hadds.index, hadds.blocks⟩

theorem importBlocks_single {item : Item}
    (hskip : s.skipBlock env (s.nextErr env item) none item.1 = false) :
    Adds s (s.importBlocks env false none [item]).1 item.1 := by
  rw [importBlocks_cons]
  split
  · have hbody := importBlock_adds hskip
    generalize s.importBlock env false none item.1 (s.nextErr env item) = r at hbody ⊢
    obtain ⟨s₁, _ | err⟩ := r
    · exact absurd rfl hbody.1
    · exact hbody.2
  · exact ⟨rfl, .inl rfl⟩

/-- The ways a single block can take. -/
theorem writeKnown_single (s : BlockChain W) (block : Block) :
    s.writeKnown env none [(block, env.verifyHeaders s.world s.blocks [block] block)] =
      if s.skipBlock env (s.verdict env block) none block then
        match s.setHead block with
        | (s₁, some err) => (s₁, some err, none,
            [(block, env.verifyHeaders s.world s.blocks [block] block)])
        | (s₁, none) => (s₁, none, some block, [])
      else (s, none, none, [(block, env.verifyHeaders s.world s.blocks [block] block)]) := rfl

theorem insertBatch_single (insert : BlockChain W → List Block → Bool → BlockChain W × Option Err)
    (s : BlockChain W) (block : Block) :
    s.insertBatch env insert [block] false =
      if s.skipBlock env (s.verdict env block) none block then
        if s.ahead block then s.setHead block else (s, none)
      else if s.verdict env block = some .ErrPrunedAncestor then
        ((s.recoverAncestors env (insert · · false) block).1,
          (s.recoverAncestors env (insert · · false) block).2.2)
      else s.importBlocks env false none
        [(block, env.verifyHeaders s.world s.blocks [block] block)] := by
  have hknown : s.skipKnown env none [(block, env.verifyHeaders s.world s.blocks [block] block)] =
      if s.skipBlock env (s.verdict env block) none block ∧ ¬ s.ahead block then (some block, [])
      else (none, [(block, env.verifyHeaders s.world s.blocks [block] block)]) := rfl
  rw [insertBatch, if_neg (by exact Bool.false_ne_true), map_singleton]
  dsimp only
  rw [hknown]
  by_cases hskip : s.skipBlock env (s.verdict env block) none block = true
  · rw [if_pos hskip]
    by_cases hahead : s.ahead block = true
    · rw [if_neg (fun h => h.2 hahead), if_pos hahead]
      dsimp only
      rw [writeKnown_single, if_pos hskip]
      rcases hset : s.setHead block with ⟨s₁, err⟩
      cases err with
      | some err => rfl
      | none => rfl
    · rw [if_pos ⟨hskip, hahead⟩, if_neg hahead]
      rfl
  · rw [if_neg (fun h => hskip h.1), if_neg hskip]
    dsimp only
    rw [writeKnown_single, if_neg hskip]
    dsimp only
    rw [if_neg Bool.false_ne_true]
    rfl

/-! ## Slips -/

/-- A known block is made the head. -/
structure Overtakes (env : Env W) (s : BlockChain W) (block : Block) : Prop where
  known : s.skipBlock env (s.verdict env block) none block = true
  ahead : s.ahead block = true
  ok : (s.setHead block).2 = none

/-- One of the blocks that are inserted again slips. -/
def SlipsAgain (env : Env W) (slips : BlockChain W → Block → Prop)
    (insert : BlockChain W → List Block → BlockChain W × Option Err) (block : Block) :
    BlockChain W → List Block → Prop
  | _, [] => False
  | s, header :: chain =>
    ∃ s₁, s.insertStopped env = (false, s₁) ∧
      ∃ b, (if chain.isEmpty then some block else s₁.getBlock header.hash header.number) = some b ∧
        (slips s₁ b ∨ ∃ s₂, insert s₁ [b] = (s₂, none) ∧ SlipsAgain env slips insert block s₂ chain)

/-- The block, or an ancestor that is inserted again, is known, off the canonical chain or above
the head, and made the head. -/
def Slips (env : Env W) : Nat → BlockChain W → Block → Prop
  | 0, _, _ => False
  | fuel + 1, s, block =>
    ∃ s₁, s.insertStopped env = (false, s₁) ∧ (s₁.Overtakes env block ∨
        (s₁.verdict env block = some .ErrPrunedAncestor ∧
          ∃ s₂ chain, s₁.pruned env true block.number block [] = (s₂, .ok chain) ∧
            SlipsAgain env (Slips env fuel) (insertChain env fuel · · false) block s₂ chain))

/-- A pruned ancestor is not a known block. -/
theorem skipBlock_pruned {previous : Option Block} :
    s.skipBlock env (some .ErrPrunedAncestor) previous block = false := by
  unfold skipBlock
  exact if_pos fun h => by cases Option.some.inj h

/-! ## Where a slip leads -/

/-- The head goes to an ancestor of a block that is not on the chain of the old head. -/
structure Leaves (T : Tree) (x x' : Index) (block : Block) : Prop where
  ancestor : T.Ancestor x'.currentBlock block
  off : ¬ T.Ancestor x'.currentBlock x.currentBlock

/-- Blocks of one branch: the later head is above the earlier one. -/
theorem Leaves.trans {x x₁ x₂ : Index} (h : Leaves T x x₁ block) (h' : Leaves T x₁ x₂ block) :
    Leaves T x x₂ block := by
  refine ⟨h'.ancestor, fun hold => ?_⟩
  have hlt : x₁.currentBlock.number ≤ x₂.currentBlock.number := by
    by_contra hgt
    exact h'.off (T.levelled.comparable h'.ancestor h.ancestor (by omega))
  exact h.off ((T.levelled.comparable h.ancestor h'.ancestor hlt).trans hold)

/-- The index stays as it is unless there is a slip, and then its head goes to an ancestor of the
block, if the blocks are in the tree. -/
structure Slides (inTree : Prop) (T : Tree) (s s' : BlockChain W) (block : Block)
    (slips : Prop) : Prop where
  same : ¬ slips → s'.index = s.index
  moves : inTree → s.Consistent T →
    s'.Consistent T ∧ (slips → Leaves T s.index s'.index block)

theorem Consistent.of_eq (h : s.Consistent T) (hblocks : ∀ b ∈ s'.blocks, b ∈ T.blocks)
    (hindex : s'.index = s.index) : s'.Consistent T := by
  refine ⟨hblocks, ?_, ?_⟩
  · rw [hindex]
    exact h.head_mem
  · rw [hindex]
    exact h.lists

section Slides

variable {P Q A B : Prop} {s₁ : BlockChain W}

theorem Slides.of_adds (h : Adds s s' block) (hblock : P → block ∈ T.blocks) (hno : ¬ A) :
    Slides P T s s' block A where
  same _ := h.index
  moves hp hs := by
    refine ⟨hs.of_eq ?_ h.index, fun hslips => absurd hslips hno⟩
    obtain hblocks | hblocks := h.blocks
    · rw [hblocks]
      exact hs.stored
    · rw [hblocks]
      exact forall_mem_cons.mpr ⟨hblock hp, hs.stored⟩

theorem Slides.stay (hblocks : s'.blocks = s.blocks) (hindex : s'.index = s.index) (hno : ¬ A) :
    Slides P T s s' block A where
  same _ := hindex
  moves _ hs := ⟨hs.of_eq (by rw [hblocks]; exact hs.stored) hindex, fun hslips => absurd hslips hno⟩

theorem Slides.after (h : Slides P T s₁ s' block A) (hblocks : s₁.blocks = s.blocks)
    (hindex : s₁.index = s.index) (hQ : Q → s.Consistent T → P) (hiff : A ↔ B) :
    Slides Q T s s' block B where
  same hno := (h.same fun hslips => hno (hiff.mp hslips)).trans hindex
  moves hq hs := by
    rw [← hindex, ← hiff]
    exact h.moves (hQ hq hs) (hs.of_eq (by rw [hblocks]; exact hs.stored) hindex)

theorem Slides.trans (h : Slides P T s s₁ b A) (hb : P → s.Consistent T → T.Ancestor b block)
    (h' : Slides P T s₁ s' block B) : Slides P T s s' block (A ∨ B) where
  same hno := (h'.same fun hslips => hno (.inr hslips)).trans (h.same fun hslips => hno (.inl hslips))
  moves hp hs := by
    obtain ⟨hs₁, hfirst⟩ := h.moves hp hs
    obtain ⟨hs', hlast⟩ := h'.moves hp hs₁
    refine ⟨hs', fun hslips => ?_⟩
    by_cases hA : A
    · have hleaves : Leaves T s.index s₁.index block :=
        ⟨(hfirst hA).ancestor.trans (hb hp hs), (hfirst hA).off⟩
      by_cases hB : B
      · exact hleaves.trans (hlast hB)
      · rw [h'.same hB]
        exact hleaves
    · rw [← h.same hA]
      exact hlast (hslips.resolve_left hA)

end Slides

/-- A block ahead of the head is not on its chain. -/
theorem Consistent.not_ancestor (h : s.Consistent T) (hahead : s.ahead block = true) :
    ¬ T.Ancestor block s.index.currentBlock := by
  intro hanc
  obtain hnumber | hhash := of_decide_eq_true hahead
  · have hle := T.levelled.level_le hanc
    omega
  · refine hhash ?_
    rw [Index.canonicalHash, (h.lists block.number block.hash).mpr ⟨block, hanc, rfl, rfl⟩]
    rfl

theorem Consistent.setHead (h : s.Consistent T) (hblock : block ∈ T.blocks)
    (hahead : s.ahead block = true) (hok : s.setHead block = (s', none)) :
    s'.Consistent T ∧ Leaves T s.index s'.index block := by
  have hset := (setHead_spec s block).2 T h hblock
  rw [hok] at hset
  obtain ⟨hcons, -, x, hx⟩ := hset rfl
  have hcur : s'.index.currentBlock = block := by
    rw [hx]
    rfl
  refine ⟨hcons, ?_, ?_⟩
  · rw [hcur]
  · rw [hcur]
    exact h.not_ancestor hahead

theorem reinsert_slides (env : Env W) {slips : BlockChain W → Block → Prop}
    (insert : BlockChain W → List Block → BlockChain W × Option Err)
    (hinsert : ∀ s b, Slides (b ∈ T.blocks) T s (insert s [b]).1 b (slips s b)) {P : Prop}
    {chain : List Block} (hP : P → block ∈ T.blocks ∧ ∀ x ∈ chain, x ∈ T.blocks ∧ T.Ancestor x block)
    (s : BlockChain W) : Slides P T s (s.reinsert env insert block chain).1 block
      (SlipsAgain env slips insert block s chain) := by
  induction chain generalizing s with
  | nil => exact .stay rfl rfl id
  | cons header chain ih =>
    rw [reinsert, SlipsAgain, insertStopped]
    suffices hnext : Slides P T { s with checks := s.checks + 1 } _ block _ from
      hnext.after rfl rfl (fun hp _ => hp) Iff.rfl
    generalize { s with checks := s.checks + 1 } = s₁
    cases env.insertStopped s.checks with
    | true => exact .stay rfl rfl (by simp)
    | false =>
      simp only [Prod.mk.injEq, true_and, exists_eq_left']
      cases hget : (if chain.isEmpty then some block
          else s₁.getBlock header.hash header.number) with
      | none => exact .stay rfl rfl (by simp)
      | some b =>
        have hb : P → s₁.Consistent T → b ∈ T.blocks ∧ T.Ancestor b block := by
          intro hp hs₁
          split at hget
          · cases hget
            exact ⟨(hP hp).1, .refl⟩
          · obtain ⟨hmem, hanc⟩ := (hP hp).2 header mem_cons_self
            rw [getBlock_self hs₁.stored hmem hget]
            exact ⟨hmem, hanc⟩
        have hfirst := (hinsert s₁ b).after rfl rfl (fun hp hs₁ => (hb hp hs₁).1) Iff.rfl
        have hanc := fun hp hs₁ => (hb hp hs₁).2
        dsimp only
        rcases hins : insert s₁ [b] with ⟨s₂, _ | err⟩
        · rw [hins] at hfirst
          have hrest := ih (fun hp => ⟨(hP hp).1, fun x hx =>
            (hP hp).2 x (mem_cons_of_mem header hx)⟩) s₂
          exact (hfirst.trans hanc hrest).after rfl rfl (fun hp _ => hp) (by simp [hins])
        · rw [hins] at hfirst
          have hrest : Slides P T s₂ s₂ block False := .stay rfl rfl id
          exact (hfirst.trans hanc hrest).after rfl rfl (fun hp _ => hp) (by simp [hins])

theorem insertBatch_slides {slips : BlockChain W → Block → Prop}
    {insert : BlockChain W → List Block → Bool → BlockChain W × Option Err}
    (hinsert : ∀ s b, Slides (b ∈ T.blocks) T s (insert s [b] false).1 b (slips s b))
    (s : BlockChain W) (block : Block) :
    Slides (block ∈ T.blocks) T s (s.insertBatch env insert [block] false).1 block
      (s.Overtakes env block ∨ (s.verdict env block = some .ErrPrunedAncestor ∧
        ∃ s₂ chain, s.pruned env true block.number block [] = (s₂, .ok chain) ∧
          SlipsAgain env slips (insert · · false) block s₂ chain)) := by
  rw [insertBatch_single]
  split
  · next hskip =>
    have hnot : s.verdict env block ≠ some .ErrPrunedAncestor := by
      intro hpruned
      rw [hpruned, skipBlock_pruned] at hskip
      cases hskip
    split
    · next hahead =>
      rcases hset : s.setHead block with ⟨s₁, _ | err⟩
      · have hover : s.Overtakes env block := ⟨hskip, hahead, by rw [hset]⟩
        refine ⟨fun hno => absurd (.inl hover) hno, fun hblock hs => ?_⟩
        obtain ⟨hcons, hleaves⟩ := hs.setHead hblock hahead hset
        exact ⟨hcons, fun _ => hleaves⟩
      have hkept := (setHead_spec s block).1
      rw [hset] at hkept
      obtain ⟨hindex, hblocks⟩ := hkept (Option.some_ne_none err)
      refine .stay hblocks hindex ?_
      rintro (hover | ⟨hpruned, -⟩)
      · have hok := hover.ok
        rw [hset] at hok
        cases hok
      · exact hnot hpruned
    · next hahead =>
      refine .stay rfl rfl ?_
      rintro (hover | ⟨hpruned, -⟩)
      · exact hahead hover.ahead
      · exact hnot hpruned
  next hskip =>
  have hnot : ¬ s.Overtakes env block := fun hover => hskip hover.known
  split
  · next hpruned =>
    rw [recoverAncestors]
    obtain ⟨hblocks, hindex, hpassed⟩ := pruned_spec env T s true block.number block block []
    generalize s.pruned env true block.number block [] = r at hblocks hindex hpassed ⊢
    obtain ⟨s₁, err | chain⟩ := r
    · exact .stay hblocks hindex (by simp [hnot])
    · have hchain : s.Consistent T ∧ block ∈ T.blocks → _ := fun hp => hpassed chain rfl
        hp.1.stored hp.2 .refl fun x hx => absurd hx not_mem_nil
      have hrest := reinsert_slides env (insert · · false) hinsert
        (fun hp => ⟨hp.2, hchain hp⟩) s₁
      exact hrest.after hblocks hindex (fun hblock hs => ⟨hs, hblock⟩) (by simp [hnot, hpruned])
  · next hpruned =>
    have hskip' := hskip
    rw [Bool.not_eq_true] at hskip'
    exact .of_adds (importBlocks_single hskip') id (by simp [hnot, hpruned])

/-- The index of a chain is as it was, or there was a slip. -/
theorem insertChain_slides (T : Tree) (fuel : Nat) (s : BlockChain W) (block : Block) :
    Slides (block ∈ T.blocks) T s (s.insertChain env fuel [block] false).1 block
      (Slips env fuel s block) := by
  induction fuel generalizing s block with
  | zero => exact .stay rfl rfl id
  | succ fuel ih =>
    rw [insertChain, Slips, insertStopped]
    cases env.insertStopped s.checks with
    | true => exact .stay rfl rfl (by simp)
    | false =>
      exact (insertBatch_slides ih { s with checks := s.checks + 1 } block).after rfl rfl
        (fun hblock _ => hblock) (by simp)

/-! ## Blocks outside the tree -/

end BlockChain

/-- A tree with one more block on top. -/
def Tree.extend (T : Tree) (p block : Block) (hp : p ∈ T.blocks) (hfollows : p.Follows block)
    (hzero : block.hash ≠ zeroHash) (hnew : ∀ b ∈ T.blocks, b.hash ≠ block.hash) : Tree where
  blocks := insert block T.blocks
  genesis := T.genesis
  genesis_mem := Set.mem_insert_of_mem _ T.genesis_mem
  genesis_number := T.genesis_number
  genesis_parent := T.genesis_parent
  hash_inj := by
    rintro a (rfl | ha) b (rfl | hb) hhash
    · rfl
    · exact absurd hhash.symm (hnew b hb)
    · exact absurd hhash (hnew a ha)
    · exact T.hash_inj ha hb hhash
  hash_ne := by
    rintro b (rfl | hb)
    · exact hzero
    · exact T.hash_ne b hb
  parent := by
    rintro b (rfl | hb) hne
    · exact ⟨p, Set.mem_insert_of_mem _ hp, hfollows⟩
    · obtain ⟨q, hq, hqb⟩ := T.parent b hb hne
      exact ⟨q, Set.mem_insert_of_mem _ hq, hqb⟩

theorem Tree.extend_ancestor {p : Block} {hp : p ∈ T.blocks} {hfollows : p.Follows block}
    {hzero : block.hash ≠ zeroHash} {hnew : ∀ b ∈ T.blocks, b.hash ≠ block.hash} {a : Block}
    (hb : b ∈ T.blocks) :
    (T.extend p block hp hfollows hzero hnew).Ancestor a b ↔ T.Ancestor a b := by
  constructor
  · intro h
    induction h with
    | refl => exact .refl
    | @tail q b _ hstep ih =>
      obtain ⟨hq, -, hqb⟩ := hstep
      -- the new block is not the parent of an old one
      have hqmem : q ∈ T.blocks := by
        obtain rfl | hq := hq
        · have hne : b ≠ T.genesis := by
            rintro rfl
            exact hzero (hqb.parentHash.symm.trans T.genesis_parent)
          obtain ⟨r, hr, hrb⟩ := T.parent b hb hne
          exact absurd (hrb.parentHash.symm.trans hqb.parentHash) (hnew r hr)
        · exact hq
      exact (ih hqmem).tail ⟨hqmem, hb, hqb⟩
  · intro h
    induction h with
    | refl => exact .refl
    | tail _ hstep ih =>
      exact (ih hstep.1).tail
        ⟨Set.mem_insert_of_mem _ hstep.1, Set.mem_insert_of_mem _ hstep.2.1, hstep.2.2⟩

namespace BlockChain

theorem Consistent.extend (h : s.Consistent T) {p : Block} (hp : p ∈ T.blocks)
    (hfollows : p.Follows block) (hzero : block.hash ≠ zeroHash)
    (hnew : ∀ b ∈ T.blocks, b.hash ≠ block.hash) :
    s.Consistent (T.extend p block hp hfollows hzero hnew) := by
  refine ⟨fun b hb => Set.mem_insert_of_mem _ (h.stored b hb),
    Set.mem_insert_of_mem _ h.head_mem, fun n hash => ?_⟩
  rw [h.lists n hash]
  simp only [Tree.extend_ancestor h.head_mem]

/-- A known block is in the database, and a block with a pruned ancestor has its parent there. -/
theorem verdict_cases {err : Err} (h : s.verdict env block = some err) :
    (err = .ErrKnownBlock → ∃ b, s.getBlock block.hash block.number = some b) ∧
      (err = .ErrPrunedAncestor → ∃ p, s.parentOf block = some p) := by
  rw [verdict, nextErr] at h
  dsimp only at h
  split at h
  · cases h
    exact ⟨(by rintro ⟨⟩), by rintro ⟨⟩⟩
  rw [validateBody] at h
  split at h
  · next hhas =>
    cases h
    refine ⟨fun _ => ?_, by rintro ⟨⟩⟩
    rw [hasBlockAndState] at hhas
    cases hget : s.getBlock block.hash block.number with
    | none =>
      rw [hget] at hhas
      cases hhas
    | some b => exact ⟨b, rfl⟩
  split at h
  · cases h
    exact ⟨(by rintro ⟨⟩), by rintro ⟨⟩⟩
  split at h
  · cases h
    exact ⟨(by rintro ⟨⟩), by rintro ⟨⟩⟩
  next p hparent =>
  split at h
  · cases h
  · cases h
    exact ⟨(by rintro ⟨⟩), fun _ => ⟨p, hparent⟩⟩

theorem skipBlock_known {previous : Option Block} (h : s.skipBlock env err previous block = true) :
    err = some .ErrKnownBlock := by
  unfold skipBlock at h
  split at h
  · cases h
  · next hne => exact not_not.mp hne

/-- A block that slips is in the database, or its parent is. -/
theorem Slips.stored {fuel : Nat} {s : BlockChain W} {block : Block} (h : Slips env fuel s block) :
    (∃ b, s.getBlock block.hash block.number = some b) ∨ ∃ p, s.parentOf block = some p := by
  cases fuel with
  | zero => exact h.elim
  | succ fuel =>
    obtain ⟨s₁, hs₁, hover | ⟨hpruned, -⟩⟩ := h
    · obtain ⟨-, rfl⟩ := Prod.mk.inj hs₁
      exact .inl ((verdict_cases (skipBlock_known hover.known)).1 rfl)
    · obtain ⟨-, rfl⟩ := Prod.mk.inj hs₁
      exact .inr ((verdict_cases hpruned).2 rfl)

theorem Slips.index_ne (h : s.Consistent T) (hzero : block.hash ≠ zeroHash)
    (hhash : ∀ b ∈ T.blocks, b.hash = block.hash → b = block) (hslips : Slips env fuel s block) :
    (s.insertChain env fuel [block] false).1.index ≠ s.index := by
  have hleaves : ∃ T' : Tree, Leaves T' s.index (s.insertChain env fuel [block] false).1.index
      block := by
    by_cases hmem : block ∈ T.blocks
    · exact ⟨T, ((insertChain_slides T fuel s block).moves hmem h).2 hslips⟩
    have hnew : ∀ b ∈ T.blocks, b.hash ≠ block.hash := by
      intro b hb hsame
      rw [hhash b hb hsame] at hb
      exact hmem hb
    obtain ⟨b, hget⟩ | ⟨p, hparent⟩ := hslips.stored
    · obtain ⟨hb, hsame, -⟩ := getBlock_some hget
      exact absurd hsame (hnew b (h.stored b hb))
    · obtain ⟨hp, hfollows⟩ := parentOf_some hparent
      have hext := h.extend (h.stored p hp) hfollows hzero hnew
      exact ⟨_, ((insertChain_slides _ fuel s block).moves (Set.mem_insert _ _) hext).2 hslips⟩
  obtain ⟨T', hleaves⟩ := hleaves
  intro hsame
  rw [hsame] at hleaves
  exact hleaves.off .refl

end BlockChain

/-- Inserting without setting the head leaves the canonical chain alone, unless there is a
slip. -/
theorem InsertBlockWithoutSetHead_index_iff {fuel : Nat} {s : BlockChain W}
    (h : s.Consistent T) {block : Block} (hzero : block.hash ≠ zeroHash)
    (hhash : ∀ b ∈ T.blocks, b.hash = block.hash → b = block) :
    (s.InsertBlockWithoutSetHead env fuel block).1.index = s.index ↔
      ¬ (env.chainStopped s.world = false ∧ s.Slips env fuel block) := by
  rw [BlockChain.InsertBlockWithoutSetHead]
  split
  · next hstopped =>
    refine iff_of_true rfl fun hslips => ?_
    rw [hstopped] at hslips
    cases hslips.1
  next hstopped =>
  rw [Bool.not_eq_true] at hstopped
  constructor
  · exact fun hsame hslips => hslips.2.index_ne h hzero hhash hsame
  · exact fun hno => (BlockChain.insertChain_slides T fuel s block).same fun hslips =>
      hno ⟨hstopped, hslips⟩

/-! ## A block that is inserted twice -/

def forkStart : BlockChain (List Hash) := .start forkGenesis [forkGenesis.root]

theorem forkStart_verdict : forkStart.verdict keepingEnv forkA1 = none := by
  decide +kernel

theorem InsertBlockWithoutSetHead_index_iff_once :
    (forkStart.InsertBlockWithoutSetHead keepingEnv 1 forkA1).1.index = forkStart.index := by
  refine (InsertBlockWithoutSetHead_index_iff
    (BlockChain.start_sound forkTree_valid [forkGenesis.root]).toConsistent
    (forkTree.hash_ne forkA1 (mem_cons_of_mem _ mem_cons_self)) ?_).mpr ?_
  · exact fun b hb hhash => forkTree.hash_inj hb (mem_cons_of_mem _ mem_cons_self) hhash
  · rintro ⟨-, s₁, hs₁, hover | ⟨hpruned, -⟩⟩
    · obtain ⟨-, rfl⟩ := Prod.mk.inj hs₁
      cases forkStart_verdict.symm.trans (BlockChain.skipBlock_known hover.known)
    · obtain ⟨-, rfl⟩ := Prod.mk.inj hs₁
      cases forkStart_verdict.symm.trans hpruned

/-- The second insertion makes the block the head. -/
theorem InsertBlockWithoutSetHead_twice :
    let once := (forkStart.InsertBlockWithoutSetHead keepingEnv 1 forkA1).1
    let twice := once.InsertBlockWithoutSetHead keepingEnv 1 forkA1
    once.index.currentBlock = forkGenesis ∧ once.index.canonicalHash 1 = zeroHash ∧
      once.index.headBlock = forkGenesis.hash ∧
      once.index.txLookup.lookup (bytesToHash [17]) = none ∧
      twice.2 = none ∧ twice.1.index.currentBlock = forkA1 ∧
      twice.1.index.canonicalHash 1 = forkA1.hash ∧ twice.1.index.headBlock = forkA1.hash ∧
      twice.1.index.txLookup.lookup (bytesToHash [17]) = some 1 := by
  decide +kernel

end GoEthereum.Core

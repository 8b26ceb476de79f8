import GoEthereum.Common
import GoEthereum.Lib.Collections

/-!
# The block chain

`core/blockchain.go`: what is written to the database and kept in memory about which chain is
canonical, by `InsertChain`, `InsertBlockWithoutSetHead` and `SetCanonical`. A block is known
by its hash; executing blocks, the states that are available, snapshots, the consensus engine
and interrupts are the environment, which may answer anything at any time.

A Go function that may fail returns the chain it leaves and its error; a failed call has
written what it has written.
-/

namespace GoEthereum.Core

/-- `types.Block`, and its header. The number is not the one to which the number before 0
wraps, so a block 0 has no parent. -/
structure Block where
  hash : Hash
  parentHash : Hash
  number : Nat
  root : Hash
  txs : List Hash
  size : Nat
  number_lt : number < 2 ^ 64 - 1
deriving DecidableEq

inductive Err where
  | ErrKnownBlock
  | ErrUnknownAncestor
  | ErrPrunedAncestor
  | errChainStopped
  | errInsertionInterrupted
  | errInvalidOldChain
  | errInvalidNewChain
  | missingParent
  | ghostState
  | nonContiguous (index : Nat)
  | other (msg : String)
  /-- A nil block or an empty batch is looked into. -/
  | panic
  /-- The call waits for a lock that nobody releases. -/
  | deadlock
  /-- The calls of `insertChain` nest deeper than they are followed. -/
  | outOfFuel
deriving DecidableEq

def zeroHash : Hash := bytesToHash []

/-! ## The canonical chain -/

/-- Which blocks are canonical: the hashes by number, the transaction lookups and the markers on
disk, and the markers in memory. -/
structure Index where
  canonical : Map Nat Hash
  txLookup : Map Hash Nat
  headHeader : Hash
  headFast : Hash
  headBlock : Hash
  currentHeader : Block
  currentSnapBlock : Block
  currentBlock : Block

/-- `WriteTxLookupEntriesByBlock`. -/
def writeTxLookupEntries (lookup : Map Hash Nat) (block : Block) : Map Hash Nat :=
  block.txs.foldl (fun m tx => m.insert tx block.number) lookup

instance : LawfulBEq Hash := inferInstance

/-- `HashDifference`. -/
def hashDifference (a b : List Hash) : List Hash := a.filter fun hash => decide (hash ∉ b)

namespace Index

/-- `ReadCanonicalHash`. -/
def canonicalHash (x : Index) (number : Nat) : Hash := (x.canonical.lookup number).getD zeroHash

def writeHeadBlock (x : Index) (block : Block) : Index where
  headHeader := block.hash
  headFast := block.hash
  canonical := x.canonical.insert block.number block.hash
  txLookup := writeTxLookupEntries x.txLookup block
  headBlock := block.hash
  currentHeader := block
  currentSnapBlock := block
  currentBlock := block

end Index

/-- The loop of `reorg` that deletes the canonical hashes from a number on, up to the first one
that is missing. -/
def deleteCanonical : Nat → Nat → Map Nat Hash → Map Nat Hash
  | 0, _, canonical => canonical
  | fuel + 1, i, canonical =>
    match canonical.lookup i with
    | none => canonical
    | some hash =>
      if hash = zeroHash then canonical
      else deleteCanonical fuel (i + 1) (canonical.erase i)

/-- The number above which `reorg` deletes the canonical hashes. -/
def lastKept (commonBlock : Block) : List Block → Nat
  | _ :: second :: _ => second.number
  | _ => commonBlock.number

/-! ## The chain and its environment -/

structure BlockChain (W : Type) where
  world : W
  /-- The blocks in the database. -/
  blocks : List Block
  index : Index
  txLookupLock : Bool
  /-- How often it was asked whether to stop. -/
  checks : Nat

/-- What is around the chain. -/
structure Env (W : Type) where
  /-- Whether the chain is closed, so that its mutex cannot be taken. -/
  chainStopped : W → Bool
  /-- Whether the chain is terminating, at each time it is asked. -/
  insertStopped : Nat → Bool
  hasState : W → Hash → Bool
  stateRecoverable : W → Hash → Bool
  recover : W → Hash → Option String × W
  /-- `bc.snaps`, if there are any, and the roots they have. -/
  snaps : W → Option (Hash → Bool)
  /-- The engine's result for a header of a batch. -/
  verifyHeaders : W → List Block → List Block → Block → Option String
  /-- The checks of uncles, transactions and withdrawals in `ValidateBody`. -/
  validateContents : W → List Block → Block → Option String
  /-- `Process` and `ValidateState` on the state of the parent. -/
  execute : W → Hash → Block → Option String × W
  /-- `statedb.Commit` and the garbage collection, which reads canonical headers. -/
  commit : W → (Nat → Option Block) → Block → Option String × W

section Chain

variable {W : Type} (env : Env W)

namespace BlockChain

section

variable (s : BlockChain W)

/-- `GetBlock` and `GetHeader`. -/
def getBlock (hash : Hash) (number : Nat) : Option Block :=
  s.blocks.find? fun b => decide (b.hash = hash ∧ b.number = number)

/-- `GetHeader` of the parent. -/
def parentOf (block : Block) : Option Block :=
  if block.number = 0 then none else s.getBlock block.parentHash (block.number - 1)

/-- `GetHeaderByHash`. -/
def getHeaderByHash (hash : Hash) : Option Block :=
  s.blocks.find? fun b => decide (b.hash = hash)

/-- `GetBlockByNumber`. -/
def getBlockByNumber (number : Nat) : Option Block :=
  let hash := s.index.canonicalHash number
  if hash = zeroHash then none else s.getBlock hash number

/-- `HasBlockAndState`. -/
def hasBlockAndState (hash : Hash) (number : Nat) : Bool :=
  match s.getBlock hash number with
  | none => false
  | some block => env.hasState s.world block.root

/-- `WriteBlock`. -/
def writeBlock (block : Block) : BlockChain W :=
  { s with blocks := block :: s.blocks }

def insertStopped : Bool × BlockChain W :=
  (env.insertStopped s.checks, { s with checks := s.checks + 1 })

/-! ## Reorganisation -/

/-- The first loops of `reorg`: so many blocks down. -/
def descend (s : BlockChain W) : Nat → Block → Option (List Block × Block)
  | 0, head => some ([], head)
  | n + 1, head =>
    match s.parentOf head with
    | none => none
    | some parent => (s.descend n parent).map fun (chain, low) => (head :: chain, low)

/-- The loop of `reorg` that steps back with both chains, from a number on. -/
def stepBack (s : BlockChain W) : Nat → Block → Block → Except Err (List Block × List Block × Block)
  | n, oldHead, newHead =>
    if oldHead.hash = newHead.hash then .ok ([], [], oldHead)
    else
      match s.parentOf oldHead with
      | none => .error .errInvalidOldChain
      | some oldParent =>
        match s.parentOf newHead with
        | none => .error .errInvalidNewChain
        | some newParent =>
          match n with
          -- block 0 has no parent, so that this is not reached
          | 0 => .error .errInvalidOldChain
          | n + 1 =>
            (s.stepBack n oldParent newParent).map fun (oldChain, newChain, common) =>
              (oldHead :: oldChain, newHead :: newChain, common)

/-- The old chain, the new chain and the common block. -/
def split (oldHead newHead : Block) :
    Except Err (List Block × List Block × Block) :=
  if oldHead.number > newHead.number then
    match s.descend (oldHead.number - newHead.number) oldHead with
    | none => .error .errInvalidOldChain
    | some (longer, oldHead) =>
      (s.stepBack oldHead.number oldHead newHead).map fun (oldChain, newChain, common) =>
        (longer ++ oldChain, newChain, common)
  else
    match s.descend (newHead.number - oldHead.number) newHead with
    | none => .error .errInvalidNewChain
    | some (longer, newHead) =>
      (s.stepBack oldHead.number oldHead newHead).map fun (oldChain, newChain, common) =>
        (oldChain, longer ++ newChain, common)

/-- The transactions of the old blocks. -/
def deletedTxs (s : BlockChain W) : List Block → Option (List Hash)
  | [] => some []
  | header :: chain =>
    match s.getBlock header.hash header.number with
    | none => none
    | some block => (s.deletedTxs chain).map fun txs => block.txs ++ txs

/-- The loop that makes the new blocks the head one by one, and their transactions. -/
def applyNew : BlockChain W → List Block → BlockChain W × Except Err (List Hash)
  | s, [] => (s, .ok [])
  | s, header :: chain =>
    match s.getBlock header.hash header.number with
    | none => (s, .error .errInvalidNewChain)
    | some block =>
      let (s, rebirthTxs) := applyNew { s with index := s.index.writeHeadBlock block } chain
      (s, rebirthTxs.map fun txs => block.txs ++ txs)

/-- `reorg`. A call that fails behind the lock leaves it locked. -/
def reorg (oldHead newHead : Block) : BlockChain W × Option Err :=
  match s.split oldHead newHead with
  | .error err => (s, some err)
  | .ok (oldChain, newChain, commonBlock) =>
    if s.txLookupLock then (s, some .deadlock)
    else
      let s := { s with txLookupLock := true }
      match s.deletedTxs oldChain with
      | none => (s, some .errInvalidOldChain)
      | some deletedTxs =>
        match s.applyNew newChain.tail.reverse with
        | (s, .error err) => (s, some err)
        | (s, .ok rebirthTxs) =>
          let index := { s.index with
            txLookup := (hashDifference deletedTxs rebirthTxs).foldl (fun m tx => m.erase tx)
              s.index.txLookup
            canonical := deleteCanonical s.index.canonical.keys.card
              (lastKept commonBlock newChain + 1) s.index.canonical }
          ({ s with index := index, txLookupLock := false }, none)

/-- What `writeKnownBlock`, `writeBlockAndSetHead` and `SetCanonical` do to set a head. -/
def setHead (block : Block) : BlockChain W × Option Err :=
  if block.parentHash ≠ s.index.currentBlock.hash then
    match s.reorg s.index.currentBlock block with
    | (s, some err) => (s, some err)
    | (s, none) => ({ s with index := s.index.writeHeadBlock block }, none)
  else ({ s with index := s.index.writeHeadBlock block }, none)

def writeKnownBlock (block : Block) : BlockChain W × Option Err :=
  s.setHead block

/-! ## Writing blocks -/

def writeBlockWithoutState (block : Block) : BlockChain W × Option Err :=
  match s.insertStopped env with
  | (true, s) => (s, some .errInsertionInterrupted)
  | (false, s) => (s.writeBlock block, none)

def writeBlockWithState (block : Block) : BlockChain W × Option Err :=
  if (s.parentOf block).isNone then (s, some .ErrUnknownAncestor)
  else
    let s := s.writeBlock block
    let (err, world) := env.commit s.world s.getBlockByNumber block
    ({ s with world := world }, err.map .other)

def writeBlockAndSetHead (block : Block) : BlockChain W × Option Err :=
  match s.writeBlockWithState env block with
  | (s, some err) => (s, some err)
  | (s, none) => s.setHead block

def processBlock (parentRoot : Hash) (block : Block) (setHead : Bool) :
    BlockChain W × Option Err :=
  match env.execute s.world parentRoot block with
  | (some msg, world) => ({ s with world := world }, some (.other msg))
  | (none, world) =>
    let s := { s with world := world }
    if setHead then s.writeBlockAndSetHead env block else s.writeBlockWithState env block

/-! ## Importing blocks -/

/-- `ValidateBody`. -/
def validateBody (block : Block) : Option Err :=
  if s.hasBlockAndState env block.hash block.number then some .ErrKnownBlock
  else
    match env.validateContents s.world s.blocks block with
    | some msg => some (.other msg)
    | none =>
      match s.parentOf block with
      | none => some .ErrUnknownAncestor
      | some parent => if env.hasState s.world parent.root then none else some .ErrPrunedAncestor

/-- A block that the iterator has not passed, with the engine's result for its header. -/
abbrev Item : Type := Block × Option String

/-- The error with which `next` returns a block. -/
def nextErr (item : Item) : Option Err :=
  match item.2 with
  | some msg => some (.other msg)
  | none => s.validateBody env item.1

/-- `skipBlock`, behind the block `previous` of the batch. -/
def skipBlock (err : Option Err) (previous : Option Block) (block : Block) :
    Bool :=
  if err ≠ some .ErrKnownBlock then false
  else
    match env.snaps s.world with
    | none => true
    | some snapshot =>
      if snapshot block.root then true
      else
        let parentRoot :=
          match previous with
          | some parent => parent.root
          | none =>
            match s.getHeaderByHash block.parentHash with
            | some parent => parent.root
            | none => zeroHash
        if parentRoot = zeroHash then false else !snapshot parentRoot

/-- A known block that is not behind the head. -/
def ahead (block : Block) : Bool :=
  decide (block.number > s.index.currentBlock.number ∨
    s.index.canonicalHash block.number ≠ block.hash)

/-- The loop that skips the known blocks behind the head. -/
def skipKnown (s : BlockChain W) : Option Block → List Item → Option Block × List Item
  | previous, [] => (previous, [])
  | previous, item :: rest =>
    if s.skipBlock env (s.nextErr env item) previous item.1 ∧ ¬ s.ahead item.1 then
      s.skipKnown (some item.1) rest
    else (previous, item :: rest)

end

/-- The loop that writes the known blocks that remain. -/
def writeKnown : BlockChain W → Option Block → List Item →
    BlockChain W × Option Err × Option Block × List Item
  | s, previous, [] => (s, none, previous, [])
  | s, previous, item :: rest =>
    if s.skipBlock env (s.nextErr env item) previous item.1 then
      match s.writeKnownBlock item.1 with
      | (s, some err) => (s, some err, previous, item :: rest)
      | (s, none) => writeKnown s (some item.1) rest
    else (s, none, previous, item :: rest)

/-- How a loop goes on behind a block. -/
inductive Loop where
  | next
  | done (err : Option Err)

/-- The body of the main loop of `insertChain`, at a block with the error it came with: none, or
that the block is known. -/
def importBlock (setHead : Bool) (s : BlockChain W) (previous : Option Block) (block : Block)
    (err : Option Err) : BlockChain W × Loop :=
  match s.insertStopped env with
  | (true, s) => (s, .done err)
  | (false, s) =>
    if s.skipBlock env err previous block then
      match s.writeKnownBlock block with
      | (s, some err) => (s, .done (some err))
      | (s, none) => (s, .next)
    else
      match previous <|> s.parentOf block with
      | none => (s, .done (some .panic))
      | some parent =>
        match s.processBlock env parent.root block setHead with
        | (s, some err) => (s, .done (some err))
        | (s, none) => (s, if setHead then .next else .done none)

/-- The main loop of `insertChain`. -/
def importBlocks (setHead : Bool) : BlockChain W → Option Block → List Item →
    BlockChain W × Option Err
  | s, _, [] => (s, none)
  | s, previous, item :: rest =>
    match s.nextErr env item with
    | none =>
      match s.importBlock env setHead previous item.1 none with
      | (s, .done err) => (s, err)
      | (s, .next) => importBlocks setHead s (some item.1) rest
    | some .ErrKnownBlock =>
      match s.importBlock env setHead previous item.1 (some .ErrKnownBlock) with
      | (s, .done err) => (s, err)
      | (s, .next) => importBlocks setHead s (some item.1) rest
    | some err => (s, some err)

/-! ## Pruned ancestors -/

/-- The body of the first loop of `insertSideChain`: a block behind a pruned ancestor is written
without state. -/
def writeSideBlock (s : BlockChain W) (current block : Block) : BlockChain W × Option Err :=
  let canonical := if current.number ≥ block.number then s.getBlockByNumber block.number else none
  if canonical.map Block.hash = some block.hash then (s, none)
  else if canonical.map Block.root = some block.root then (s, some .ghostState)
  else if (s.getBlock block.hash block.number).isSome then (s, none)
  else s.writeBlockWithoutState env block

/-- The loop, which ends with the last block behind a pruned ancestor. -/
def writeSideBlocks (current : Block) : BlockChain W → Block → List Item →
    BlockChain W × Except Err Block
  | s, block, rest =>
    match s.writeSideBlock env current block with
    | (s, some err) => (s, .error err)
    | (s, none) =>
      match rest with
      | [] => (s, .ok block)
      | item :: rest =>
        if s.nextErr env item = some .ErrPrunedAncestor then
          writeSideBlocks current s item.1 rest
        else (s, .ok block)

/-- How the search for a block with state goes on. -/
inductive Search where
  | found
  | failed (err : Err)
  | parent (block : Block)

/-- The body of the loop of `insertSideChain`, or of `recoverAncestors`, which can be
interrupted, at a block. -/
def searchState (interruptible : Bool) (s : BlockChain W) (block : Block) : BlockChain W × Search :=
  if env.hasState s.world block.root then (s, .found)
  else if env.stateRecoverable s.world block.root then
    match env.recover s.world block.root with
    | (some msg, world) => ({ s with world := world }, .failed (.other msg))
    | (none, world) => ({ s with world := world }, .found)
  else
    match if interruptible then s.insertStopped env else (false, s) with
    | (true, s) => (s, .failed .errInsertionInterrupted)
    | (false, s) =>
      match s.parentOf block with
      | none => (s, .failed .missingParent)
      | some parent => (s, .parent parent)

/-- The blocks without state up to a block, in order. -/
def pruned (interruptible : Bool) : Nat → BlockChain W → Block → List Block →
    BlockChain W × Except Err (List Block)
  | n, s, block, chain =>
    match s.searchState env interruptible block with
    | (s, .found) => (s, .ok chain)
    | (s, .failed err) => (s, .error err)
    | (s, .parent parent) =>
      match n with
      -- block 0 has no parent, so that this is not reached
      | 0 => (s, .error .missingParent)
      | n + 1 => pruned interruptible n s parent (block :: chain)

/-- The import of `insertSideChain`, in segments of limited length and size. -/
def importSegments (insert : BlockChain W → List Block → BlockChain W × Option Err) :
    BlockChain W → List Block → Nat → List Block → BlockChain W × Option Err
  | s, blocks, _, [] => if blocks.isEmpty then (s, none) else insert s blocks
  | s, blocks, memory, header :: chain =>
    match s.getBlock header.hash header.number with
    | none => (s, some .panic)
    | some block =>
      if (blocks ++ [block]).length ≥ 2048 ∨ memory + block.size > 64 * 1024 * 1024 then
        match insert s (blocks ++ [block]) with
        | (s, some err) => (s, some err)
        | (s, none) =>
          match s.insertStopped env with
          | (true, s) => (s, none)
          | (false, s) => importSegments insert s [] 0 chain
      else importSegments insert s (blocks ++ [block]) (memory + block.size) chain

def insertSideChain (insert : BlockChain W → List Block → BlockChain W × Option Err)
    (s : BlockChain W) (block : Block) (rest : List Item) : BlockChain W × Option Err :=
  match s.writeSideBlocks env s.index.currentBlock block rest with
  | (s, .error err) => (s, some err)
  | (s, .ok last) =>
    match s.pruned env false last.number last [] with
    | (s, .error err) => (s, some err)
    | (s, .ok chain) => s.importSegments env insert [] 0 chain

/-- The loop of `recoverAncestors` that inserts the blocks again. -/
def reinsert (insert : BlockChain W → List Block → BlockChain W × Option Err) (block : Block) :
    BlockChain W → List Block → BlockChain W × Hash × Option Err
  | s, [] => (s, block.hash, none)
  | s, header :: chain =>
    match s.insertStopped env with
    | (true, s) => (s, zeroHash, some .errInsertionInterrupted)
    | (false, s) =>
      match if chain.isEmpty then some block else s.getBlock header.hash header.number with
      | none => (s, zeroHash, some .panic)
      | some b =>
        match insert s [b] with
        | (s, some err) => (s, b.parentHash, some err)
        | (s, none) => reinsert insert block s chain

def recoverAncestors (insert : BlockChain W → List Block → BlockChain W × Option Err)
    (s : BlockChain W) (block : Block) : BlockChain W × Hash × Option Err :=
  match s.pruned env true block.number block [] with
  | (s, .error err) => (s, zeroHash, some err)
  | (s, .ok chain) => s.reinsert env insert block chain

/-! ## The calls -/

/-- `insertChain` behind the first interrupt check. A first block that is not skipped makes both
loops for known blocks end at once. -/
def insertBatch (insert : BlockChain W → List Block → Bool → BlockChain W × Option Err)
    (s : BlockChain W) (chain : List Block) (setHead : Bool) : BlockChain W × Option Err :=
  if chain.isEmpty then (s, some .panic)
  else
    let items := chain.map fun block => (block, env.verifyHeaders s.world s.blocks chain block)
    let (previous, rest) := s.skipKnown env none items
    match s.writeKnown env previous rest with
    | (s, some err, _) => (s, some err)
    | (s, none, _, []) => (s, none)
    | (s, none, previous, item :: rest) =>
      if s.nextErr env item = some .ErrPrunedAncestor then
        if setHead then s.insertSideChain env (insert · · true) item.1 rest
        else
          let (s, _, err) := s.recoverAncestors env (insert · · false) item.1
          (s, err)
      else s.importBlocks env setHead previous (item :: rest)

def insertChain : Nat → BlockChain W → List Block → Bool → BlockChain W × Option Err
  | 0, s, _, _ => (s, some .outOfFuel)
  | fuel + 1, s, chain, setHead =>
    match s.insertStopped env with
    | (true, s) => (s, none)
    | (false, s) => s.insertBatch env (insertChain fuel) chain setHead

/-- The first block that does not follow the one before it. -/
def notContiguous : Nat → List Block → Option Nat
  | _, [] => none
  | _, [_] => none
  | i, prev :: block :: chain =>
    if block.number ≠ prev.number + 1 ∨ block.parentHash ≠ prev.hash then some i
    else notContiguous (i + 1) (block :: chain)

def InsertChain (fuel : Nat) (s : BlockChain W) (chain : List Block) : BlockChain W × Option Err :=
  if chain.isEmpty then (s, none)
  else
    match notContiguous 1 chain with
    | some i => (s, some (.nonContiguous i))
    | none =>
      if env.chainStopped s.world then (s, some .errChainStopped)
      else s.insertChain env fuel chain true

def InsertBlockWithoutSetHead (fuel : Nat) (s : BlockChain W) (block : Block) :
    BlockChain W × Option Err :=
  if env.chainStopped s.world then (s, some .errChainStopped)
  else s.insertChain env fuel [block] false

def SetCanonical (fuel : Nat) (s : BlockChain W) (head : Block) : BlockChain W × Hash × Option Err :=
  if env.chainStopped s.world then (s, zeroHash, some .errChainStopped)
  else
    let (s, latestValidHash, err) :=
      if env.hasState s.world head.root then (s, zeroHash, none)
      else s.recoverAncestors env (insertChain env fuel · · false) head
    match err with
    | some err => (s, latestValidHash, some err)
    | none =>
      match s.setHead head with
      | (s, some err) => (s, zeroHash, some err)
      | (s, none) => (s, head.hash, none)

end BlockChain

end Chain

end GoEthereum.Core

import GoEthereum.Trie.Hasher

/-!
# The stack trie

`trie/stacktrie.go`: a trie for keys that come in ascending order. A subtree that no
later key can reach is hashed at once, its nodes are reported and only its reference
is kept. A node is an `stNode` by its type; the ones Go takes from a pool and puts
back are new ones. Go changes nodes in place, and a node that `insert` gets is
replaced by what it makes of it.

The array of children has 16 entries. It is indexed by nibbles here, and no key has
the terminator, so the last slot is never used.
-/

namespace GoEthereum.Trie

/-- `stNode`, and the nil pointer. -/
inductive StNode where
  | nil
  | empty                                     -- emptyNode
  | branch (children : Nibble → StNode)       -- branchNode
  | ext (key : Path) (child : StNode)         -- extNode
  | leaf (key : Path) (val : Bytes)           -- leafNode
  | hashed (val : Bytes)                      -- hashedNode

def StNode.isNil : StNode → Bool
  | .nil => true
  | _ => false

/-- A node as it is passed to `onTrieNode`: path, hash and blob. -/
abbrev Report : Type := Path × Hash × Bytes

/-! ## Hashing -/

/-- A reference in `fullnodeEncoder` and `extNodeEncoder`: nothing, a node that is embedded,
or a hash. -/
def writeRef : Option Bytes → Bytes
  | none => Rlp.emptyString
  | some c => if c.length < 32 then c else Rlp.writeBytes c

/-- `(*fullnodeEncoder).encode`. -/
def fullnodeEncoder (children : Nibble → Option Bytes) : Bytes :=
  Rlp.list (slots.flatMap fun i => writeRef (children i))

/-- `(*extNodeEncoder).encode`. -/
def extNodeEncoder (key val : Bytes) : Bytes :=
  Rlp.list (Rlp.writeBytes key ++ writeRef (some val))

/-- `(*leafNodeEncoder).encode`. -/
def leafNodeEncoder (key val : Bytes) : Bytes :=
  Rlp.list (Rlp.writeBytes key ++ Rlp.writeBytes val)

section StackTrie

variable (keccak : Bytes → Hash)

/-- The end of `hash`: a small blob is kept, except at the root, any other is reported and
replaced by its hash. -/
def hashBlob (path : Path) (blob : Bytes) : Bytes × List Report :=
  if blob.length < 32 ∧ 0 < path.length then (blob, [])
  else ((keccak blob).1, [(path, keccak blob, blob)])

/-- `(*StackTrie).hash`: the `val` of the hashed node, and what is reported on the way. -/
def StNode.hash : StNode → Path → Bytes × List Report
  -- callers leave nil children out
  | .nil, _ => ([], [])
  | .hashed val, _ => (val, [])
  | .empty, _ => (emptyRootHash.1, [])
  | .branch children, path =>
    let nodes := fun i =>
      if i = term ∨ (children i).isNil = true then none
      else some (StNode.hash (children i) (path ++ [i])).1
    let reports := childSlots.flatMap fun i =>
      if (children i).isNil then [] else (StNode.hash (children i) (path ++ [i])).2
    let out := hashBlob keccak path (fullnodeEncoder nodes)
    (out.1, reports ++ out.2)
  | .ext key child, path =>
    let c := StNode.hash child (path ++ key)
    let out := hashBlob keccak path (extNodeEncoder (hexToCompactInPlace (key.map nibbleByte)) c.1)
    (out.1, c.2 ++ out.2)
  | .leaf key val, path =>
    hashBlob keccak path
      (leafNodeEncoder (hexToCompactInPlace ((key ++ [term]).map nibbleByte)) val)

/-! ## Inserting -/

/-- `getDiffIndex`; a key that ends within the chunk is an index out of range. -/
def getDiffIndex : Path → Path → Option Nat
  | [], _ => some 0
  | _ :: _, [] => none
  | a :: chunk, b :: key =>
    if a ≠ b then some 0
    else
      match getDiffIndex chunk key with
      | none => none
      | some idx => some (idx + 1)

/-- The nearest elder sibling of a slot. -/
def elder (children : Nibble → StNode) (idx : Nibble) : Option Nibble :=
  (childSlots.filter fun i => i < idx).reverse.find? fun i => !(children i).isNil

/-- The loop that unresolves elder siblings: only the nearest one is looked at. -/
def hashElder (children : Nibble → StNode) (idx : Nibble) (path : Path) :
    (Nibble → StNode) × List Report :=
  match elder children idx with
  | none => (children, [])
  | some i =>
    let out := StNode.hash keccak (children i) (path ++ [i])
    (Function.update children i (.hashed out.1), out.2)

/-- A branch with the part that was there, hashed, and a leaf for what is inserted. -/
def forked (origIdx newIdx : Nibble) (orig : Bytes) (key : Path) (value : Bytes) : StNode :=
  .branch (Function.update (Function.update (fun _ => .nil) origIdx (.hashed orig)) newIdx
    (.leaf key value))

/-- `(*StackTrie).insert`; none is a panic. -/
def StNode.insert : StNode → Path → Bytes → Path → Option (StNode × List Report)
  | .branch _, [], _, _ => none
  | .branch children, idx :: key, value, path =>
    let elders := hashElder keccak children idx path
    if (children idx).isNil then
      some (.branch (Function.update elders.1 idx (.leaf key value)), elders.2)
    else
      match StNode.insert (children idx) key value (path ++ [idx]) with
      | none => none
      | some (child, reports) =>
        some (.branch (Function.update elders.1 idx child), elders.2 ++ reports)
  | .ext chunk child, key, value, path =>
    match getDiffIndex chunk key with
    | none => none
    | some diffidx =>
      if diffidx = chunk.length then
        match StNode.insert child (key.drop diffidx) value (path ++ key.take diffidx) with
        | none => none
        | some (child, reports) => some (.ext chunk child, reports)
      else
        match chunk.drop diffidx, key.drop diffidx with
        | origIdx :: _, newIdx :: rest =>
          let n :=
            if diffidx < chunk.length - 1 then
              StNode.hash keccak (.ext (chunk.drop (diffidx + 1)) child)
                (path ++ chunk.take (diffidx + 1))
            else StNode.hash keccak child (path ++ chunk)
          let p := forked origIdx newIdx n.1 rest value
          some (if diffidx = 0 then p else .ext (chunk.take diffidx) p, n.2)
        | _, _ => none
  | .leaf chunk val, key, value, path =>
    match getDiffIndex chunk key with
    | none => none
    | some diffidx =>
      -- Trying to insert into existing key
      if chunk.length ≤ diffidx then none
      else
        match chunk.drop diffidx, key.drop diffidx with
        | origIdx :: _, newIdx :: rest =>
          let n := StNode.hash keccak (.leaf (chunk.drop (diffidx + 1)) val)
            (path ++ chunk.take (diffidx + 1))
          let p := forked origIdx newIdx n.1 rest value
          some (if diffidx = 0 then p else .ext (chunk.take diffidx) p, n.2)
        | _, _ => none
  | .empty, key, value, _ => some (.leaf key value, [])
  -- trying to insert into hash
  | .hashed _, _, _, _ => none
  | .nil, _, _, _ => none

end StackTrie

/-! ## The trie -/

/-- `StackTrie`, with what has been passed to `onTrieNode`. -/
structure StackTrie where
  root : StNode
  last : Option Path
  reports : List Report

/-- The errors of `Update`. -/
inductive StackErr where
  | deletion    -- trying to insert empty (deletion)
  | order       -- non-ascending key order
  | panic
deriving DecidableEq

def NewStackTrie : StackTrie where
  root := .empty
  last := none
  reports := []

namespace StackTrie

variable (keccak : Bytes → Hash)

/-- `(*StackTrie).Update`. -/
def Update (t : StackTrie) (key value : Bytes) : Except StackErr StackTrie :=
  if value.isEmpty then .error .deletion
  else
    match writeHexKey key with
    | none => .error .panic
    | some k =>
      -- a nil slice compares like an empty one
      if t.last.getD [] < k then
        match StNode.insert keccak t.root k value [] with
        | none => .error .panic
        | some (root, reports) =>
          .ok { root := root, last := some k, reports := t.reports ++ reports }
      else .error .order

/-- `(*StackTrie).Hash`. -/
def Hash (t : StackTrie) : StackTrie × GoEthereum.Hash :=
  let out := StNode.hash keccak t.root []
  ({ t with root := .hashed out.1, reports := t.reports ++ out.2 }, bytesToHash out.1)

end StackTrie

end GoEthereum.Trie
